import MeteredScript.Frames
import MeteredScript.Heap
import MeteredScript.Meter

namespace MeteredScript

/-! # Running programs: state and effects

A run reads and changes a `State` and may halt before its end, by failing with an error, by a crash or
for want of levels; what it changed before it halted stays changed. Frames, heap and meter are reached
only through the computations of this module.
-/

/-- The bounds of a run: units of work, and bytes of a string. -/
structure Limits where
  stepBudget : Nat := 1000000
  maxStringLength : Nat := 1048576
deriving DecidableEq, Repr, Inhabited

/-- What a program can ask of the outside. A collaborator may be missing, and may fail. -/
structure Collaborators where
  /-- Runs the token with an id on arguments. -/
  tokenExecutor : Option (Decimal → List Datum → Except Error Datum) := none
  /-- Calls the contract at an address, given a signature, a type of result and arguments. -/
  contractCaller : Option (String → String → Datum → List Datum → Except Error Datum) := none
deriving Inhabited

/-- The state of a run. `entries` counts how often an expression, a statement, a call or a nested
step was entered; nothing reads it. -/
structure State where
  heap : Heap := {}
  frames : Frames := {}
  meter : Meter
  entries : Nat := 0
deriving Repr, Inhabited

/-- A computation of a running program. -/
abbrev Run := EStateM Halt State

abbrev FunctionTable := Std.TreeMap String Function

/-- Functions by their names; of several with one name the last one counts. -/
def FunctionTable.ofList (functions : List Function) : FunctionTable :=
  functions.foldl (fun table f => table.insert f.name f) ∅

/-- What stays the same throughout a run: the functions `φ` of the program by their names, the
collaborators and the bound on strings. -/
structure EnvOf (φ : Type) where
  functions : Std.TreeMap String φ
  collaborators : Collaborators := {}
  maxStringLength : Nat := 1048576
deriving Inhabited

/-- What stays the same throughout a run of a program tree. -/
abbrev Env := EnvOf Function

def EnvOf.function? {φ : Type} (env : EnvOf φ) (name : String) : Option φ := env.functions[name]?

theorem FunctionTable.getElem?_foldl_insert (functions : List Function) (table : FunctionTable)
    (name : String) :
    (functions.foldl (fun table f => table.insert f.name f) table)[name]? =
      (functions.reverse.find? fun f => f.name == name).or table[name]? := by
  induction functions generalizing table with
  | nil => simp
  | cons f rest ih =>
    rw [List.foldl_cons, ih, List.reverse_cons, List.find?_append, Std.TreeMap.getElem?_insert]
    cases List.find? (fun f => f.name == name) rest.reverse with
    | some g => simp
    | none => by_cases h : f.name = name <;> simp [h]

/-- The last function with a name is the one found. -/
theorem FunctionTable.getElem?_ofList (functions : List Function) (name : String) :
    (ofList functions)[name]? = functions.reverse.find? fun f => f.name == name := by
  rw [ofList, getElem?_foldl_insert]
  simp

namespace Run

def fail {α : Type} (error : Error) : Run α := throw (.failed error)

def crash {α : Type} (crash : Crash) : Run α := throw (.crashed crash)

/-- Gives what was read, or crashes as reading did. -/
def orCrash {α : Type} : Except Crash α → Run α
  | .ok a => pure a
  | .error c => crash c

/-- Stops for want of levels or rounds. -/
def unfinished {α : Type} : Run α := throw .unfinished

/-- Pays for work. -/
def charge (units : Nat) : Run Unit := fun s =>
  let s := { s with meter := s.meter.charge units }
  if s.meter.isExhausted then .error (.failed (.exhausted .budget)) s else .ok () s

/-- Enters an expression, a statement, a call or a nested step, for a unit. -/
def enter : Run Unit := fun s => charge 1 { s with entries := s.entries + 1 }

/-! ## Frames -/

def lookup (name : String) : Run (Option Value) := do return (← get).frames.get? name

/-- Whether the latest frame has a variable. -/
def isLocal (name : String) : Run Bool := do return (← get).frames.isLocal name

/-- Whether a name is bound from outside. -/
def isGlobal (name : String) : Run Bool := do return (← get).frames.isGlobal name

/-- Binds a variable in the latest frame. -/
def define (name : String) (value : Value) : Run Unit :=
  modify fun s => { s with frames := s.frames.define name value }

/-- Assigns to a variable of the latest frame, and says whether there is one. -/
def setVariable (name : String) (value : Value) : Run Bool :=
  modifyGet fun s =>
    match s.frames.set? name value with
    | some frames => (true, { s with frames })
    | none => (false, s)

/-- Binds a name from outside. -/
def defineGlobal (name : String) (value : Value) : Run Unit :=
  modify fun s => { s with frames := s.frames.defineGlobal name value }

/-- Runs `body` in a frame of its own, which is closed also if it halts. -/
def inFrame {α : Type} (body : Run α) : Run α := fun s =>
  match body { s with frames := s.frames.push } with
  | .ok a s => .ok a { s with frames := s.frames.pop }
  | .error h s => .error h { s with frames := s.frames.pop }

/-! ## The heap -/

def display (v : Value) : Run String := do return (← get).heap.display v

/-- How many elements an array has. -/
def arrayLength (handle : Nat) : Run Nat := do return ((← get).heap.elements handle).size

def element (handle index : Nat) : Run Value := do
  return ((← get).heap.elements handle)[index]?.getD .undefined

def property? (handle : Nat) (key : String) : Run (Option Value) := do
  return (← get).heap.property? handle key

def exportDatum? (v : Value) : Run (Except RangeFault Datum) := do
  return (← get).heap.exportDatum? v

/-- Changes the heap and gives a value. -/
def onHeap (f : Heap → Heap × Value) : Run Value :=
  modifyGet fun ⟨heap, frames, meter, entries⟩ =>
    let (heap, v) := f heap
    (v, ⟨heap, frames, meter, entries⟩)

def addArray (elements : List Value) : Run Value := onHeap fun heap => heap.addArray elements

def addObject (entries : List (String × Value)) : Run Value :=
  onHeap fun heap => heap.addObject entries

/-- Copies data onto the heap. -/
def addDatum (d : Datum) : Run Value := onHeap fun heap => heap.importDatum d

def modifyHeap (f : Heap → Heap) : Run Unit := modify fun s => { s with heap := f s.heap }

/-- Puts a value in place of an element. -/
def setElement (handle index : Nat) (value : Value) : Run Unit :=
  modifyHeap fun heap => heap.setElement handle index value

/-- Adds values at the end of an array. -/
def appendElements (handle : Nat) (values : List Value) : Run Unit :=
  modifyHeap fun heap => heap.appendElements handle values

/-- Puts a value under a key of an object. -/
def setProperty (handle : Nat) (key : String) (value : Value) : Run Unit :=
  modifyHeap fun heap => heap.setProperty handle key value

/-! ## Data -/

/-- Copies a value off the heap, for use at a place in the source. -/
def exportDatum (v : Value) (span : Span) : Run Datum := do
  match ← exportDatum? v with
  | .ok d => return d
  | .error fault => fail (.range fault span)

/-- Pays for data and copies it onto the heap. -/
def importDatum (d : Datum) : Run Value := do
  charge (1 + d.size)
  addDatum d

end Run

end MeteredScript
