import MeteredScript.Datum
import MeteredScript.Error
import MeteredScript.Value
import Std.Data.TreeSet

namespace MeteredScript

/-! # The heap

The arrays and objects of a run. Nothing is ever removed, so a handle stays good. Data is copied
onto the heap by `importDatum` and off it by `exportDatum?`, which refuses values that contain
themselves; `display` is a value's text as the program sees it.
-/

/-- The arrays and objects of a run, each at the position its handle names. -/
structure Heap where
  arrays : Array (Array Value) := #[]
  objects : Array (Entries Value) := #[]
deriving Repr, Inhabited

namespace Heap

def elements (heap : Heap) (handle : Nat) : Array Value := heap.arrays[handle]?.getD #[]

def entries (heap : Heap) (handle : Nat) : Entries Value := heap.objects[handle]?.getD []

def addArray (heap : Heap) (elements : List Value) : Heap × Value :=
  let handle := heap.arrays.size
  ({ heap with arrays := heap.arrays.push elements.toArray }, .array handle)

/-- Adds an object; a repeated key keeps its first position and its last value. -/
def addObject (heap : Heap) (entries : List (String × Value)) : Heap × Value :=
  let handle := heap.objects.size
  ({ heap with objects := heap.objects.push (Entries.ofList entries) }, .object handle)

/-- Puts a value in place of an element. -/
def setElement (heap : Heap) (handle index : Nat) (value : Value) : Heap :=
  { heap with arrays := heap.arrays.modify handle fun elements => elements.setIfInBounds index value }

/-- Adds values at the end of an array. -/
def appendElements (heap : Heap) (handle : Nat) (values : List Value) : Heap :=
  { heap with arrays := heap.arrays.modify handle fun elements => elements ++ values }

def property? (heap : Heap) (handle : Nat) (key : String) : Option Value :=
  (heap.entries handle).get? key

/-- Puts a value under a key of an object. -/
def setProperty (heap : Heap) (handle : Nat) (key : String) (value : Value) : Heap :=
  { heap with objects := heap.objects.modify handle fun entries => entries.put key value }

/-! ## Text of a value -/

/-- Appends the texts of elements, separated by commas; null and undefined are empty. -/
def writeEach (write : String → Value → StateM (Std.TreeSet Nat) String) :
    String → List Value → StateM (Std.TreeSet Nat) String
  | out, [] => return out
  | out, [v] => writeElement out v
  | out, v :: rest => do
    let out ← writeElement out v
    writeEach write (out ++ ",") rest
where
  writeElement (out : String) (v : Value) : StateM (Std.TreeSet Nat) String :=
    match v with
    | .null | .undefined => return out
    | v => write out v

/-- Appends the text of a value. The state holds the arrays that are being written, and one of them
is empty where it comes again; `bound` is at least the number of the other arrays. -/
def write (heap : Heap) (level bound : Nat) (out : String) (v : Value) :
    StateM (Std.TreeSet Nat) String :=
  match v with
  | .number value => return out ++ value.text
  | .nan => return out ++ "NaN"
  | .string value => return out ++ value
  | .boolean value => return out ++ (if value then "true" else "false")
  | .null => return out ++ "null"
  | .undefined => return out ++ "undefined"
  | .object _ => return out ++ "[object Object]"
  | .array handle => do
    if (← get).contains handle then return out
    match bound with
    | 0 => return out
    | bound + 1 =>
      modify (·.insert handle)
      let out ← deepen level fun _ =>
        writeEach (write heap (level + 1) bound) out (heap.elements handle).toList
      modify (·.erase handle)
      return out

/-- The text of a value. Arrays join their elements with commas, objects all look alike. -/
def display (heap : Heap) (v : Value) : String := (heap.write 0 heap.arrays.size "" v ∅).1

/-! ## Copying out -/

/-- The arrays and objects around a value. -/
structure Surroundings where
  arrays : Std.TreeSet Nat := ∅
  objects : Std.TreeSet Nat := ∅

/-- Copies a value off the heap. The state holds the arrays and objects that are being copied, which
the value may not contain; `bound` is at least the number of the other arrays and objects. -/
def export? (heap : Heap) (level bound : Nat) (v : Value) :
    StateT Surroundings (Except RangeFault) Datum :=
  match v with
  | .number value => return .number value
  | .nan => return .nan
  | .string value => return .string value
  | .boolean value => return .boolean value
  | .null => return .null
  | .undefined => return .undefined
  | .array handle => do
    if (← get).arrays.contains handle then throw .cyclicArray
    match bound with
    | 0 => return .array []
    | bound + 1 =>
      modify fun around => { around with arrays := around.arrays.insert handle }
      let items ← deepen level fun _ =>
        (heap.elements handle).toList.mapM (export? heap (level + 1) bound)
      modify fun around => { around with arrays := around.arrays.erase handle }
      return .array items
  | .object handle => do
    if (← get).objects.contains handle then throw .cyclicObject
    match bound with
    | 0 => return .object []
    | bound + 1 =>
      modify fun around => { around with objects := around.objects.insert handle }
      let entries ← deepen level fun _ =>
        (heap.entries handle).mapM fun entry => do
          return (entry.1, ← export? heap (level + 1) bound entry.2)
      modify fun around => { around with objects := around.objects.erase handle }
      return .object entries

/-- The data of a value; there is none for a value that contains itself. -/
def exportDatum? (heap : Heap) (v : Value) : Except RangeFault Datum :=
  (heap.export? 0 (heap.arrays.size + heap.objects.size) v).run' {}

/-! ## Copying in -/

mutual

/-- Copies data onto the heap, contents first. -/
def importAt (level : Nat) (heap : Heap) (d : Datum) : Heap × Value :=
  match d with
  | .number value => (heap, .number value)
  | .nan => (heap, .nan)
  | .string value => (heap, .string value)
  | .boolean value => (heap, .boolean value)
  | .null => (heap, .null)
  | .undefined => (heap, .undefined)
  | .array items =>
    deepen level fun _ =>
      let (heap, values) := importItems (level + 1) heap [] items
      heap.addArray values
  | .object entries =>
    deepen level fun _ =>
      let (heap, values) := importEntries (level + 1) heap [] entries
      heap.addObject values

/-- Copies items onto the heap, behind the values already `done`, the latest first. -/
def importItems (level : Nat) (heap : Heap) (done : List Value) : List Datum → Heap × List Value
  | [] => (heap, done.reverse)
  | item :: rest =>
    let (heap, v) := importAt level heap item
    importItems level heap (v :: done) rest

/-- Copies the values of entries onto the heap, behind those already `done`, the latest first. -/
def importEntries (level : Nat) (heap : Heap) (done : List (String × Value)) :
    List (String × Datum) → Heap × List (String × Value)
  | [] => (heap, done.reverse)
  | (key, value) :: rest =>
    let (heap, v) := importAt level heap value
    importEntries level heap ((key, v) :: done) rest

end

/-- Copies data onto the heap. -/
def importDatum (heap : Heap) (d : Datum) : Heap × Value := importAt 0 heap d

end Heap

end MeteredScript
