import MeteredScript.Eval.Rules
import MeteredScript.Tree.NodeTable
import MeteredScript.Tree.Parser

namespace MeteredScript

/-! # Running a program

`evaluators` ties the rules together. Its recursion is on the number of levels it is given, and a run
that needs more of them does not end. Every rule pays a unit before it goes further down, so a run is
given one level more than it has units.
-/

/-- Evaluation down to at most `levels` further levels. -/
def evaluators (env : Env) (level : Nat) : Nat → Evaluators
  | 0 => ⟨fun _ => Run.unfinished, fun _ => Run.unfinished, fun _ _ => Run.unfinished, 0⟩
  | levels + 1 =>
    { eval := fun e s => deepen level fun _ => Run.evalExpr env (evaluators env (level + 1) levels) e s
      exec := fun b s => deepen level fun _ => Run.execStmt (evaluators env (level + 1) levels) b s
      call := fun f args s =>
        deepen level fun _ => Run.callFunction (evaluators env (level + 1) levels) f args s
      rounds := levels + 1 }

/-- What a run is given: the number of the node to start at, where zero stands for the first
function, the arguments, and the names bound from outside. -/
structure RunContext where
  start : Nat := 0
  args : List Datum := []
  identifiers : List (String × Datum) := []
deriving Inhabited

def Program.entry (program : Program) (start : Nat) : Except Error Function :=
  let found :=
    if start = 0 then program.functions.head?
    else (program.numberedFunctions.find? fun f => f.1 == start).map Prod.snd
  match found with
  | some f => .ok f
  | none =>
    let span :=
      if start = 0 then program.span
      else (program.nodeTable[start]?.map NumberedNode.span).getD {}
    .error (.reference .notFunction span)

namespace Run

/-- Binds the names given from outside. -/
def bindIdentifiers : List (String × Datum) → Run Unit
  | [] => pure ()
  | (name, d) :: rest => do
    defineGlobal name (← importDatum d)
    bindIdentifiers rest

/-- Runs the entry function of a program, by `call`, and copies its result out. -/
def programBy (program : Program) (context : RunContext)
    (call : Function → List Value → Run Value) : Run Datum := do
  bindIdentifiers context.identifiers
  let f ← ofOutcome (program.entry context.start)
  let args ← context.args.mapM importDatum
  let v ← call f args
  exportDatum v f.span

def program (program : Program) (env : Env) (context : RunContext) (levels : Nat) : Run Datum :=
  programBy program context (evaluators env 0 levels).call

end Run

/-- How a run ended, how many units it asked for, and how often it entered something. -/
structure Outcome where
  result : Except Halt Datum
  used : Nat
  entries : Nat

def Outcome.ofResult : EStateM.Result Halt State Datum → Outcome
  | .ok d s => ⟨.ok d, s.meter.used, s.entries⟩
  | .error halt s => ⟨.error halt, s.meter.used, s.entries⟩

def Program.runWithin (program : Program) (levels : Nat) (context : RunContext) (limits : Limits)
    (collaborators : Collaborators) : Outcome :=
  let env : Env := ⟨FunctionTable.ofList program.functions, collaborators, limits.maxStringLength⟩
  .ofResult (Run.program program env context levels { meter := { limit := limits.stepBudget } })

def Program.run (program : Program) (context : RunContext) (limits : Limits)
    (collaborators : Collaborators) : Outcome :=
  program.runWithin (limits.stepBudget + 1) context limits collaborators

end MeteredScript
