import MeteredScript.Eval.State

namespace MeteredScript.Run

/-! # Built-in functions

Two names stand for functions that call a collaborator, unless the program declares a function of
that name. Arguments are copied out, and the result is paid for and copied in.
-/

/-- A function that calls a collaborator. -/
inductive Builtin where
  | executeToken
  | staticcallContract
deriving DecidableEq, Repr, Inhabited

/-- The function that a name stands for. -/
def Builtin.ofName? : String → Option Builtin
  | "executeToken" => some executeToken
  | "staticcallContract" => some staticcallContract
  | _ => none

/-- Fails with the failure of a collaborator. -/
def ofOutcome {α : Type} : Except Error α → Run α
  | .ok a => pure a
  | .error e => fail e

def askToken (collaborators : Collaborators) (id : Decimal) (args : List Datum) : Run Datum :=
  match collaborators.tokenExecutor with
  | some execute => ofOutcome (execute id args)
  | none => fail (.collaborator .noTokenExecutor)

def askContract (collaborators : Collaborators) (address signature : String) (returnType : Datum)
    (args : List Datum) : Run Datum :=
  match collaborators.contractCaller with
  | some call => ofOutcome (call address signature returnType args)
  | none => fail (.collaborator .noContractCaller)

/-- The id of a token: the number that the first argument stands for. -/
def tokenId (args : List Value) : Except Crash (Option Decimal) :=
  match args.head? with
  | some v => v.toNumber
  | none => .ok none

/-- Runs a token: the first argument is its id, the others are its arguments. -/
def executeToken (collaborators : Collaborators) (args : List Value) (span : Span) : Run Value := do
  match ← orCrash (tokenId args) with
  | none => fail (.collaborator .tokenId)
  | some id =>
    let data ← (args.drop 1).mapM fun v => exportDatum v span
    importDatum (← askToken collaborators id data)

/-- The text of an argument; a missing one is empty. -/
def argumentText (args : List Value) (i : Nat) : Run String :=
  match args[i]? with
  | some v => display v
  | none => pure ""

/-- Calls a contract: address, signature, type of result, then the contract's arguments. -/
def staticcallContract (collaborators : Collaborators) (args : List Value) (span : Span) :
    Run Value := do
  let address ← argumentText args 0
  let signature ← argumentText args 1
  let returnType ←
    match args[2]? with
    | some v => exportDatum v span
    | none => pure .undefined
  let data ← (args.drop 3).mapM fun v => exportDatum v span
  importDatum (← askContract collaborators address signature returnType data)

/-- Calls a built-in function. -/
def callBuiltin (collaborators : Collaborators) (builtin : Builtin) (args : List Value)
    (span : Span) : Run Value :=
  match builtin with
  | .executeToken => executeToken collaborators args span
  | .staticcallContract => staticcallContract collaborators args span

end MeteredScript.Run
