import MeteredScript.Eval.Builtins
import MeteredScript.Eval.Members
import MeteredScript.Eval.Operators

namespace MeteredScript

/-! # Evaluation rules

One rule a construct. A rule takes as `sub` the evaluation of what is inside the construct or called
by it, so that each rule is a definition of its own and the recursion is tied in one place. An
expression, a statement, a call and a nested step of a run of updates are entered first, for a unit.
-/

/-- How a statement ends. -/
inductive Completion where
  | normal
  | breakLoop
  | continueLoop
  | returned (value : Value)
deriving DecidableEq, Repr, Inhabited

/-- What a call gives when the body of the function ended so. -/
def Completion.result : Completion → Value
  | .returned v => v
  | .normal | .breakLoop | .continueLoop => .undefined

/-- Evaluation one level further down, of expressions `ε`, statements `σ` and functions `φ`; a loop gets
at most `rounds` rounds. -/
structure EvaluatorsOf (ε σ φ : Type) where
  eval : ε → Run Value
  exec : σ → Run Completion
  call : φ → List Value → Run Value
  rounds : Nat

/-- Evaluation of program trees one level further down. -/
abbrev Evaluators := EvaluatorsOf Expr Stmt Function

/-- A place that was evaluated: what is assigned to is fixed, and evaluated once. -/
inductive Location where
  | name (name : String)
  | member (object key : Value)
deriving DecidableEq, Repr, Inhabited

namespace Run

variable (env : Env) (sub : Evaluators) {α ε σ φ : Type}

/-! ## Places -/

def readName (name : String) (span : Span) : Run Value := do
  match ← lookup name with
  | some v => return v
  | none => fail (.reference (.undefined name) span)

/-- Evaluates what a place consists of. -/
def locate : Place → Run Location
  | .ident name _ => pure (.name name)
  | .member object name _ => do return .member (← sub.eval object) (.string name)
  | .index object key _ => do
    let object ← sub.eval object
    return .member object (← sub.eval key)

def readLocation (location : Location) (span : Span) : Run Value :=
  match location with
  | .name name => readName name span
  | .member object key => getMember object key span

def writeLocation (location : Location) (value : Value) (span : Span) : Run Unit :=
  match location with
  | .name name => do
    if ← setVariable name value then return ()
    -- what the context binds can be read only
    else if ← isGlobal name then fail (.reference (.readOnly name) span)
    else fail (.reference (.undefined name) span)
  | .member object key => setMember object key value span

def readPlace (place : Place) : Run Value := do
  readLocation (← locate sub place) place.span

def assigned (env : EnvOf α) (sub : EvaluatorsOf ε σ φ) (op : AssignOp) (location : Location)
    (value : ε) (span : Span) : Run Value :=
  match op with
  | .plain => sub.eval value
  | .compound op => do
    -- the old value is read before the right side is evaluated
    let old ← readLocation location span
    let right ← sub.eval value
    arith env.maxStringLength op old right

def assign (op : AssignOp) (target : Place) (value : Expr) (span : Span) : Run Value := do
  let location ← locate sub target
  let result ← assigned env sub op location value span
  writeLocation location result span
  return result

/-! ## Updates -/

/-- The number that a step starts from; arrays and objects have none. -/
def stepNumber (v : Value) : Except Crash (Option Decimal) :=
  if v.isContainer then .ok none else v.toNumber

def step (op : UpdateOp) (n : Decimal) : Decimal :=
  match op with
  | .increment => n.add .one
  | .decrement => n.sub .one

/-- Pays for a step, by the size of the number. -/
def chargeStep (old : Option Decimal) : Run Unit :=
  match old with
  | some n => charge n.words
  | none => pure ()

/-- Steps a location once, and gives the number before and the value after. -/
def stepLocation (op : UpdateOp) (location : Location) (span : Span) :
    Run (Option Decimal × Value) := do
  let old ← orCrash (stepNumber (← readLocation location span))
  chargeStep old
  let new := Value.ofNumber? (old.map (step op))
  writeLocation location new span
  return (old, new)

/-- Steps a place by all steps in front of it, the innermost first, and gives where it is and what it
holds then. -/
def stepBefore (op : UpdateOp) (span : Span) (target : Place) :
    List (UpdateOp × Span) → Run (Location × Value)
  | [] => do
    let location ← locate sub target
    return (location, (← stepLocation op location span).2)
  | (op', span') :: inner => do
    enter
    let stepped ← stepBefore op' span' target inner
    return (stepped.1, (← stepLocation op stepped.1 span).2)

/-- Steps a place, and gives the number before. -/
def stepAfter (op : UpdateOp) (target : Place) (span : Span) : Run Value := do
  let location ← locate sub target
  return .ofNumber? (← stepLocation op location span).1

/-! ## Calls -/

/-- Evaluates expressions from left to right. -/
def evalAll (sub : EvaluatorsOf ε σ φ) (es : List ε) : Run (List Value) := es.mapM sub.eval

/-- Calls the function that a name stands for. -/
def callName (name : String) (args : List Value) (span : Span) : Run Value :=
  match env.function? name with
  | some f => sub.call f args
  | none =>
    match Builtin.ofName? name with
    | some builtin => callBuiltin env.collaborators builtin args span
    | none => fail (.reference (.undefined name) span)

/-- Calls a method. Arrays have the method `push`, which costs a unit for every value it adds and
gives the new length; there are no others. -/
def callMethod (receiver : Value) (method : String) (args : List Value) (span : Span) : Run Value :=
  match receiver, method with
  | .array handle, "push" => do
    charge args.length
    appendElements handle args
    return .ofInt (← arrayLength handle)
  | _, _ => fail (.reference (.undefined method) span)

/-- Evaluates a call. Only names and members can be called; of anything else nothing is evaluated. -/
def evalCall (callee : Expr) (arguments : List Expr) (span : Span) : Run Value :=
  match callee with
  | .place (.ident name _) => do
    let args ← evalAll sub arguments
    callName env sub name args span
  | .place (.member object method _) => do
    let receiver ← sub.eval object
    let args ← evalAll sub arguments
    callMethod receiver method args span
  | .place (.index object key _) => do
    let receiver ← sub.eval object
    -- the key is made a text before the arguments are evaluated
    let method ← display (← sub.eval key)
    let args ← evalAll sub arguments
    callMethod receiver method args span
  | _ => fail (.reference (.undefined "<callee expression>") span)

/-- The value of a parameter without an argument. -/
def fallback (sub : EvaluatorsOf ε σ φ) (param : ParamOf ε) : Run Value :=
  match param.fallback with
  | some e => sub.eval e
  | none => pure .undefined

/-- Binds parameters from left to right: to the argument, or else to the fallback, which may use the
parameters before it. -/
def bindParams (sub : EvaluatorsOf ε σ φ) : List (ParamOf ε) → List Value → Run Unit
  | [], _ => pure ()
  | param :: params, arg :: args => do
    define param.name arg
    bindParams sub params args
  | param :: params, [] => do
    define param.name (← fallback sub param)
    bindParams sub params []

/-- Binds the parameters of a function and runs its body. -/
def callBody (f : Function) (args : List Value) : Run Value := do
  bindParams sub f.params args
  return (← sub.exec (.block f.body f.bodySpan)).result

def callFunction (f : Function) (args : List Value) : Run Value := do
  enter
  inFrame (callBody sub f args)

/-! ## Expressions -/

/-- `typeof` of a name that is not bound is answered without looking at the name. -/
def evalTypeof (operand : Expr) : Run Value :=
  match operand with
  | .place (.ident name span) => do
    match ← lookup name with
    | some _ => unary .typeof (← sub.eval (.place (.ident name span)))
    | none => return .string "undefined"
  | operand => do unary .typeof (← sub.eval operand)

/-- Evaluates the second operand only if the first does not decide. -/
def evalLogical (sub : EvaluatorsOf ε σ φ) (op : LogicalOp) (left right : ε) : Run Value := do
  let v ← sub.eval left
  match op with
  | .and => if v.isTruthy then sub.eval right else return v
  | .or => if v.isTruthy then return v else sub.eval right

/-- The value of the last of several expressions. -/
def evalSequence (sub : EvaluatorsOf ε σ φ) (last : Value) : List ε → Run Value
  | [] => pure last
  | e :: es => do evalSequence sub (← sub.eval e) es

def evalArray (sub : EvaluatorsOf ε σ φ) (elements : List ε) : Run Value := do
  let values ← evalAll sub elements
  charge (1 + values.length)
  addArray values

def evalObject (sub : EvaluatorsOf ε σ φ) (entries : List (String × ε)) : Run Value := do
  let values ← entries.mapM fun entry => do return (entry.1, ← sub.eval entry.2)
  charge (1 + values.length)
  addObject values

/-- The value of an expression that has been entered. -/
def exprBody (e : Expr) : Run Value :=
  match e with
  | .literal value _ => pure (.ofLiteral value)
  | .place p => readPlace sub p
  | .array elements _ => evalArray sub elements
  | .object entries _ => evalObject sub entries
  | .unary .typeof operand _ => evalTypeof sub operand
  | .unary op operand _ => do unary op (← sub.eval operand)
  | .updateBefore op span inner target => do return (← stepBefore sub op span target inner).2
  | .updateAfter op target span => stepAfter sub op target span
  | .binary op left right _ => do
    let left ← sub.eval left
    let right ← sub.eval right
    binary env.maxStringLength op left right
  | .logical op left right _ => evalLogical sub op left right
  | .assign op target value span => assign env sub op target value span
  | .conditional test consequent alternate _ => do
    if (← sub.eval test).isTruthy then sub.eval consequent else sub.eval alternate
  | .sequence parts _ => evalSequence sub .undefined parts
  | .call callee arguments span => evalCall env sub callee arguments span

/-- Evaluates an expression. -/
def evalExpr (e : Expr) : Run Value := do
  enter
  exprBody env sub e

/-! ## Statements -/

/-- Declares a variable. Without an initial value a variable that is there already keeps its own. -/
def declareOne (sub : EvaluatorsOf ε σ φ) (d : DeclaratorOf ε) : Run Unit :=
  match d.init with
  | some e => do define d.name (← sub.eval e)
  | none => do
    if ← isLocal d.name then return ()
    else define d.name .undefined

/-- Declares variables from left to right. -/
def declare (sub : EvaluatorsOf ε σ φ) (declarators : List (DeclaratorOf ε)) : Run Unit :=
  declarators.forM (declareOne sub)

/-- Runs statements up to the first that does not end normally. -/
def execBlock (sub : EvaluatorsOf ε σ φ) : List σ → Run Completion
  | [] => pure .normal
  | s :: rest => do
    match ← sub.exec s with
    | .normal => execBlock sub rest
    | completion => return completion

/-- Whether a loop goes on; without a test it does. -/
def holds (sub : EvaluatorsOf ε σ φ) (test : Option ε) : Run Bool :=
  match test with
  | some e => do return (← sub.eval e).isTruthy
  | none => pure true

def finishRound (sub : EvaluatorsOf ε σ φ) (update : Option ε) : Run Unit :=
  match update with
  | some e => do let _ ← sub.eval e
  | none => pure ()

/-- One round of a loop: how the loop ends with it, or that it goes on. -/
def loopRound (sub : EvaluatorsOf ε σ φ) (test update : Option ε) (body : σ) :
    Run (Option Completion) := do
  if ← holds sub test then
    match ← sub.exec body with
    | .breakLoop => return some .normal
    | .returned v => return some (.returned v)
    | .normal | .continueLoop => do
      finishRound sub update
      return none
  else return some .normal

def repeatLoop (sub : EvaluatorsOf ε σ φ) (test update : Option ε) (body : σ) : Nat → Run Completion
  | 0 => unfinished
  | rounds + 1 => do
    match ← loopRound sub test update body with
    | some completion => return completion
    | none => repeatLoop sub test update body rounds

def startLoop (init : Option ForInit) : Run Unit :=
  match init with
  | none => pure ()
  | some (.declare declarators span) => do let _ ← sub.exec (.declare declarators span)
  | some (.evaluate e) => do let _ ← sub.eval e

def returned (sub : EvaluatorsOf ε σ φ) (argument : Option ε) : Run Completion :=
  match argument with
  | some e => do return .returned (← sub.eval e)
  | none => pure (.returned .undefined)

/-- Runs a statement that has been entered. -/
def stmtBody (s : Stmt) : Run Completion :=
  match s with
  | .declare declarators _ => do
    declare sub declarators
    return .normal
  | .block body _ => execBlock sub body
  | .ifThen test consequent _ => do
    if (← sub.eval test).isTruthy then sub.exec consequent else return .normal
  | .ifElse test consequent alternate _ => do
    if (← sub.eval test).isTruthy then sub.exec consequent else sub.exec alternate
  | .forLoop init test update body _ => do
    startLoop sub init
    repeatLoop sub test update body sub.rounds
  | .whileLoop test body _ => repeatLoop sub (some test) none body sub.rounds
  | .breakLoop _ => pure .breakLoop
  | .continueLoop _ => pure .continueLoop
  | .returnValue argument _ => returned sub argument
  | .empty _ => pure .normal
  | .expression e _ => do
    let _ ← sub.eval e
    return .normal

def execStmt (s : Stmt) : Run Completion := do
  enter
  stmtBody sub s

end Run

end MeteredScript
