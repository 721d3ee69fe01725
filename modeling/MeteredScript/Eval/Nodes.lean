import MeteredScript.Eval.Run

namespace MeteredScript

/-! # Running an arena

Evaluation that follows numbers from node to node. Which branch is taken is decided by the node that
is found. An arena may hold a node of any kind below any other, so there are branches for nodes of the
wrong kind and for numbers that no node has; `Fallbacks` says what is done there. The rules for what
is inside of a node are those of program trees.
-/

/-- What becomes of a run that comes to a node of the wrong kind, by the range of the node or of the
call, or to a number that no node has. -/
structure Fallbacks where
  notExpression : Span → Halt := fun span => .failed (.parse .expectedExpression span)
  notTarget : Span → Halt := fun span => .failed (.parse .assignmentTarget span)
  notFunction : Span → Halt := fun span => .failed (.reference .notFunction span)
  outside : Halt := .crashed .outsideArena
deriving Inhabited

/-- What stays the same throughout a run of an arena. Functions are known by their numbers. -/
structure NodeEnv extends EnvOf NodeId where
  arena : Arena
  fallbacks : Fallbacks := {}
deriving Inhabited

/-- Evaluation of nodes one level further down. A function is called from somewhere in the source. -/
abbrev NodeEvaluators := EvaluatorsOf NodeId NodeId (NodeId × Span)

namespace Run

variable (env : NodeEnv) (sub : NodeEvaluators)

def nodeAt (id : NodeId) : Run Node :=
  match env.arena.node id with
  | .ok node => pure node
  | .error _ => throw env.fallbacks.outside

/-! ## Places -/

def memberKey (key : MemberKey) : Run Value :=
  match key with
  | .named name => pure (.string name)
  | .computed key => sub.eval key

/-- Evaluates what can be assigned to. -/
def locateNode (target : NodeId) : Run Location := do
  match ← nodeAt env target with
  | .ident name => return .name name
  | .member object key =>
    let object ← sub.eval object
    return .member object (← memberKey sub key)
  | _ => throw (env.fallbacks.notTarget (env.arena.span target))

def assignNode (op : AssignOp) (target value : NodeId) (span : Span) : Run Value := do
  let location ← locateNode env sub target
  let result ← assigned env.toEnvOf sub op location value span
  writeLocation location result span
  return result

/-- Steps a node once, behind all steps in front of it, and gives where it is, the number before and the
value after. There are fewer than `depth` steps inside of each other. -/
def stepNode (op : UpdateOp) (operand : NodeId) (span : Span) :
    Nat → Run (Location × Option Decimal × Value)
  | 0 => unfinished
  | depth + 1 => do
    let location ← do
      match ← nodeAt env operand with
      | .update op' _ operand' =>
        enter
        let stepped ← stepNode op' operand' (env.arena.span operand) depth
        pure stepped.1
      -- the innermost operand is the place, and it is evaluated once
      | _ => locateNode env sub operand
    return (location, ← stepLocation op location span)

/-! ## Calls -/

/-- Calls the function that a name stands for. -/
def callNodeName (name : String) (args : List Value) (span : Span) : Run Value :=
  match env.function? name with
  | some id => sub.call (id, span) args
  | none =>
    match Builtin.ofName? name with
    | some builtin => callBuiltin env.collaborators builtin args span
    | none => fail (.reference (.undefined name) span)

def methodName (key : MemberKey) : Run String :=
  match key with
  | .named name => pure name
  | .computed key => do display (← sub.eval key)

/-- Evaluates a call. Only names and members can be called; of anything else nothing is evaluated. -/
def evalCallNode (callee : NodeId) (arguments : List NodeId) (span : Span) : Run Value := do
  match ← nodeAt env callee with
  | .ident name =>
    let args ← evalAll sub arguments
    callNodeName env sub name args span
  | .member object key =>
    let receiver ← sub.eval object
    let method ← methodName sub key
    let args ← evalAll sub arguments
    callMethod receiver method args span
  | _ => fail (.reference (.undefined "<callee expression>") span)

/-- Binds the parameters of a function and runs its body. -/
def callNodeBody (f : FunctionNode) (args : List Value) : Run Value := do
  bindParams sub f.params args
  return (← sub.exec f.body).result

/-- Runs the function with a number on arguments. -/
def callNode (id : NodeId) (span : Span) (args : List Value) : Run Value := do
  enter
  match (← nodeAt env id).function? with
  | some f => inFrame (callNodeBody sub f args)
  | none => throw (env.fallbacks.notFunction span)

/-! ## Expressions -/

/-- `typeof` of a name that is not bound is answered without looking at the name. -/
def typeofNode (operand : NodeId) : Run Value := do
  match ← nodeAt env operand with
  | .ident name =>
    match ← lookup name with
    | some _ => unary .typeof (← sub.eval operand)
    | none => return .string "undefined"
  | _ => unary .typeof (← sub.eval operand)

def updateNode (op : UpdateOp) (before : Bool) (operand : NodeId) (span : Span) : Run Value := do
  -- numbers below a node are smaller than its own, so no run of steps is longer than the arena
  let (_, old, new) ← stepNode env sub op operand span env.arena.nodes.size
  return if before then new else .ofNumber? old

/-- The value of a node that has been entered as an expression; `span` is its range. -/
def nodeValue (node : Node) (span : Span) : Run Value :=
  match node with
  | .literal value => pure (.ofLiteral value)
  | .ident name => readName name span
  | .array elements => evalArray sub elements
  | .object entries => evalObject sub entries
  | .unary .typeof operand => typeofNode env sub operand
  | .unary op operand => do unary op (← sub.eval operand)
  | .update op before operand => updateNode env sub op before operand span
  | .binary op left right => do
    let left ← sub.eval left
    let right ← sub.eval right
    binary env.maxStringLength op left right
  | .logical op left right => evalLogical sub op left right
  | .assign op target value => assignNode env sub op target value span
  | .conditional test consequent alternate => do
    if (← sub.eval test).isTruthy then sub.eval consequent else sub.eval alternate
  | .sequence parts => evalSequence sub .undefined parts
  | .call callee arguments => evalCallNode env sub callee arguments span
  | .member object key => do
    let object ← sub.eval object
    getMember object (← memberKey sub key) span
  | _ => throw (env.fallbacks.notExpression span)

def evalNode (id : NodeId) : Run Value := do
  enter
  nodeValue env sub (← nodeAt env id) (env.arena.span id)

/-! ## Statements -/

/-- Does what a `for` loop does first, which is a declaration or an expression. -/
def startLoopNode (init : Option NodeId) : Run Unit :=
  match init with
  | none => pure ()
  | some id => do
    match ← nodeAt env id with
    | .declare _ => let _ ← sub.exec id
    | _ => let _ ← sub.eval id

/-- Runs the second of two statements, if there is one. -/
def otherwise (alternate : Option NodeId) : Run Completion :=
  match alternate with
  | some id => sub.exec id
  | none => pure .normal

/-- Runs a node that has been entered as a statement; an expression is evaluated by its number. -/
def nodeCompletion (id : NodeId) (node : Node) : Run Completion :=
  match node with
  | .declare declarators => do
    declare sub declarators
    return .normal
  | .block body | .program body => execBlock sub body
  | .branch test consequent alternate => do
    if (← sub.eval test).isTruthy then sub.exec consequent else otherwise sub alternate
  | .forLoop init test update body => do
    startLoopNode env sub init
    repeatLoop sub test update body sub.rounds
  | .whileLoop test body => repeatLoop sub (some test) none body sub.rounds
  | .breakLoop => pure .breakLoop
  | .continueLoop => pure .continueLoop
  | .returnValue argument => returned sub argument
  | .empty | .function _ => pure .normal
  | .expression e => do
    let _ ← sub.eval e
    return .normal
  -- an expression in the place of a statement
  | _ => do
    let _ ← sub.eval id
    return .normal

def execNode (id : NodeId) : Run Completion := do
  enter
  nodeCompletion env sub id (← nodeAt env id)

end Run

/-- Evaluation down to at most `levels` further levels. -/
def nodeEvaluators (env : NodeEnv) (level : Nat) : Nat → NodeEvaluators
  | 0 => ⟨fun _ => Run.unfinished, fun _ => Run.unfinished, fun _ _ => Run.unfinished, 0⟩
  | levels + 1 =>
    { eval := fun id s =>
        deepen level fun _ => Run.evalNode env (nodeEvaluators env (level + 1) levels) id s
      exec := fun id s =>
        deepen level fun _ => Run.execNode env (nodeEvaluators env (level + 1) levels) id s
      call := fun f args s => deepen level fun _ =>
        Run.callNode env (nodeEvaluators env (level + 1) levels) f.1 f.2 args s
      rounds := levels + 1 }

namespace Arena

/-- Functions by their names; of several with one name the last one counts. -/
def functionTable (functions : List (NodeId × FunctionNode)) : Std.TreeMap String NodeId :=
  functions.foldl (fun table f => table.insert f.2.name f.1) ∅

/-- The number of the function that a run starts with. -/
def entry (arena : Arena) (functions : List (NodeId × FunctionNode)) (start : NodeId) :
    Except Error NodeId :=
  let found :=
    -- zero is the program, which stands for its first function
    if start = 0 then functions.head?.map Prod.fst
    else arena.nodes[start]?.bind fun spanned => spanned.node.function?.map fun _ => start
  match found with
  | some id => .ok id
  | none => .error (.reference .notFunction (arena.span start))

/-- Runs the entry function of an arena, by `call`, and copies its result out. -/
def runBy (arena : Arena) (functions : List (NodeId × FunctionNode)) (context : RunContext)
    (call : NodeId × Span → List Value → Run Value) : Run Datum := do
  Run.bindIdentifiers context.identifiers
  let id ← Run.ofOutcome (arena.entry functions context.start)
  let args ← context.args.mapM Run.importDatum
  let v ← call (id, arena.span id) args
  Run.exportDatum v (arena.span id)

/-- Runs an arena, with what is done where it is not as it should be. -/
def runWith (arena : Arena) (fallbacks : Fallbacks) (context : RunContext) (limits : Limits)
    (collaborators : Collaborators) : Outcome :=
  match arena.functions with
  | .error _ => ⟨.error fallbacks.outside, 0, 0⟩
  | .ok functions =>
    let env : NodeEnv :=
      ⟨⟨functionTable functions, collaborators, limits.maxStringLength⟩, arena, fallbacks⟩
    let call := (nodeEvaluators env 0 (limits.stepBudget + 1)).call
    .ofResult (arena.runBy functions context call { meter := { limit := limits.stepBudget } })

def run (arena : Arena) (context : RunContext) (limits : Limits) (collaborators : Collaborators) :
    Outcome :=
  arena.runWith {} context limits collaborators

end Arena

/-- Reads and runs a source text with no context, the usual limits and no collaborators, and gives
the text of its result. -/
def interpret (source : String) : Except Halt String := do
  let arena ← Arena.parse source
  let d ← (arena.run {} {} {}).result
  return d.text

end MeteredScript
