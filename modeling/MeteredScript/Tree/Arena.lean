import MeteredScript.Error
import MeteredScript.Tree.NodeTable

namespace MeteredScript

/-! # Arenas

All nodes of a program in one array. A node refers to the nodes below it by their numbers, and nothing
in the array says that a number is that of a node, or that the node is of the kind that its place calls
for. Whoever follows a number that no node has crashes.
-/

/-- The number of a node, which is its position in the array. -/
abbrev NodeId := Nat

/-- What a member is called. -/
inductive MemberKey where
  /-- `object.name` -/
  | named (name : String)
  /-- `object[key]` -/
  | computed (key : NodeId)
deriving DecidableEq, Repr, Inhabited

/-- A function: its body is the number of a block. -/
structure FunctionNode where
  name : String
  params : List (ParamOf NodeId)
  body : NodeId
deriving DecidableEq, Repr, Inhabited

/-- A node. -/
inductive Node where
  | program (body : List NodeId)
  | function (f : FunctionNode)
  | declare (declarators : List (DeclaratorOf NodeId))
  | block (body : List NodeId)
  | branch (test consequent : NodeId) (alternate : Option NodeId)
  | forLoop (init test update : Option NodeId) (body : NodeId)
  | whileLoop (test body : NodeId)
  | breakLoop
  | continueLoop
  | returnValue (argument : Option NodeId)
  | empty
  | expression (expr : NodeId)
  | binary (op : BinaryOp) (left right : NodeId)
  | logical (op : LogicalOp) (left right : NodeId)
  | unary (op : UnaryOp) (operand : NodeId)
  /-- A `++` or `--` before or behind its operand. -/
  | update (op : UpdateOp) (before : Bool) (operand : NodeId)
  | assign (op : AssignOp) (target value : NodeId)
  | conditional (test consequent alternate : NodeId)
  | sequence (parts : List NodeId)
  | call (callee : NodeId) (arguments : List NodeId)
  | member (object : NodeId) (key : MemberKey)
  | array (elements : List NodeId)
  | object (entries : List (String × NodeId))
  | ident (name : String)
  | literal (value : Literal)
deriving DecidableEq, Repr, Inhabited

namespace Node

def function? : Node → Option FunctionNode
  | function f => some f
  | _ => none

/-- Whether a node can be assigned to. -/
def isAssignable : Node → Bool
  | ident _ | member _ _ => true
  | _ => false

/-- Whether a `++` or `--` can stand in front of a node. -/
def isSteppable : Node → Bool
  | update _ before _ => before
  | node => node.isAssignable

/-- What a node is, apart from the nodes below it. -/
def label : Node → Label
  | program _ => .program
  | function f => .function f.name (f.params.map fun p => (p.name, p.fallback.isSome))
  | declare declarators => .declare (declarators.map fun d => (d.name, d.init.isSome))
  | block _ => .block
  | branch _ _ _ => .branch
  | forLoop init test step _ => .forLoop init.isSome test.isSome step.isSome
  | whileLoop _ _ => .whileLoop
  | breakLoop => .breakLoop
  | continueLoop => .continueLoop
  | returnValue _ => .returnValue
  | empty => .empty
  | expression _ => .expression
  | binary op _ _ => .binary op
  | logical op _ _ => .logical op
  | unary op _ => .unary op
  | update op before _ => .update op before
  | assign op _ _ => .assign op
  | conditional _ _ _ => .conditional
  | sequence _ => .sequence
  | call _ _ => .call
  | member _ (.named name) => .member name
  | member _ (.computed _) => .index
  | array _ => .array
  | object entries => .object (entries.map Prod.fst)
  | ident name => .ident name
  | literal value => .literal value

/-- The numbers of the nodes below a node, in source order. -/
def children : Node → List NodeId
  | program body | block body => body
  | function f => f.params.filterMap ParamOf.fallback ++ [f.body]
  | declare declarators => declarators.filterMap DeclaratorOf.init
  | branch test consequent alternate => test :: consequent :: alternate.toList
  | forLoop init test step body => init.toList ++ test.toList ++ step.toList ++ [body]
  | whileLoop test body => [test, body]
  | breakLoop | continueLoop | empty | ident _ | literal _ => []
  | returnValue argument => argument.toList
  | expression e | unary _ e | update _ _ e => [e]
  | binary _ left right | logical _ left right => [left, right]
  | assign _ target value => [target, value]
  | conditional test consequent alternate => [test, consequent, alternate]
  | sequence parts => parts
  | call callee arguments => callee :: arguments
  | member e (.named _) => [e]
  | member e (.computed key) => [e, key]
  | array elements => elements
  | object entries => entries.map Prod.snd

end Node

/-- A node with the source range it was read from. -/
structure SpannedNode where
  node : Node
  span : Span
deriving DecidableEq, Repr, Inhabited

/-- The nodes of a program. -/
structure Arena where
  nodes : Array SpannedNode
deriving DecidableEq, Repr, Inhabited

namespace Arena

/-- The arena of a program without a body. -/
def start : Arena := ⟨#[⟨.program [], {}⟩]⟩

/-- Adds a node, and gives its number. -/
def push (arena : Arena) (node : Node) (span : Span) : NodeId × Arena :=
  (arena.nodes.size, ⟨arena.nodes.push ⟨node, span⟩⟩)

/-- Puts a node in the place of another. -/
def replace (arena : Arena) (id : NodeId) (node : Node) (span : Span) : Except Crash Arena :=
  if id < arena.nodes.size then .ok ⟨arena.nodes.setIfInBounds id ⟨node, span⟩⟩
    else .error .outsideArena

def node (arena : Arena) (id : NodeId) : Except Crash Node :=
  match arena.nodes[id]? with
  | some spanned => .ok spanned.node
  | none => .error .outsideArena

/-- The source range of the node with a number; an empty one if there is no such node. -/
def span (arena : Arena) (id : NodeId) : Span := (arena.nodes[id]?.map SpannedNode.span).getD {}

/-- The numbers directly below the program. -/
def body (arena : Arena) : Except Crash (List NodeId) := do
  match ← arena.node 0 with
  | .program body => return body
  | _ => return []

/-- The functions directly below the program with their numbers, in source order. -/
def functions (arena : Arena) : Except Crash (List (NodeId × FunctionNode)) := do
  let found ← (← arena.body).mapM fun id => do
    return (← arena.node id).function?.map fun f => (id, f)
  return found.filterMap id

/-- The labels of all nodes, with the numbers below them. -/
def table (arena : Arena) : NodeTable :=
  arena.nodes.map fun spanned => ⟨spanned.node.label, spanned.span, spanned.node.children⟩

end Arena

end MeteredScript
