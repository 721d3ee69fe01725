import MeteredScript.Json.Basic
import MeteredScript.Token
import MeteredScript.Tree.NodeTable

namespace MeteredScript

/-! # Listings

Tokens and numbered nodes as JSON, for other tools to read.
-/

/-- A token with its place in the source. -/
def Lexeme.toJson (lexeme : Lexeme) : Json :=
  .object [("category", .string lexeme.token.category.name), ("raw", .string lexeme.token.text),
    ("line", .nat lexeme.line), ("start", .nat lexeme.span.start), ("end", .nat lexeme.span.stop)]

def ArithOp.name : ArithOp → String
  | add => "Add"
  | sub => "Sub"
  | mul => "Mul"
  | div => "Div"
  | rem => "Rem"
  | exp => "Exp"
  | bitAnd => "BitAnd"
  | bitOr => "BitOr"
  | bitXor => "BitXor"
  | shl => "Shl"
  | shr => "Shr"
  | ushr => "UShr"

def Comparison.name : Comparison → String
  | eq => "Eq"
  | ne => "Ne"
  | strictEq => "StrictEq"
  | strictNe => "StrictNe"
  | lt => "Lt"
  | gt => "Gt"
  | le => "Le"
  | ge => "Ge"

def BinaryOp.name : BinaryOp → String
  | arith op => op.name
  | compare op => op.name

def LogicalOp.name : LogicalOp → String
  | and => "And"
  | or => "Or"

def UnaryOp.name : UnaryOp → String
  | plus => "Plus"
  | minus => "Minus"
  | not => "Not"
  | bitNot => "BitNot"
  | typeof => "Typeof"
  | void => "Void"

def UpdateOp.name : UpdateOp → String
  | increment => "Increment"
  | decrement => "Decrement"

def AssignOp.toJson : AssignOp → Json
  | plain => .string "Assign"
  | compound op => .object [("Compound", .string op.name)]

def Literal.toJson : Literal → Json
  | number value => .object [("Number", .string value.text)]
  | string value => .object [("String", .string value)]
  | boolean value => .object [("Boolean", .bool value)]
  | null => .string "Null"
  | undefined => .string "Undefined"

/-- Gives the numbers to the flags that are set, in order. -/
def fillSlots : List Bool → List Nat → List Json
  | [], _ => []
  | false :: flags, numbers => .null :: fillSlots flags numbers
  | true :: flags, [] => .null :: fillSlots flags []
  | true :: flags, number :: numbers => .nat number :: fillSlots flags numbers

/-- Names with the node that belongs to each of them, under the member name `slot`. -/
def namedSlots (slot : String) (names : List (String × Bool)) (numbers : List Nat) : Json :=
  let slots := fillSlots (names.map Prod.snd) numbers
  .array ((names.zip slots).map fun (name, value) =>
    .object [("name", .string name.1), (slot, value)])

namespace NumberedNode

/-- The node below at a position. -/
def child (node : NumberedNode) (i : Nat) : Json := .option (node.children[i]?.map .nat)

/-- All nodes below. -/
def all (node : NumberedNode) : Json := .array (node.children.map .nat)

/-- What a node is, with the numbers of the nodes below it. -/
def shape (node : NumberedNode) : Json :=
  match node.label with
  | .program => .object [("Program", .object [("body", node.all)])]
  | .function name params =>
    let defaults := node.children.dropLast
    .object [("FunctionDecl", .object [("name", .string name),
      ("params", namedSlots "default" params defaults),
      ("body", .option (node.children.getLast?.map .nat))])]
  | .declare names =>
    .object [("VarDecl", .object [("declarations", namedSlots "init" names node.children)])]
  | .block => .object [("Block", .object [("body", node.all)])]
  | .branch =>
    .object [("If", .object [("test", node.child 0), ("consequent", node.child 1),
      ("alternate", node.child 2)])]
  | .forLoop init test update =>
    let slots := fillSlots [init, test, update, true] node.children
    .object [("For", .object (["init", "test", "update", "body"].zip slots))]
  | .whileLoop => .object [("While", .object [("test", node.child 0), ("body", node.child 1)])]
  | .breakLoop => .string "Break"
  | .continueLoop => .string "Continue"
  | .returnValue => .object [("Return", .object [("argument", node.child 0)])]
  | .empty => .string "Empty"
  | .expression => .object [("Expression", .object [("expression", node.child 0)])]
  | .binary op =>
    .object [("Binary", .object [("op", .string op.name), ("left", node.child 0),
      ("right", node.child 1)])]
  | .logical op =>
    .object [("Logical", .object [("op", .string op.name), ("left", node.child 0),
      ("right", node.child 1)])]
  | .unary op =>
    .object [("Unary", .object [("op", .string op.name), ("argument", node.child 0)])]
  | .update op before =>
    .object [("Update", .object [("op", .string op.name), ("prefix", .bool before),
      ("argument", node.child 0)])]
  | .assign op =>
    .object [("Assign", .object [("op", op.toJson), ("target", node.child 0),
      ("value", node.child 1)])]
  | .conditional =>
    .object [("Conditional", .object [("test", node.child 0), ("consequent", node.child 1),
      ("alternate", node.child 2)])]
  | .sequence => .object [("Sequence", .object [("expressions", node.all)])]
  | .call =>
    .object [("Call", .object [("callee", node.child 0),
      ("arguments", .array ((node.children.drop 1).map .nat))])]
  | .member name =>
    .object [("Member", .object [("object", node.child 0),
      ("property", .object [("Named", .string name)])])]
  | .index =>
    .object [("Member", .object [("object", node.child 0),
      ("property", .object [("Computed", node.child 1)])])]
  | .array => .object [("Array", .object [("elements", node.all)])]
  | .object keys =>
    .object [("Object", .object [("properties", .array ((keys.zip node.children).map
      fun (key, number) => .object [("key", .string key), ("value", .nat number)]))])]
  | .ident name => .object [("Identifier", .string name)]
  | .literal value => .object [("Literal", value.toJson)]

/-- A node with its source range. -/
def toJson (node : NumberedNode) : Json :=
  .object [("node", node.shape),
    ("span", .object [("start", .nat node.span.start), ("end", .nat node.span.stop)])]

end NumberedNode

/-- All nodes, in the order of their numbers. -/
def NodeTable.toJson (table : NodeTable) : Json :=
  .object [("nodes", .array (table.toList.map NumberedNode.toJson))]

/-- An operator that occurs in a program. For an assignment that computes, `underlying` is what it
computes with. -/
structure OperatorUse where
  number : Nat
  text : String
  underlying : Option String
  span : Span
deriving DecidableEq, Repr, Inhabited

/-- The operator of a node: how it is spelled, and what an assignment computes with. -/
def Label.operator? : Label → Option (String × Option String)
  | .binary op => some (op.text, none)
  | .logical op => some (op.text, none)
  | .unary op => some (op.text, none)
  | .update op _ => some (op.text, none)
  | .assign .plain => some (AssignOp.plain.text, none)
  | .assign (.compound op) => some ((AssignOp.compound op).text, some op.text)
  | _ => none

/-- The operators of a program, in the order of their nodes' numbers. -/
def NodeTable.operators (table : NodeTable) : List OperatorUse :=
  table.toList.zipIdx.filterMap fun (node, number) =>
    node.label.operator?.map fun (text, underlying) => ⟨number, text, underlying, node.span⟩

end MeteredScript
