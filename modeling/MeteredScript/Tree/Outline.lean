import MeteredScript.Nesting
import MeteredScript.Tree

namespace MeteredScript

/-! # Outlines

The outline of a program is the same tree with one kind of node: a label, a source range and the
nodes below it in source order. What does not depend on the kind of a node, such as numbering all
nodes or listing them, is done on outlines.
-/

/-- What a node is, apart from the nodes below it. A flag next to a name, or in a `for` loop, says
whether there is a node for it. -/
inductive Label where
  | program
  | function (name : String) (params : List (String × Bool))
  | declare (names : List (String × Bool))
  | block
  | branch
  | forLoop (init test update : Bool)
  | whileLoop
  | breakLoop
  | continueLoop
  | returnValue
  | empty
  | expression
  | binary (op : BinaryOp)
  | logical (op : LogicalOp)
  | unary (op : UnaryOp)
  | update (op : UpdateOp) (before : Bool)
  | assign (op : AssignOp)
  | conditional
  | sequence
  | call
  | member (name : String)
  | index
  | array
  | object (keys : List String)
  | ident (name : String)
  | literal (value : Literal)
deriving DecidableEq, Repr, Inhabited

/-- A labelled tree. -/
inductive Outline where
  | node (label : Label) (span : Span) (children : List Outline)
deriving Inhabited

namespace Outline

def label : Outline → Label
  | node label _ _ => label

def span : Outline → Span
  | node _ span _ => span

def children : Outline → List Outline
  | node _ _ children => children

mutual

/-- All nodes of an outline, each before the nodes below it, in front of `rest`. -/
def preorderOnto (level : Nat) (rest : List Outline) : Outline → List Outline
  | node label span children =>
    deepen level fun _ => node label span children :: preorderAllOnto (level + 1) rest children

/-- All nodes of a list of outlines, in front of `rest`. -/
def preorderAllOnto (level : Nat) (rest : List Outline) : List Outline → List Outline
  | [] => rest
  | outline :: others => preorderOnto level (preorderAllOnto level rest others) outline

end

/-- All nodes of an outline, each before the nodes below it. -/
def preorder (outline : Outline) : List Outline := preorderOnto 0 [] outline

end Outline

/-- The outline of steps in front of a place; `target` is the outline of the place. -/
def updateOutline (op : UpdateOp) (span : Span) (target : Outline) : List (UpdateOp × Span) → Outline
  | [] => .node (.update op true) span [target]
  | (op', span') :: inner => .node (.update op true) span [updateOutline op' span' target inner]

mutual

def Expr.outline (level : Nat) (e : Expr) : Outline :=
  deepen level fun _ =>
    match e with
    | .literal value span => .node (.literal value) span []
    | .place p => p.outline (level + 1)
    | .array elements span => .node .array span (outlineAll (level + 1) elements)
    | .object entries span =>
      .node (.object (entries.map Prod.fst)) span (outlineEntries (level + 1) entries)
    | .unary op operand span => .node (.unary op) span [operand.outline (level + 1)]
    | .updateBefore op span inner target =>
      updateOutline op span (target.outline (level + 1)) inner
    | .updateAfter op target span => .node (.update op false) span [target.outline (level + 1)]
    | .binary op left right span =>
      .node (.binary op) span [left.outline (level + 1), right.outline (level + 1)]
    | .logical op left right span =>
      .node (.logical op) span [left.outline (level + 1), right.outline (level + 1)]
    | .assign op target value span =>
      .node (.assign op) span [target.outline (level + 1), value.outline (level + 1)]
    | .conditional test consequent alternate span =>
      .node .conditional span
        [test.outline (level + 1), consequent.outline (level + 1), alternate.outline (level + 1)]
    | .sequence parts span => .node .sequence span (outlineAll (level + 1) parts)
    | .call callee arguments span =>
      .node .call span (callee.outline (level + 1) :: outlineAll (level + 1) arguments)

def Place.outline (level : Nat) (p : Place) : Outline :=
  match p with
  | .ident name span => .node (.ident name) span []
  | .member object name span => .node (.member name) span [object.outline level]
  | .index object key span => .node .index span [object.outline level, key.outline level]

/-- The outlines of expressions. -/
def outlineAll (level : Nat) : List Expr → List Outline
  | [] => []
  | e :: es => e.outline level :: outlineAll level es

/-- The outlines of the values of an object's entries. -/
def outlineEntries (level : Nat) : List (String × Expr) → List Outline
  | [] => []
  | (_, e) :: es => e.outline level :: outlineEntries level es

end

/-- The outlines of an expression that may be absent. -/
def outlineOption (e : Option Expr) : List Outline :=
  (e.map (Expr.outline 0)).toList

def declareOutline (declarators : List Declarator) (span : Span) : Outline :=
  .node (.declare (declarators.map fun d => (d.name, d.init.isSome))) span
    (declarators.flatMap fun d => outlineOption d.init)

def ForInit.outline : ForInit → Outline
  | declare declarators span => declareOutline declarators span
  | evaluate e => e.outline 0

mutual

def Stmt.outline (level : Nat) (s : Stmt) : Outline :=
  deepen level fun _ =>
    match s with
    | .declare declarators span => declareOutline declarators span
    | .block body span => .node .block span (outlineStmts (level + 1) body)
    | .ifThen test consequent span =>
      .node .branch span [test.outline 0, consequent.outline (level + 1)]
    | .ifElse test consequent alternate span =>
      .node .branch span
        [test.outline 0, consequent.outline (level + 1), alternate.outline (level + 1)]
    | .forLoop init test update body span =>
      .node (.forLoop init.isSome test.isSome update.isSome) span
        ((init.map ForInit.outline).toList ++ outlineOption test ++ outlineOption update ++
          [body.outline (level + 1)])
    | .whileLoop test body span =>
      .node .whileLoop span [test.outline 0, body.outline (level + 1)]
    | .breakLoop span => .node .breakLoop span []
    | .continueLoop span => .node .continueLoop span []
    | .returnValue argument span => .node .returnValue span (outlineOption argument)
    | .empty span => .node .empty span []
    | .expression e span => .node .expression span [e.outline 0]

/-- The outlines of statements. -/
def outlineStmts (level : Nat) : List Stmt → List Outline
  | [] => []
  | s :: rest => s.outline level :: outlineStmts level rest

end

/-- The outline of a function: fallbacks of parameters, then the body. -/
def Function.outline (f : Function) : Outline :=
  .node (.function f.name (f.params.map fun p => (p.name, p.fallback.isSome))) f.span
    ((f.params.flatMap fun p => outlineOption p.fallback) ++
      [.node .block f.bodySpan (outlineStmts 0 f.body)])

/-- The outline of a part of the top level. -/
def Item.outline : Item → Outline
  | function f => f.outline
  | statement s => s.outline 0

def Program.outline (program : Program) : Outline :=
  .node .program program.span (program.items.map Item.outline)

end MeteredScript
