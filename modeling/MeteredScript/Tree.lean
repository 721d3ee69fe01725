import MeteredScript.Decimal.Basic
import MeteredScript.Operator
import MeteredScript.Span

namespace MeteredScript

/-! # Program trees

A program is a list of functions and statements; statements hold expressions. Every part carries the
source range it was read from.
-/

/-- A value written out in the source. -/
inductive Literal where
  | number (value : Decimal)
  | string (value : String)
  | boolean (value : Bool)
  | null
  | undefined
deriving DecidableEq, Repr, Inhabited

mutual

/-- An expression. -/
inductive Expr where
  | literal (value : Literal) (span : Span)
  /-- Reading a place. -/
  | place (place : Place)
  | array (elements : List Expr) (span : Span)
  /-- Keys may repeat. -/
  | object (entries : List (String × Expr)) (span : Span)
  | unary (op : UnaryOp) (operand : Expr) (span : Span)
  /-- A run of `++` and `--` in front of one place. `op` and `span` are those of the outermost step,
  which covers the whole; `inner` are the steps behind it, outer ones first. -/
  | updateBefore (op : UpdateOp) (span : Span) (inner : List (UpdateOp × Span)) (target : Place)
  | updateAfter (op : UpdateOp) (target : Place) (span : Span)
  | binary (op : BinaryOp) (left right : Expr) (span : Span)
  | logical (op : LogicalOp) (left right : Expr) (span : Span)
  | assign (op : AssignOp) (target : Place) (value : Expr) (span : Span)
  | conditional (test consequent alternate : Expr) (span : Span)
  /-- Expressions separated by commas; the last one gives the value. -/
  | sequence (parts : List Expr) (span : Span)
  | call (callee : Expr) (arguments : List Expr) (span : Span)

/-- What can be read and assigned to. -/
inductive Place where
  | ident (name : String) (span : Span)
  /-- `object.name` -/
  | member (object : Expr) (name : String) (span : Span)
  /-- `object[key]` -/
  | index (object key : Expr) (span : Span)

end

instance : Inhabited Expr := ⟨.literal .undefined {}⟩
instance : Inhabited Place := ⟨.ident "" {}⟩

/-- One name of a declaration with its initial value, an expression `ε`. -/
structure DeclaratorOf (ε : Type) where
  name : String
  init : Option ε
deriving DecidableEq, Repr, Inhabited

abbrev Declarator := DeclaratorOf Expr

/-- What a `for` loop does first. -/
inductive ForInit where
  | declare (declarators : List Declarator) (span : Span)
  | evaluate (expr : Expr)
deriving Inhabited

/-- A statement. -/
inductive Stmt where
  | declare (declarators : List Declarator) (span : Span)
  | block (body : List Stmt) (span : Span)
  | ifThen (test : Expr) (consequent : Stmt) (span : Span)
  | ifElse (test : Expr) (consequent alternate : Stmt) (span : Span)
  | forLoop (init : Option ForInit) (test update : Option Expr) (body : Stmt) (span : Span)
  | whileLoop (test : Expr) (body : Stmt) (span : Span)
  | breakLoop (span : Span)
  | continueLoop (span : Span)
  | returnValue (argument : Option Expr) (span : Span)
  | empty (span : Span)
  | expression (expr : Expr) (span : Span)

instance : Inhabited Stmt := ⟨.empty {}⟩

/-- A parameter with the expression `ε` that stands in for a missing argument. -/
structure ParamOf (ε : Type) where
  name : String
  fallback : Option ε
deriving DecidableEq, Repr, Inhabited

abbrev Param := ParamOf Expr

/-- A function; `bodySpan` is the range of the braces and what is between them. -/
structure Function where
  name : String
  params : List Param
  body : List Stmt
  bodySpan : Span
  span : Span
deriving Inhabited

/-- What stands at the top level of a program. -/
inductive Item where
  | function (function : Function)
  | statement (statement : Stmt)
deriving Inhabited

/-- A program. -/
structure Program where
  items : List Item
  span : Span
deriving Inhabited

def Place.span : Place → Span
  | ident _ span => span
  | member _ _ span => span
  | index _ _ span => span

def Expr.span : Expr → Span
  | literal _ span => span
  | place p => p.span
  | array _ span => span
  | object _ span => span
  | unary _ _ span => span
  | updateBefore _ span _ _ => span
  | updateAfter _ _ span => span
  | binary _ _ _ span => span
  | logical _ _ _ span => span
  | assign _ _ _ span => span
  | conditional _ _ _ span => span
  | sequence _ span => span
  | call _ _ span => span

/-- The functions of a program, in source order. -/
def Program.functions (program : Program) : List Function :=
  program.items.filterMap fun
    | .function f => some f
    | .statement _ => none

end MeteredScript
