import MeteredScript.Token
import MeteredScript.Tree

namespace MeteredScript

/-! # Infix operators and their precedence

An operator that binds tighter takes its operands first; equally tight ones take them from the left,
and `**` takes them from the right.
-/

/-- An operator between two operands. -/
inductive InfixOp where
  | binary (op : BinaryOp)
  | logical (op : LogicalOp)
deriving DecidableEq, Repr, Inhabited

namespace InfixOp

/-- How tight an operator binds; more is tighter. -/
def precedence : InfixOp → Nat
  | logical .or => 1
  | logical .and => 2
  | binary (.arith .bitOr) => 3
  | binary (.arith .bitXor) => 4
  | binary (.arith .bitAnd) => 5
  | binary (.compare op) =>
    match op with
    | .eq | .ne | .strictEq | .strictNe => 6
    | .lt | .gt | .le | .ge => 7
  | binary (.arith op) =>
    match op with
    | .shl | .shr | .ushr => 8
    | .add | .sub => 9
    | .exp => 11
    | _ => 10

/-- Whether operators that bind as tight as this one take their operands from the right. -/
def isRightAssociative (op : InfixOp) : Bool := op.precedence = 11

/-- How tight an operator has to bind to go with the right operand of this one. -/
def rightPrecedence (op : InfixOp) : Nat :=
  if op.isRightAssociative then op.precedence else op.precedence + 1

/-- The infix operator that a token stands for. -/
def ofToken? : Token → Option InfixOp
  | .sign (.binary op) => some (binary op)
  | .sign (.logical op) => some (logical op)
  | _ => none

/-- The expression that joins two operands. -/
def join (op : InfixOp) (left right : Expr) (span : Span) : Expr :=
  match op with
  | binary op => .binary op left right span
  | logical op => .logical op left right span

end InfixOp

end MeteredScript
