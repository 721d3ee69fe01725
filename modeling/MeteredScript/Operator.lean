namespace MeteredScript

/-! # Operators

The operators of the language and how they are spelled in a source text.
-/

/-- Operators that compute a value and can be combined with an assignment. -/
inductive ArithOp where
  | add | sub | mul | div | rem | exp
  | bitAnd | bitOr | bitXor
  | shl | shr | ushr
deriving DecidableEq, Repr, Inhabited

/-- Operators that answer yes or no. -/
inductive Comparison where
  | eq | ne | strictEq | strictNe
  | lt | gt | le | ge
deriving DecidableEq, Repr, Inhabited

/-- Operators that evaluate both operands. -/
inductive BinaryOp where
  | arith (op : ArithOp)
  | compare (op : Comparison)
deriving DecidableEq, Repr, Inhabited

/-- Operators that may leave their second operand alone. -/
inductive LogicalOp where
  | and | or
deriving DecidableEq, Repr, Inhabited

/-- Operators in front of one operand. -/
inductive UnaryOp where
  | plus | minus | not | bitNot | typeof | void
deriving DecidableEq, Repr, Inhabited

/-- Stepping a place up or down by one. -/
inductive UpdateOp where
  | increment | decrement
deriving DecidableEq, Repr, Inhabited

/-- Plain assignment, or assignment of the result of an operator. -/
inductive AssignOp where
  | plain
  | compound (op : ArithOp)
deriving DecidableEq, Repr, Inhabited

def ArithOp.text : ArithOp → String
  | add => "+"
  | sub => "-"
  | mul => "*"
  | div => "/"
  | rem => "%"
  | exp => "**"
  | bitAnd => "&"
  | bitOr => "|"
  | bitXor => "^"
  | shl => "<<"
  | shr => ">>"
  | ushr => ">>>"

def Comparison.text : Comparison → String
  | eq => "=="
  | ne => "!="
  | strictEq => "==="
  | strictNe => "!=="
  | lt => "<"
  | gt => ">"
  | le => "<="
  | ge => ">="

def BinaryOp.text : BinaryOp → String
  | arith op => op.text
  | compare op => op.text

def LogicalOp.text : LogicalOp → String
  | and => "&&"
  | or => "||"

def UnaryOp.text : UnaryOp → String
  | plus => "+"
  | minus => "-"
  | not => "!"
  | bitNot => "~"
  | typeof => "typeof"
  | void => "void"

def UpdateOp.text : UpdateOp → String
  | increment => "++"
  | decrement => "--"

def AssignOp.text : AssignOp → String
  | plain => "="
  | compound op => op.text ++ "="

def ArithOp.all : List ArithOp :=
  [add, sub, mul, div, rem, exp, bitAnd, bitOr, bitXor, shl, shr, ushr]

def Comparison.all : List Comparison :=
  [eq, ne, strictEq, strictNe, lt, gt, le, ge]

end MeteredScript
