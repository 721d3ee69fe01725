import MeteredScript.Decimal.Power
import MeteredScript.Eval.State

namespace MeteredScript

/-! # Operators on values

Arithmetic is paid for by the size of its operands before it is done; comparisons are free. Operands
are turned into numbers where numbers are needed, and what has no number makes the result NaN.
-/

namespace Value

/-! ## Words -/

/-- A value as a signed 32-bit integer; NaN is zero. -/
def toInt32 (v : Value) : Except Crash Int32 := do
  return ((← v.toNumber).map Decimal.toInt32).getD 0

/-- A value as a 64-bit word; NaN is zero. -/
def toUInt64 (v : Value) : Except Crash UInt64 := do
  return ((← v.toNumber).map Decimal.toUInt64).getD 0

/-- A signed 32-bit integer as a value. -/
def ofInt32 (w : Int32) : Value := ofInt w.toInt

/-- By how many bits to shift: those of the last thirty-two bits that the mask has. -/
def shiftCount (v : Value) (mask : UInt32) : Except Crash UInt32 := do
  return (← v.toInt32).toUInt32 &&& mask

/-- The 32-bit integers of two values, put together; the first is read first. -/
def onInt32 (left : Value) (f : Int32 → Int32 → Int32) (right : Value) : Except Crash Value := do
  return ofInt32 (f (← left.toInt32) (← right.toInt32))

/-- A 32-bit integer, shifted. -/
def shiftInt32 (left : Value) (f : Int32 → Int32 → Int32) (right : Value) : Except Crash Value := do
  return ofInt32 (f (← left.toInt32) (← right.shiftCount 31).toInt32)

/-- A 64-bit word, shifted to the right without its sign. -/
def shiftUInt64 (left right : Value) : Except Crash Value := do
  let word ← left.toUInt64
  return ofInt (word >>> (← right.shiftCount 63).toUInt64).toNat

/-! ## Comparisons -/

/-- Equality without conversions. NaN equals nothing; arrays and objects equal only themselves. -/
def strictEquals : Value → Value → Bool
  | number a, number b => a = b
  | string a, string b => a = b
  | boolean a, boolean b => a = b
  | null, null => true
  | undefined, undefined => true
  | array a, array b => a = b
  | object a, object b => a = b
  | _, _ => false

/-- Equality of scalars after conversion to numbers. -/
def numberEquals (left right : Value) : Except Crash Bool := do
  match ← left.toNumbers right with
  | some (a, b) => return a = b
  | none => return false

/-- Equality with conversions, of values neither of which is an array or an object. -/
def scalarEquals (left right : Value) : Except Crash Bool :=
  match left, right with
  | null, null | null, undefined | undefined, null | undefined, undefined => .ok true
  | null, _ | undefined, _ | _, null | _, undefined => .ok false
  | nan, _ | _, nan => .ok false
  | string a, string b => .ok (a = b)
  | number a, number b => .ok (a = b)
  | boolean a, boolean b => .ok (a = b)
  | _, _ => numberEquals left right

def isContainer : Value → Bool
  | array _ | object _ => true
  | _ => false

/-- Equality with conversions. Of two arrays or objects each equals only itself; one of them
compares with anything else by its text, except with null, undefined and NaN. -/
def looseEquals (heap : Heap) (left right : Value) : Except Crash Bool :=
  match left.isContainer, right.isContainer with
  | true, true => .ok (strictEquals left right)
  | true, false => scalarEquals (string (heap.display left)) right
  | false, true => scalarEquals (string (heap.display right)) left
  | false, false => scalarEquals left right

/-- The order of two values: of two strings by their bytes, of others as numbers. If the first is no
number, the second is not read. -/
def order (left right : Value) : Except Crash (Option Ordering) :=
  match left, right with
  | string a, string b => .ok (some (compare a b))
  | _, _ => do
    match ← left.toNumber with
    | none => return none
    | some a => return (← right.toNumber).map a.compare

def satisfies (heap : Heap) (op : Comparison) (left right : Value) : Except Crash Bool :=
  match op with
  | .eq => looseEquals heap left right
  | .ne => (looseEquals heap left right).map Bool.not
  | .strictEq => .ok (strictEquals left right)
  | .strictNe => .ok (!strictEquals left right)
  | .lt => (order left right).map (Option.any Ordering.isLT)
  | .gt => (order left right).map (Option.any Ordering.isGT)
  | .le => (order left right).map (Option.any Ordering.isLE)
  | .ge => (order left right).map (Option.any Ordering.isGE)

/-! ## One operand -/

/-- The result of an operator in front of a value. -/
def unary (op : UnaryOp) (v : Value) : Except Crash Value :=
  match op with
  | .plus => do return ofNumber? (← v.toNumber)
  | .minus => do return ofNumber? ((← v.toNumber).map Decimal.neg)
  | .not => .ok (boolean (!v.isTruthy))
  | .bitNot => do return ofInt32 (~~~(← v.toInt32))
  | .typeof => .ok (string v.typeName)
  | .void => .ok undefined

end Value

namespace Run

/-- The result of an operator in front of a value. -/
def unary (op : UnaryOp) (v : Value) : Run Value := orCrash (v.unary op)

/-! ## Two operands -/

/-- Computes with two numbers at a price. -/
def numeric (price : Decimal → Decimal → Nat) (f : Decimal → Decimal → Option Decimal)
    (left right : Value) : Run Value := do
  match ← orCrash (left.toNumbers right) with
  | some (a, b) =>
    charge (price a b)
    return .ofNumber? (f a b)
  | none => return .nan

/-- The price of sums: the words of the larger number. -/
def linearPrice (a b : Decimal) : Nat := max a.words b.words

/-- Whether `+` joins texts when it meets the value. -/
def isTextual : Value → Bool
  | .string _ | .array _ => true
  | _ => false

/-- Joins the texts of two values. -/
def concat (maxLength : Nat) (left right : Value) : Run Value := do
  let text := (← display left) ++ (← display right)
  let length := text.utf8ByteSize
  if maxLength < length then fail (.exhausted (.stringLength length maxLength))
  else do
    charge (1 + length / 64)
    return .string text

def isObject : Value → Bool
  | .object _ => true
  | _ => false

/-- The result of `+`: NaN with an object, joined texts with a string or an array, else the sum. -/
def add (maxLength : Nat) (left right : Value) : Run Value :=
  if isObject left || isObject right then pure .nan
  else if isTextual left || isTextual right then concat maxLength left right
  else numeric linearPrice (fun a b => some (a.add b)) left right

def exponentiate (left right : Value) : Run Value := do
  match ← orCrash (left.toNumbers right) with
  | some (base, exponent) => return .ofNumber? (← Decimal.power charge base exponent)
  | none => return .nan

/-- The result of an operator that computes. -/
def arith (maxLength : Nat) (op : ArithOp) (left right : Value) : Run Value :=
  match op with
  | .add => add maxLength left right
  | .sub => numeric linearPrice (fun a b => some (a.sub b)) left right
  | .mul => numeric Decimal.wordProduct (fun a b => some (a.mul b)) left right
  | .div => numeric Decimal.wordProduct Decimal.div? left right
  | .rem => numeric Decimal.wordProduct Decimal.rem? left right
  | .exp => exponentiate left right
  | .bitAnd => orCrash (left.onInt32 (· &&& ·) right)
  | .bitOr => orCrash (left.onInt32 (· ||| ·) right)
  | .bitXor => orCrash (left.onInt32 (· ^^^ ·) right)
  | .shl => orCrash (left.shiftInt32 (· <<< ·) right)
  | .shr => orCrash (left.shiftInt32 (· >>> ·) right)
  | .ushr => orCrash (left.shiftUInt64 right)

/-- What a comparison says about two values on the heap. -/
def comparison (op : Comparison) (left right : Value) : Run (Except Crash Bool) := do
  return Value.satisfies (← get).heap op left right

def satisfies (op : Comparison) (left right : Value) : Run Bool := do
  orCrash (← comparison op left right)

/-- The result of an operator between two values. -/
def binary (maxLength : Nat) (op : BinaryOp) (left right : Value) : Run Value :=
  match op with
  | .arith op => arith maxLength op left right
  | .compare op => do return .boolean (← satisfies op left right)

end Run

end MeteredScript
