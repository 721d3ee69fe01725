import MeteredScript.Decimal.Text
import MeteredScript.Tree

namespace MeteredScript

/-! # Values

What expressions evaluate to. Arrays and objects are known by their position on the heap of a run,
so that copies of such a value refer to the same contents.
-/

/-- A value of a running program. -/
inductive Value where
  | number (value : Decimal)
  | nan
  | string (value : String)
  | boolean (value : Bool)
  | null
  | undefined
  | array (handle : Nat)
  | object (handle : Nat)
deriving DecidableEq, Repr, Inhabited

namespace Value

def ofLiteral : Literal → Value
  | .number value => number value
  | .string value => string value
  | .boolean value => boolean value
  | .null => null
  | .undefined => undefined

def ofNumber? : Option Decimal → Value
  | some value => number value
  | none => nan

def ofInt (n : Int) : Value := number (.ofInt n)

/-- The name of the kind of value; NaN is a kind of its own. -/
def kind : Value → String
  | number _ => "number"
  | nan => "nan"
  | string _ => "string"
  | boolean _ => "boolean"
  | null => "null"
  | undefined => "undefined"
  | array _ => "array"
  | object _ => "object"

/-- What `typeof` answers. -/
def typeName : Value → String
  | number _ | nan => "number"
  | string _ => "string"
  | boolean _ => "boolean"
  | undefined => "undefined"
  | null | array _ | object _ => "object"

/-- Whether a value counts as yes. -/
def isTruthy : Value → Bool
  | number value => !value.isZero
  | string value => !value.isEmpty
  | boolean value => value
  | nan | null | undefined => false
  | array _ | object _ => true

/-- The number a value stands for; none is NaN. Reading a text may crash. -/
def toNumber : Value → Except Crash (Option Decimal)
  | number value => .ok (some value)
  | string value => Decimal.parse value
  | boolean value => .ok (some (if value then .one else .zero))
  | null => .ok (some .zero)
  | nan | undefined | array _ | object _ => .ok none

/-- The numbers two values stand for, if both do; the first is read first. -/
def toNumbers (left right : Value) : Except Crash (Option (Decimal × Decimal)) := do
  let a? ← left.toNumber
  let b? ← right.toNumber
  match a?, b? with
  | some a, some b => return some (a, b)
  | _, _ => return none

end Value

end MeteredScript
