namespace MeteredScript

/-! # Fixed-point decimals

A number is an integer scaled by `10 ^ 18`. Whatever does not fit into eighteen fraction digits is
cut off toward zero, never rounded, and division by zero has no result.
-/

/-- The number `raw / 10 ^ 18`. -/
structure Decimal where
  raw : Int
deriving DecidableEq, Repr, Inhabited

namespace Decimal

/-- How many fraction digits a number carries. -/
def fractionDigits : Nat := 18

/-- The scaled form of one. -/
def scale : Int := 1000000000000000000

/-- The integer `n` as a number. -/
def ofInt (n : Int) : Decimal := ⟨n * scale⟩

def zero : Decimal := ⟨0⟩

def one : Decimal := ⟨scale⟩

def isZero (a : Decimal) : Bool := a.raw = 0

/-- Whether there is no fraction. -/
def isInteger (a : Decimal) : Bool := a.raw.tmod scale = 0

/-- The integer part, cut off toward zero. -/
def trunc (a : Decimal) : Int := a.raw.tdiv scale

/-- How many bits it takes to write a natural number. -/
def bitLength (n : Nat) : Nat := if n = 0 then 0 else n.log2 + 1

/-- The size of a number as work is charged for it: 64-bit words of its scaled magnitude, rounded
up to at least one. -/
def words (a : Decimal) : Nat := bitLength a.raw.natAbs / 64 + 1

def neg (a : Decimal) : Decimal := ⟨-a.raw⟩

def add (a b : Decimal) : Decimal := ⟨a.raw + b.raw⟩

def sub (a b : Decimal) : Decimal := ⟨a.raw - b.raw⟩

/-- The product, cut off toward zero. -/
def mul (a b : Decimal) : Decimal := ⟨(a.raw * b.raw).tdiv scale⟩

/-- The quotient, cut off toward zero; none by zero. -/
def div? (a b : Decimal) : Option Decimal :=
  if b.isZero then none else some ⟨(a.raw * scale).tdiv b.raw⟩

/-- The remainder, with the sign of the dividend; none by zero. -/
def rem? (a b : Decimal) : Option Decimal :=
  if b.isZero then none else some ⟨a.raw.tmod b.raw⟩

def compare (a b : Decimal) : Ordering := Ord.compare a.raw b.raw

/-- The last `bits` bits of an integer, of which there are at most sixty-four. A remainder has the sign
of the dividend, so the modulus is added to it and a second remainder taken. -/
def wrapBits (value : Int) (bits : Nat) : UInt64 :=
  let modulus : Int := Int.ofNat (1 <<< bits)
  let wrapped := (value.tmod modulus + modulus).tmod modulus
  if 0 ≤ wrapped ∧ wrapped < UInt64.size then .ofNat wrapped.toNat else 0

/-- The integer part, wrapped into a signed 32-bit integer. -/
def toInt32 (a : Decimal) : Int32 := (wrapBits a.trunc 32).toUInt32.toInt32

/-- The integer part as a 64-bit word. -/
def toUInt64 (a : Decimal) : UInt64 := wrapBits a.trunc 64

end Decimal

end MeteredScript
