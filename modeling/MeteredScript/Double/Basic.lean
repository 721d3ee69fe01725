namespace MeteredScript

/-! # Doubles

Non-negative binary floating-point numbers with 53 bits of mantissa, computed exactly: every operation
takes the exact result and rounds it once, to the nearest double and to the even one of two equally
near. There is no infinity; a result that is too large is none.
-/

/-- The number `mantissa × 2 ^ exponent`. -/
structure Double where
  mantissa : Nat
  exponent : Int
deriving DecidableEq, Repr, Inhabited

namespace Double

/-- How many bits a mantissa has. -/
def precision : Nat := 53

def minExponent : Int := -1074

def maxExponent : Int := 971

def zero : Double := ⟨0, minExponent⟩

def isZero (x : Double) : Bool := x.mantissa == 0

/-- `2 ^ exponent` as a fraction: its numerator and its denominator. -/
def powerOfTwo (exponent : Int) : Nat × Nat :=
  (Nat.pow 2 exponent.toNat, Nat.pow 2 (-exponent).toNat)

/-- The integer nearest to a quotient, the even one of two equally near. -/
def roundQuotient (num den : Nat) : Nat :=
  let quotient := num / den
  let twice := 2 * (num % den)
  if twice < den then quotient
  else if den < twice then quotient + 1
  else quotient + quotient % 2

def inUnits (num den : Nat) (exponent : Int) : Nat × Nat :=
  let (up, down) := powerOfTwo exponent
  (num * down, den * up)

/-- The exponent at which the whole part of `num / den` fills the mantissa, as far as the smallest
exponent allows. -/
def exponentFor (num den : Nat) : Int :=
  let guess : Int := Nat.log2 num - Nat.log2 den - precision
  let (n, d) := inUnits num den guess
  max minExponent (if n / d < Nat.pow 2 precision then guess else guess + 1)

def ofRatio? (num den : Nat) : Option Double :=
  if num = 0 then some zero
  else
    let exponent := exponentFor num den
    let (n, d) := inUnits num den exponent
    let mantissa := roundQuotient n d
    let rounded : Double :=
      if mantissa < Nat.pow 2 precision then ⟨mantissa, exponent⟩ else ⟨mantissa / 2, exponent + 1⟩
    if rounded.exponent ≤ maxExponent then some rounded else none

/-- The double nearest to a natural number. -/
def ofNat? (n : Nat) : Option Double := ofRatio? n 1

/-- The double nearest to the product. -/
def mul? (x y : Double) : Option Double :=
  let (up, down) := powerOfTwo (x.exponent + y.exponent)
  ofRatio? (x.mantissa * y.mantissa * up) down

/-- The double nearest to the quotient. -/
def div? (x y : Double) : Option Double :=
  if y.isZero then none
  else
    let (up, down) := powerOfTwo (x.exponent - y.exponent)
    ofRatio? (x.mantissa * up) (y.mantissa * down)

end Double

end MeteredScript
