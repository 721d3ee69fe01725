import MeteredScript.Double.Basic

namespace MeteredScript

/-! # Shortest decimal digits

The decimal number with the fewest digits that rounds to a given double; of several, the one nearest
to the double.
-/

/-- The number `digits × 10 ^ exponent`. -/
structure Scientific where
  digits : Nat
  exponent : Int
deriving DecidableEq, Repr, Inhabited

namespace Double

/-- The numbers that round to a double: everything between `low` and `high`, in units of a quarter of
the double's own unit. The ends belong to it if `closed`. -/
structure Neighbourhood where
  low : Nat
  centre : Nat
  high : Nat
  closed : Bool

/-- What rounds to a double. Below a power of two the doubles are twice as dense, so that the lower
half is narrower there; a tie goes to the even mantissa, so that the ends belong to it. -/
def neighbourhood (x : Double) : Neighbourhood :=
  let narrow := x.mantissa = Nat.pow 2 (precision - 1) ∧ minExponent < x.exponent
  { low := 4 * x.mantissa - (if narrow then 1 else 2)
    centre := 4 * x.mantissa
    high := 4 * x.mantissa + 2
    closed := x.mantissa % 2 = 0 }

/-- Of the multiples of `10 ^ exponent` that round to a double, the one nearest to it; of two equally
near, the even one. -/
def nearestMultiple? (x : Double) (exponent : Int) : Option Scientific :=
  let around := x.neighbourhood
  let (up, down) := powerOfTwo (x.exponent - 2)
  let unit := down * Nat.pow 10 exponent.toNat
  let scale := up * Nat.pow 10 (-exponent).toNat
  -- the two multiples around the double are `below` and the next one
  let below := around.centre * scale / unit
  let within := fun (a b : Nat) => if around.closed then a ≤ b else a < b
  let belowFits : Bool := within (around.low * scale) (below * unit)
  let aboveFits : Bool := within ((below + 1) * unit) (around.high * scale)
  let twice := 2 * (around.centre * scale - below * unit)
  match belowFits, aboveFits with
  | true, true =>
    if twice < unit then some ⟨below, exponent⟩
    else if unit < twice then some ⟨below + 1, exponent⟩
    else some ⟨below + below % 2, exponent⟩
  | true, false => some ⟨below, exponent⟩
  | false, true => some ⟨below + 1, exponent⟩
  | false, false => none

/-- The exponent of a power of ten that exceeds all that rounds to a double. A power of two has fewer
than `0.30103` decimal digits for each of its bits. -/
def tenExponentAbove (x : Double) : Int := (Nat.log2 x.mantissa + 2 + x.exponent) * 30103 / 100000 + 1

/-- How many powers of ten to try. Seventeen digits are always enough, and the first powers are too
large to count as digits. -/
def tenExponents : Nat := 22

/-- The decimal number with the fewest digits that rounds to the double. -/
def shortest (x : Double) : Scientific :=
  if x.isZero then ⟨0, 0⟩
  else
    let found? := (List.range tenExponents).findSome? fun (i : Nat) =>
      x.nearestMultiple? (x.tenExponentAbove - i)
    found?.getD ⟨0, 0⟩

end Double

end MeteredScript
