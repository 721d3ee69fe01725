import MeteredScript.Decimal.Basic
import MeteredScript.Meter

namespace MeteredScript.Decimal

/-! # Integer powers

Powers are computed by squaring. Each multiplication is paid for before it happens, so that a payer
who refuses stops the growth early.
-/

variable {m : Type → Type} [Monad m]

/-- The price of a product: the words of one factor times the words of the other. -/
def wordProduct (a b : Decimal) : Nat := saturate (a.words * b.words)

/-- Multiplies `acc` by the base if the last binary digit of the count is a one. -/
def powerDigit (charge : Nat → m Unit) (count : Nat) (base acc : Decimal) : m Decimal :=
  if count % 2 = 1 then do
    charge (wordProduct acc base)
    pure (acc.mul base)
  else pure acc

/-- Multiplies `acc` by `base ^ count`, squaring the base once per binary digit of the count. -/
def powerLoop (charge : Nat → m Unit) (count : Nat) (base acc : Decimal) : m Decimal :=
  if count = 0 then pure acc
  else do
    let acc ← powerDigit charge count base acc
    if count / 2 = 0 then pure acc
    else do
      charge (wordProduct base base)
      powerLoop charge (count / 2) (base.mul base) acc
termination_by count

/-- The power `base ^ exponent`. There is none for a fractional exponent, for an exponent of more
than 64 bits, and for a negative exponent whose power is zero. A negative exponent costs one more
charge, for the division. -/
def power (charge : Nat → m Unit) (base exponent : Decimal) : m (Option Decimal) :=
  if !exponent.isInteger then pure none
  else
    let n := exponent.trunc
    if n.natAbs > maxUnits then pure none
    else do
      let acc ← powerLoop charge n.natAbs base one
      if n < 0 then do
        charge acc.words
        pure (one.div? acc)
      else pure (some acc)

end MeteredScript.Decimal
