import MeteredScript.Decimal.Text
import MeteredScript.Double.Shortest

namespace MeteredScript

/-! # Numbers in a JSON text

An integer of up to 64 bits stands for itself. Every other number is first a double and then the
decimal with the fewest digits that rounds to this double.
-/

open Text

/-- A number as it is written. Without a fraction or an exponent, these have no digits. -/
structure RawNumber where
  negative : Bool
  whole : List Char
  fraction : List Char
  exponent : Option Int
deriving DecidableEq, Repr, Inhabited

namespace RawNumber

/-! ## Spelling -/

/-- Digits without a superfluous zero in front, and what follows them. -/
def scanWhole? (cs : List Char) : Option (List Char × List Char) :=
  match cs with
  | '0' :: rest => if rest.head?.any isDigit then none else some (['0'], rest)
  | _ =>
    match cs.takeWhile isDigit with
    | [] => none
    | digits => some (digits, cs.dropWhile isDigit)

/-- The digits behind a point, if there is a point, and what follows them. -/
def scanFraction? (cs : List Char) : Option (List Char × List Char) :=
  match cs with
  | '.' :: rest =>
    match rest.takeWhile isDigit with
    | [] => none
    | digits => some (digits, rest.dropWhile isDigit)
  | _ => some ([], cs)

/-- Splits off the letter of an exponent. -/
def afterExponentMark? (cs : List Char) : Option (List Char) :=
  match cs with
  | 'e' :: rest | 'E' :: rest => some rest
  | _ => none

/-- An exponent, if there is the letter of one, and what follows it. -/
def scanExponent? (cs : List Char) : Option (Option Int × List Char) :=
  match afterExponentMark? cs with
  | none => some (none, cs)
  | some rest =>
    let (negative, unsigned) := Decimal.splitSign rest
    match unsigned.takeWhile isDigit with
    | [] => none
    | digits =>
      let value : Int := decimalValue digits
      some (some (if negative then -value else value), unsigned.dropWhile isDigit)

/-- The number at the front of a text, and what follows it. -/
def scan? (cs : List Char) : Option (RawNumber × List Char) := do
  let (negative, unsigned) :=
    match cs with
    | '-' :: rest => (true, rest)
    | _ => (false, cs)
  let (whole, rest) ← scanWhole? unsigned
  let (fraction, rest) ← scanFraction? rest
  let (exponent, rest) ← scanExponent? rest
  return (⟨negative, whole, fraction, exponent⟩, rest)

/-! ## Value -/

/-- The largest natural number of 64 bits. -/
def maxSignificand : Nat := Nat.pow 2 64 - 1

/-- Appends digits to a number as long as it stays within 64 bits. The second part is what is left
over of the digits. -/
def appendDigits (significand : Nat) : List Char → Nat × List Char
  | [] => (significand, [])
  | c :: rest =>
    let next := significand * 10 + (c.toNat - '0'.toNat)
    if next ≤ maxSignificand then appendDigits next rest else (significand, c :: rest)

/-- The value of an integer of 64 bits. Minus zero is not among them. -/
def integer? (n : RawNumber) : Option Int :=
  if n.fraction ≠ [] ∨ n.exponent ≠ none then none
  else
    let value := decimalValue n.whole
    if n.negative then (if 0 < value ∧ value ≤ Nat.pow 2 63 then some (-value) else none)
    else if value ≤ maxSignificand then some value
    else none

/-- The leading digits of a number as an integer of 64 bits, with the power of ten it is multiplied
by. Digits that do not fit are dropped. -/
def significand (n : RawNumber) : Scientific :=
  let (whole, dropped) := appendDigits 0 n.whole
  let (all, ignored) := appendDigits whole n.fraction
  let places : Int := n.fraction.length - ignored.length
  ⟨all, dropped.length - places + n.exponent.getD 0⟩

/-- The largest power of ten that is a double. -/
def maxTenPower : Nat := 308

/-- Divides by the largest power of ten until at most this power is left of `10 ^ exponent`. Zero
stays zero, and every double is zero after three such steps. -/
def divideStepwise? (x : Double) (exponent : Nat) : Nat → Option (Double × Nat)
  | 0 => some (x, exponent)
  | steps + 1 =>
    if exponent ≤ maxTenPower then some (x, exponent)
    else do
      let power ← Double.ofNat? (Nat.pow 10 maxTenPower)
      divideStepwise? (← x.div? power) (exponent - maxTenPower) steps

/-- The double that a number is read as, up to its sign: the double nearest to the significand, times
or divided by the double nearest to the power of ten. -/
def double? (n : RawNumber) : Option Double := do
  let ⟨digits, exponent⟩ := n.significand
  let x ← Double.ofNat? digits
  if x.isZero then return x
  else if 0 ≤ exponent then
    if exponent ≤ maxTenPower then x.mul? (← Double.ofNat? (Nat.pow 10 exponent.toNat)) else none
  else
    let (x, left) ← divideStepwise? x (-exponent).toNat 3
    if x.isZero then return x else x.div? (← Double.ofNat? (Nat.pow 10 left))

/-- The value of a number; there is none when it is too large for a double. -/
def decimal? (n : RawNumber) : Option Decimal :=
  match n.integer? with
  | some value => some (.ofInt value)
  | none => do
    let ⟨digits, exponent⟩ := (← n.double?).shortest
    let magnitude ← Decimal.ofParts? (decimalDigits digits) [] (.ofInt exponent)
    return if n.negative then magnitude.neg else magnitude

end RawNumber

end MeteredScript
