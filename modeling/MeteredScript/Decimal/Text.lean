import MeteredScript.Crash
import MeteredScript.Decimal.Basic
import MeteredScript.Text.Blank
import MeteredScript.Text.Digits

namespace MeteredScript.Decimal

/-! # Decimal text

The canonical text of a number has no exponent, no superfluous zeros and no `-0`. Reading accepts
more: an exponent, radix letters after a leading `0`, and octal digits after a leading `0`. A text in
which a character beyond ASCII follows a leading `0` is cut inside this character, which is a crash.
-/

open Text

/-! ## Writing -/

/-- The eighteen digits of a fraction without the zeros at its end. -/
def fractionChars (fraction : Nat) : List Char :=
  let digits := decimalDigits fraction
  let padded := List.replicate (fractionDigits - digits.length) '0' ++ digits
  (padded.reverse.dropWhile (· = '0')).reverse

/-- The canonical text, as characters. -/
def toChars (a : Decimal) : List Char :=
  let magnitude := a.raw.natAbs
  let whole := magnitude / scale.toNat
  let fraction := magnitude % scale.toNat
  let sign := if a.raw < 0 then ['-'] else []
  let tail := if fraction = 0 then [] else '.' :: fractionChars fraction
  sign ++ decimalDigits whole ++ tail

/-- The canonical text of a number. -/
def text (a : Decimal) : String := String.ofList a.toChars

/-! ## Reading -/

/-- Exponents beyond this magnitude are refused. -/
def maxExponent : Int64 := 1024

/-- A power of ten; of the exponent, the last thirty-two bits count. -/
def powerOfTen (exponent : Int64) : Nat := Nat.pow 10 exponent.toUInt64.toUInt32.toNat

/-- The number `whole.fraction × 10 ^ exponent`, cut off at the eighteenth fraction digit. Missing
digits count as zero; there is none when the exponent is too large or the digits are no number. The
arithmetic on exponents is that of 64-bit words, in which the least has no absolute value. -/
def ofParts? (whole fraction : List Char) (exponent : Int64) : Option Decimal :=
  if maxExponent < exponent.abs then none
  else
    let digits := whole ++ fraction
    let mantissa? := if digits.isEmpty then some 0 else integer? 10 digits
    mantissa?.map fun mantissa =>
      let shift := Int64.ofNat fractionDigits + exponent - Int64.ofNat fraction.length
      if 0 ≤ shift then ⟨mantissa * powerOfTen shift⟩
      -- fewer digits than are to be taken away
      else if Int64.ofNat digits.length < -shift then zero
      else ⟨mantissa.tdiv (powerOfTen (-shift))⟩

/-- The integer with the given digits in a radix. -/
def ofRadix? (radix : Nat) (digits : List Char) : Option Decimal :=
  (integer? radix digits).map ofInt

/-- Whether a text is a `0` followed by one or more octal digits and nothing else. -/
def isLeadingZeroOctal (cs : List Char) : Bool :=
  match cs with
  | '0' :: rest => !rest.isEmpty && rest.all isOctalDigit
  | _ => false

/-- Splits off one leading sign; `true` stands for `-`. -/
def splitSign (cs : List Char) : Bool × List Char :=
  match cs with
  | '-' :: rest => (true, rest)
  | '+' :: rest => (false, rest)
  | _ => (false, cs)

/-- Splits a text at its first exponent letter. The second part is what follows the letter. -/
def splitExponent (cs : List Char) : List Char × Option (List Char) :=
  let isMark := fun c => c = 'e' ∨ c = 'E'
  let mantissa := cs.takeWhile fun c => !isMark c
  match cs.dropWhile fun c => !isMark c with
  | [] => (mantissa, none)
  | _ :: exponent => (mantissa, some exponent)

/-- Splits a text at its first point; without one the second part is empty. -/
def splitPoint (cs : List Char) : List Char × List Char :=
  (cs.takeWhile (· ≠ '.'), (cs.dropWhile (· ≠ '.')).drop 1)

/-- The value of an exponent: decimal digits after at most one sign, if it fits into a 64-bit word. -/
def readExponent? (cs : List Char) : Option Int64 :=
  let (negative, digits) := splitSign cs
  if digits.isEmpty || !digits.all isDigit then none
  else
    let magnitude : Int := decimalValue digits
    let value := if negative then -magnitude else magnitude
    if Int64.minValue.toInt ≤ value ∧ value ≤ Int64.maxValue.toInt then some (.ofInt value) else none

/-- A decimal without a sign: digits with an optional point and an optional exponent. -/
def readUnsigned? (cs : List Char) : Option Decimal := do
  let (mantissa, exponentChars?) := splitExponent cs
  let exponent ←
    match exponentChars? with
    | none => some 0
    | some chars => readExponent? chars
  let (whole, fraction) := splitPoint mantissa
  if whole.isEmpty && fraction.isEmpty then none
  else if !(whole.all isDigit && fraction.all isDigit) then none
  else ofParts? whole fraction exponent

/-- Reads a decimal with an optional sign, or octal digits behind a leading `0`. -/
def readDecimal? (cs : List Char) : Option Decimal :=
  if isLeadingZeroOctal cs then ofRadix? 8 (cs.drop 1)
  else
    let (negative, unsigned) := splitSign cs
    (readUnsigned? unsigned).map fun a => if negative then a.neg else a

/-- What is behind the first `n` bytes of a text. It is taken for granted that a character ends
there. -/
def dropBytes (n : Nat) (cs : List Char) : Except Crash (List Char) :=
  match n, cs with
  | 0, cs => .ok cs
  | _, [] => .ok []
  | n, c :: cs => if c.utf8Size ≤ n then dropBytes (n - c.utf8Size) cs else .error .insideCharacter

/-- Reads trimmed, non-empty text. Behind a leading `0` the digits of a radix are looked for before it
is known whether a radix letter is in front of them. -/
def readTrimmed (cs : List Char) : Except Crash (Option Decimal) :=
  match cs with
  | '0' :: letter :: _ => do
    let body ← dropBytes 2 cs
    match letter with
    | 'x' | 'X' => return ofRadix? 16 body
    | 'o' | 'O' => return ofRadix? 8 body
    | 'b' | 'B' => return ofRadix? 2 body
    | _ => return readDecimal? cs
  | _ => return readDecimal? cs

/-- The number a text stands for when it is used as one. White space around it is ignored and blank
text is zero. -/
def ofChars (cs : List Char) : Except Crash (Option Decimal) :=
  match trim cs with
  | [] => .ok (some zero)
  | trimmed => readTrimmed trimmed

/-- Whether a text that stands for a number can start with the character. -/
def canStart (c : Char) : Bool := isDigit c || c = '.' || c = '+' || c = '-' || isBlank c

/-- The number a text stands for when it is used as one. Blank texts, and most of those that stand
for no number, are known without taking them apart. -/
def parse (text : String) : Except Crash (Option Decimal) :=
  if text.all isBlank then .ok (some zero)
  else if text.front?.all canStart then ofChars text.toList
  else .ok none

theorem ofChars_eq_zero {cs : List Char} (hblank : cs.all isBlank) :
    ofChars cs = .ok (some zero) := by
  have hdrop : cs.dropWhile isBlank = [] := by
    induction cs with
    | nil => rfl
    | cons c cs ih =>
      simp only [List.all_cons, Bool.and_eq_true] at hblank
      rw [List.dropWhile_cons_of_pos hblank.1, ih hblank.2]
  rw [ofChars, trim, hdrop]
  rfl

theorem readUnsigned?_eq_none {c : Char} (hdigit : isDigit c = false) (hpoint : c ≠ '.')
    (cs : List Char) : readUnsigned? (c :: cs) = none := by
  by_cases hmark : c = 'e' ∨ c = 'E'
  · have hsplit : splitExponent (c :: cs) = ([], some cs) := by
      rcases hmark with rfl | rfl <;> simp [splitExponent]
    simp [readUnsigned?, hsplit, splitPoint]
  · obtain ⟨mantissa, exponent, hsplit⟩ :
        ∃ mantissa exponent, splitExponent (c :: cs) = (c :: mantissa, exponent) := by
      unfold splitExponent
      simp only [hmark, decide_false, Bool.not_false, List.takeWhile_cons_of_pos,
        List.dropWhile_cons_of_pos]
      split <;> exact ⟨_, _, rfl⟩
    cases exponent <;> simp [readUnsigned?, hsplit, splitPoint, hpoint, hdigit]

theorem readTrimmed_of_head?_ne {cs : List Char} (h : cs.head? ≠ some '0') :
    readTrimmed cs = .ok (readDecimal? cs) := by
  unfold readTrimmed
  split
  · exact absurd rfl h
  · rfl

theorem readTrimmed_eq_none {c : Char} (hc : canStart c = false) (cs : List Char) :
    readTrimmed (c :: cs) = .ok none := by
  simp only [canStart, Bool.or_eq_false_iff, decide_eq_false_iff_not] at hc
  obtain ⟨⟨⟨⟨hdigit, hpoint⟩, hplus⟩, hminus⟩, -⟩ := hc
  have hzero : c ≠ '0' := by
    rintro rfl
    exact absurd hdigit (by decide)
  have hoctal : isLeadingZeroOctal (c :: cs) = false := by
    unfold isLeadingZeroOctal
    split
    · simp_all
    · rfl
  have hsign : splitSign (c :: cs) = (false, c :: cs) := by
    unfold splitSign
    split <;> simp_all
  rw [readTrimmed_of_head?_ne (by simpa using hzero), readDecimal?, hoctal, hsign]
  simp [readUnsigned?_eq_none hdigit hpoint cs]

/-- The shortcuts change nothing. -/
theorem parse_eq (text : String) : parse text = ofChars text.toList := by
  unfold parse
  split
  · rename_i h
    rw [String.all_bool_eq] at h
    exact (ofChars_eq_zero h).symm
  split
  · rfl
  · rename_i h
    rw [String.front?_eq] at h
    cases hcs : text.toList with
    | nil => simp [hcs] at h
    | cons c cs =>
      have hc : canStart c = false := by simpa [hcs] using h
      have hblank : isBlank c = false := by
        simp only [canStart, Bool.or_eq_false_iff] at hc
        exact hc.2
      obtain ⟨rest, hrest⟩ := trim_cons hblank cs
      rw [ofChars, hrest]
      exact (readTrimmed_eq_none hc rest).symm

end MeteredScript.Decimal
