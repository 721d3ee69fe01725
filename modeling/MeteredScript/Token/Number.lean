import MeteredScript.Error

namespace MeteredScript

/-! # Numbers in a source text

Several spellings can start at the same character, such as `12`, `12n`, `12e3` and the word `12e3x`.
The longest one counts, and of equally long ones the first in `NumberForm.all`.
-/

open Text

/-- Whether a character may stand inside a word. -/
def isWordChar (c : Char) : Bool :=
  isDigit c || ('a' ≤ c && c ≤ 'z') || ('A' ≤ c && c ≤ 'Z') || c = '_' || c = '$'

/-- Whether a word that is not a number may start with the character. -/
def isWordStart (c : Char) : Bool := isWordChar c && !isDigit c

/-- How many characters at the front satisfy `p`. -/
def countWhile (p : Char → Bool) (cs : List Char) : Nat := (cs.takeWhile p).length

/-- What a text that starts with a digit, or with a point and a digit, can be. -/
inductive NumberForm where
  /-- An exponent that runs into a point or an `n`, or has a sign and no digits. -/
  | brokenExponent
  | decimal
  | hex
  | octal
  | binary
  /-- Digits and an `n`. -/
  | bigInt
  /-- Digits that run into letters. -/
  | word
deriving DecidableEq, Repr, Inhabited

namespace NumberForm

/-- All forms; of two equally long ones the earlier counts. -/
def all : List NumberForm := [brokenExponent, decimal, hex, octal, binary, bigInt, word]

/-- The length of the digits and the point at the front: digits with an optional point among or
behind them, or a point and digits. -/
def mantissaLength (cs : List Char) : Nat :=
  match cs with
  | '.' :: rest =>
    let fraction := countWhile isDigit rest
    if fraction = 0 then 0 else 1 + fraction
  | _ =>
    let whole := countWhile isDigit cs
    if whole = 0 then 0
    else
      match cs.drop whole with
      | '.' :: rest => whole + 1 + countWhile isDigit rest
      | _ => whole

/-- The length of an exponent at the front: its letter, an optional sign, and digits. Zero when there
is no complete one. -/
def exponentLength (cs : List Char) : Nat :=
  match cs with
  | c :: rest =>
    if c = 'e' ∨ c = 'E' then
      let sign := if rest.head? = some '+' ∨ rest.head? = some '-' then 1 else 0
      let digits := countWhile isDigit (rest.drop sign)
      if digits = 0 then 0 else 1 + sign + digits
    else 0
  | [] => 0

/-- Whether a text starts with an exponent letter and a sign. -/
def startsSignedExponent (cs : List Char) : Bool :=
  match cs with
  | c :: s :: _ => (c = 'e' || c = 'E') && (s = '+' || s = '-')
  | _ => false

/-- The length of a broken exponent's number, from its first digit. -/
def brokenExponentLength (cs : List Char) : Nat :=
  let mantissa := mantissaLength cs
  if mantissa = 0 then 0
  else
    let tail := cs.drop mantissa
    let exponent := exponentLength tail
    match tail.drop exponent with
    | c :: _ =>
      -- an exponent has to end the number
      -- an exponent has to end the number
      if 0 < exponent ∧ (c = '.' ∨ c = 'n') then mantissa + exponent + 1
      else if exponent = 0 ∧ cs.head? ≠ some '.' ∧ startsSignedExponent tail then mantissa + 2
      else 0
    | [] => 0

/-- The length of `0`, a radix letter of either case, and at least one digit. -/
def radixLength (lower upper : Char) (isRadixDigit : Char → Bool) (cs : List Char) : Nat :=
  match cs with
  | '0' :: letter :: rest =>
    let digits := countWhile isRadixDigit rest
    if (letter = lower ∨ letter = upper) ∧ 0 < digits then 2 + digits else 0
  | _ => 0

/-- The longest front of the text that has the form; zero when there is none. -/
def length (form : NumberForm) (cs : List Char) : Nat :=
  match form with
  | brokenExponent => brokenExponentLength cs
  | decimal =>
    let mantissa := mantissaLength cs
    if mantissa = 0 then 0 else mantissa + exponentLength (cs.drop mantissa)
  | hex => radixLength 'x' 'X' (isDigitOf 16) cs
  -- digits beyond the radix are taken along here, and refused with the value
  | octal => radixLength 'o' 'O' isDigit cs
  | binary => radixLength 'b' 'B' isDigit cs
  | bigInt =>
    let digits := countWhile isDigit cs
    if 0 < digits ∧ (cs.drop digits).head? = some 'n' then digits + 1 else 0
  | word => if (cs.head?.map isDigit).getD false then countWhile isWordChar cs else 0

/-- The longest form at the front of the text with its length, the earlier of equally long ones. -/
def longest (cs : List Char) : NumberForm × Nat :=
  all.foldl (fun best form => if best.2 < form.length cs then (form, form.length cs) else best)
    (word, 0)

/-- The value of a decimal literal. Octal digits behind a leading `0` are octal, unless a point or an
exponent other than zero makes the literal a decimal fraction. -/
def decimalValue? (chars : List Char) : Except LexFault Decimal :=
  let (mantissa, exponentChars?) := Decimal.splitExponent chars
  match (exponentChars?.getD ['0'] |> Decimal.readExponent?) with
  | none => .error .exponentOutOfRange
  | some exponent =>
    if exponent = 0 ∧ Decimal.isLeadingZeroOctal mantissa then
      match Decimal.ofRadix? 8 (mantissa.drop 1) with
      | some value => .ok value
      | none => .error .invalidOctal
    else
      let (whole, fraction) := Decimal.splitPoint mantissa
      match Decimal.ofParts? whole fraction exponent with
      | some value => .ok value
      | none => .error .exponentOutOfRange

def radixValue? (radix : Nat) (fault : LexFault) (digits : List Char) : Except LexFault Decimal :=
  if digits.all (isDigitOf radix) then
    match Decimal.ofRadix? radix digits with
    | some value => .ok value
    | none => .error fault
  else .error fault

/-- The token a text of the form stands for. -/
def token? (form : NumberForm) (chars : List Char) : Except LexFault Token :=
  match form with
  | brokenExponent => .error .exponentNotInteger
  | decimal => (decimalValue? chars).map .number
  | hex => (radixValue? 16 .unknownChar (chars.drop 2)).map .number
  | octal => (radixValue? 8 .invalidOctal (chars.drop 2)).map .number
  | binary => (radixValue? 2 .invalidBinary (chars.drop 2)).map .number
  | bigInt =>
    match Decimal.ofRadix? 10 chars.dropLast with
    | some value => .ok (.bigInt value)
    | none => .error .unknownChar
  | word => .ok (.ident (String.ofList chars))

end NumberForm

end MeteredScript
