import MeteredScript.Double.Basic
import MeteredScript.Text.Digits

namespace MeteredScript.Toml

/-! # Numbers

Integers have a value, of floats and times it only matters that they are spelled right. A single `_`
may stand between two digits. Every reader gives what it reads and what follows it.
-/

open Text

/-! ## Digits -/

def takeDigits (p : Char → Bool) : List Char → List Char × List Char
  | '_' :: c :: rest =>
    if p c then
      let (digits, rest) := takeDigits p rest
      (c :: digits, rest)
    else ([], '_' :: c :: rest)
  | c :: rest =>
    if p c then
      let (digits, rest) := takeDigits p rest
      (c :: digits, rest)
    else ([], c :: rest)
  | [] => ([], [])

def digits? (p : Char → Bool) (cs : List Char) : Option (List Char × List Char) :=
  if cs.head?.any p then some (takeDigits p cs) else none

/-- One or more decimal digits, without a superfluous zero in front. -/
def whole? (cs : List Char) : Option (List Char × List Char) :=
  match cs with
  | '0' :: rest => some (['0'], rest)
  | _ => digits? isDigit cs

/-- A sign that may be missing; `true` stands for `-`. -/
def sign (cs : List Char) : Bool × List Char :=
  match cs with
  | '-' :: rest => (true, rest)
  | '+' :: rest => (false, rest)
  | _ => (false, cs)

/-! ## Integers -/

/-- Whether a number is a signed integer of 64 bits. -/
def isWord (n : Int) : Bool := -(Nat.pow 2 63 : Int) ≤ n && n < Nat.pow 2 63

def radixInteger? (radix : Nat) (cs : List Char) : Option (Int × List Char) := do
  let (digits, rest) ← digits? (isDigitOf radix) cs
  let value ← Text.natural? radix digits
  if isWord value then some (value, rest) else none

def decimalInteger? (cs : List Char) : Option (Int × List Char) := do
  let (negative, unsigned) := sign cs
  let (digits, rest) ← whole? unsigned
  let value : Int := decimalValue digits
  let value := if negative then -value else value
  if isWord value then some (value, rest) else none

def integer? (cs : List Char) : Option (Int × List Char) :=
  match cs with
  | '0' :: 'x' :: rest => radixInteger? 16 rest
  | '0' :: 'o' :: rest => radixInteger? 8 rest
  | '0' :: 'b' :: rest => radixInteger? 2 rest
  | _ => decimalInteger? cs

/-! ## Floats -/

/-- The digits behind a point, if there is a point. -/
def fraction? (cs : List Char) : Option (List Char × List Char) :=
  match cs with
  | '.' :: rest => digits? isDigit rest
  | _ => some ([], cs)

def exponent? (cs : List Char) : Option (Option Int × List Char) :=
  match cs with
  | 'e' :: rest | 'E' :: rest => do
    let (negative, unsigned) := sign rest
    let (digits, rest) ← digits? isDigit unsigned
    let value : Int := decimalValue digits
    return (some (if negative then -value else value), rest)
  | _ => some (none, cs)

/-- Whether `digits × 10 ^ exponent` is too large for a double. Only numbers near the largest double
need to be computed. -/
def isTooLarge (digits : List Char) (exponent : Int) : Bool :=
  let digits := digits.dropWhile (· = '0')
  let size : Int := digits.length + exponent
  if digits.isEmpty || size < 300 then false
  else if 320 < size then true
  else
    let up := Nat.pow 10 exponent.toNat
    let down := Nat.pow 10 (-exponent).toNat
    (Double.ofRatio? (decimalValue digits * up) down).isNone

/-- What follows a float: a number with a fraction or an exponent. A positive one must not be too
large. -/
def afterDecimalFloat? (cs : List Char) : Option (List Char) := do
  let (negative, unsigned) := sign cs
  let (whole, rest) ← whole? unsigned
  let (fraction, rest) ← fraction? rest
  let (exponent, rest) ← exponent? rest
  if fraction.isEmpty && exponent.isNone then none
  else if !negative && isTooLarge (whole ++ fraction) (exponent.getD 0 - fraction.length) then none
  else some rest

/-- What follows a float of any form. -/
def afterFloat? (cs : List Char) : Option (List Char) :=
  match (sign cs).2 with
  | 'i' :: 'n' :: 'f' :: rest | 'n' :: 'a' :: 'n' :: rest => some rest
  | _ => afterDecimalFloat? cs

/-! ## Dates and times -/

/-- A number of two digits that is within bounds. -/
def twoDigits? (low high : Nat) (cs : List Char) : Option (Nat × List Char) :=
  match cs with
  | a :: b :: rest =>
    if isDigit a && isDigit b then
      let n := decimalValue [a, b]
      if low ≤ n && n ≤ high then some (n, rest) else none
    else none
  | _ => none

/-- What follows a character, if it is in front. -/
def after? (c : Char) (cs : List Char) : Option (List Char) :=
  match cs with
  | d :: rest => if d = c then some rest else none
  | [] => none

/-- How many days a month has. -/
def daysIn (year month : Nat) : Nat :=
  if month = 2 then
    if year % 4 = 0 && (year % 100 ≠ 0 || year % 400 = 0) then 29 else 28
  else if month = 4 || month = 6 || month = 9 || month = 11 then 30
  else 31

def afterDate? (cs : List Char) : Option (List Char) := do
  let (century, rest) ← twoDigits? 0 99 cs
  let (year, rest) ← twoDigits? 0 99 rest
  let (month, rest) ← twoDigits? 1 12 (← after? '-' rest)
  let (_, rest) ← twoDigits? 1 (daysIn (100 * century + year) month) (← after? '-' rest)
  return rest

def afterSecondFraction (cs : List Char) : List Char :=
  match cs with
  | '.' :: c :: rest => if isDigit c then rest.dropWhile isDigit else cs
  | _ => cs

/-- What follows the time of a day. A minute may have an additional second. -/
def afterTime? (cs : List Char) : Option (List Char) := do
  let (_, rest) ← twoDigits? 0 23 cs
  let (_, rest) ← twoDigits? 0 59 (← after? ':' rest)
  let (_, rest) ← twoDigits? 0 60 (← after? ':' rest)
  return afterSecondFraction rest

/-- What follows the distance to universal time. -/
def afterOffset? (cs : List Char) : Option (List Char) :=
  match cs with
  | 'Z' :: rest | 'z' :: rest => some rest
  | '+' :: rest | '-' :: rest => do
    let (_, rest) ← twoDigits? 0 23 rest
    let (_, rest) ← twoDigits? 0 59 (← after? ':' rest)
    return rest
  | _ => none

/-- What follows the time of a day behind a date, if there is one. -/
def afterTimeOfDate (cs : List Char) : List Char :=
  match cs with
  | c :: rest =>
    if c = 'T' || c = 't' || c = ' ' then
      match afterTime? rest with
      | some rest => (afterOffset? rest).getD rest
      | none => cs
    else cs
  | [] => []

/-- What follows a date, a time or both. -/
def afterMoment? (cs : List Char) : Option (List Char) :=
  match afterDate? cs with
  | some rest => some (afterTimeOfDate rest)
  | none => afterTime? cs

end MeteredScript.Toml
