import MeteredScript.Text.Digits

namespace MeteredScript.Toml

/-! # Quoted text

Strings in double quotes, with escapes, or in single quotes, without; three quotes instead of one let
a string run over several lines. Every reader gives what it reads and what follows it.
-/

/-- Whether a character may stand in a comment or a string: all but control characters other than the
tabulator. -/
def isPlain (c : Char) : Bool := c = '\t' || (32 ≤ c.toNat && c.toNat ≠ 127)

/-- Whether a character is a space or a tabulator. -/
def isSpace (c : Char) : Bool := c = ' ' || c = '\t'

/-- Drops a line break, if there is one in front. -/
def afterLineBreak? (cs : List Char) : Option (List Char) :=
  match cs with
  | '\n' :: rest | '\r' :: '\n' :: rest => some rest
  | _ => none

/-- The character that a backslash and a letter stand for. -/
def escape? (c : Char) : Option Char :=
  match c with
  | '"' | '\\' => some c
  | 'b' => some '\x08'
  | 'f' => some '\x0c'
  | 'n' => some '\n'
  | 'r' => some '\r'
  | 't' => some '\t'
  | _ => none

/-- The character whose number is written in hexadecimal digits. -/
def numbered? (digits : List Char) : Option Char :=
  (Text.hexValue? digits).bind fun n => if n.isValidChar then some (Char.ofNat n) else none

/-! ## One line -/

/-- The rest of a string in double quotes behind the characters already `read`. -/
def basic? (read : List Char) : List Char → Option (String × List Char)
  | [] => none
  | '"' :: rest => some (String.ofList read.reverse, rest)
  | '\\' :: 'u' :: a :: b :: c :: d :: rest =>
    match numbered? [a, b, c, d] with
    | some x => basic? (x :: read) rest
    | none => none
  | '\\' :: 'U' :: a :: b :: c :: d :: e :: f :: g :: h :: rest =>
    match numbered? [a, b, c, d, e, f, g, h] with
    | some x => basic? (x :: read) rest
    | none => none
  | '\\' :: e :: rest =>
    match escape? e with
    | some x => basic? (x :: read) rest
    | none => none
  | c :: rest => if isPlain c && c ≠ '\\' then basic? (c :: read) rest else none

/-- The rest of a string in single quotes. -/
def literal? (cs : List Char) : Option (String × List Char) :=
  let isInner := fun c => isPlain c && c ≠ '\''
  match cs.dropWhile isInner with
  | '\'' :: rest => some (String.ofList (cs.takeWhile isInner), rest)
  | _ => none

/-! ## Several lines -/

/-- Drops up to two quotes: those in front of the closing quotes of a string belong to the string. -/
def dropTwo (quote : Char) (cs : List Char) : List Char :=
  match cs with
  | a :: b :: rest => if a = quote then (if b = quote then rest else b :: rest) else cs
  | [a] => if a = quote then [] else cs
  | [] => []

/-- Whether what follows a backslash makes it an escape: a letter with its digits, or the end of a
line. -/
def startsEscape (cs : List Char) : Bool :=
  match cs with
  | 'u' :: rest => 4 ≤ rest.length && (numbered? (rest.take 4)).isSome
  | 'U' :: rest => 8 ≤ rest.length && (numbered? (rest.take 8)).isSome
  | e :: _ => (escape? e).isSome || (afterLineBreak? (cs.dropWhile isSpace)).isSome
  | [] => false

/-- What follows the rest of a string in three double quotes. -/
def afterMultiBasic? : List Char → Option (List Char)
  | [] => none
  | '"' :: '"' :: '"' :: rest => some (dropTwo '"' rest)
  | '\r' :: '\n' :: rest => afterMultiBasic? rest
  | '\\' :: e :: rest => if startsEscape (e :: rest) then afterMultiBasic? rest else none
  | c :: rest => if (isPlain c && c ≠ '\\') || c = '\n' then afterMultiBasic? rest else none

/-- What follows the rest of a string in three single quotes. -/
def afterMultiLiteral? : List Char → Option (List Char)
  | [] => none
  | '\'' :: '\'' :: '\'' :: rest => some (dropTwo '\'' rest)
  | '\r' :: '\n' :: rest => afterMultiLiteral? rest
  | c :: rest => if isPlain c || c = '\n' then afterMultiLiteral? rest else none

/-- What follows a string of any form. -/
def afterString? (cs : List Char) : Option (List Char) :=
  match cs with
  | '"' :: '"' :: '"' :: rest => afterMultiBasic? rest
  | '"' :: rest => (basic? [] rest).map Prod.snd
  | '\'' :: '\'' :: '\'' :: rest => afterMultiLiteral? rest
  | '\'' :: rest => (literal? rest).map Prod.snd
  | _ => none

end MeteredScript.Toml
