import MeteredScript.Json.Number
import MeteredScript.Nesting

namespace MeteredScript

/-! # JSON texts

A JSON text as a tree. Strings and numbers are kept as they are written, so that parts of a text that
nobody asks for only need to be spelled right: `RawText.text?` and `RawNumber.decimal?` say what
strings and numbers stand for, and whether they stand for anything.
-/

/-! ## Strings -/

/-- A part of a string: a character, or one of the 16-bit units that `\u` introduces. -/
inductive TextPart where
  | char (c : Char)
  | unit (code : Nat)
deriving DecidableEq, Repr, Inhabited

/-- A string as it is written, between its quotes. -/
abbrev RawText := List TextPart

namespace RawText

/-- The character that a backslash and a letter stand for. -/
def escape? (c : Char) : Option Char :=
  match c with
  | '"' | '\\' | '/' => some c
  | 'b' => some '\x08'
  | 'f' => some '\x0c'
  | 'n' => some '\n'
  | 'r' => some '\r'
  | 't' => some '\t'
  | _ => none

/-- The rest of a string in front of its closing quote, behind the parts already `read`, and what
follows the quote. -/
def scan? (read : RawText) : List Char → Option (RawText × List Char)
  | [] => none
  | '"' :: rest => some (read.reverse, rest)
  | '\\' :: 'u' :: a :: b :: c :: d :: rest =>
    match Text.hexValue? [a, b, c, d] with
    | some code => scan? (.unit code :: read) rest
    | none => none
  | '\\' :: e :: rest =>
    match escape? e with
    | some c => scan? (.char c :: read) rest
    | none => none
  | c :: rest => if c.toNat < 32 ∨ c = '\\' then none else scan? (.char c :: read) rest

/-- Whether a unit is the first of a pair that stands for one character. -/
def isHighSurrogate (code : Nat) : Bool := 0xD800 ≤ code && code ≤ 0xDBFF

/-- Whether a unit is the second of a pair that stands for one character. -/
def isLowSurrogate (code : Nat) : Bool := 0xDC00 ≤ code && code ≤ 0xDFFF

/-- The characters of a string behind those already `read`, the last one first. Half a pair stands for
nothing. -/
def decode? (read : List Char) : RawText → Option (List Char)
  | [] => some read
  | .char c :: rest => decode? (c :: read) rest
  | .unit code :: rest =>
    if isHighSurrogate code then
      match rest with
      | .unit low :: rest =>
        if isLowSurrogate low then
          decode? (Char.ofNat (0x10000 + (code - 0xD800) * 0x400 + (low - 0xDC00)) :: read) rest
        else none
      | _ => none
    else if isLowSurrogate code then none
    else decode? (Char.ofNat code :: read) rest

def text? (raw : RawText) : Option String :=
  (decode? [] raw).map fun cs => String.ofList cs.reverse

end RawText

/-! ## Values -/

/-- A value as it is written. -/
inductive RawJson where
  | null
  | bool (value : Bool)
  | number (value : RawNumber)
  | string (value : RawText)
  | array (items : List RawJson)
  | object (members : List (RawText × RawJson))
deriving Inhabited

namespace RawJson

/-- Drops the blanks in front of a text. -/
def skipBlanks (cs : List Char) : List Char :=
  cs.dropWhile fun c => c = ' ' || c = '\n' || c = '\t' || c = '\r'

/-- A value without values inside, and what follows it. -/
def scanScalar? (cs : List Char) : Option (RawJson × List Char) :=
  match cs with
  | 'n' :: 'u' :: 'l' :: 'l' :: rest => some (null, rest)
  | 't' :: 'r' :: 'u' :: 'e' :: rest => some (bool true, rest)
  | 'f' :: 'a' :: 'l' :: 's' :: 'e' :: rest => some (bool false, rest)
  | '"' :: rest => (RawText.scan? [] rest).map fun (parts, rest) => (string parts, rest)
  | _ => (RawNumber.scan? cs).map fun (value, rest) => (number value, rest)

/-- The key of a member and its colon, and what follows them. -/
def scanKey? (cs : List Char) : Option (RawText × List Char) :=
  match skipBlanks cs with
  | '"' :: rest =>
    match RawText.scan? [] rest with
    | some (key, rest) =>
      match skipBlanks rest with
      | ':' :: rest => some (key, rest)
      | _ => none
    | none => none
  | _ => none

mutual

/-- The value at the front of a text, and what follows it. `bound` limits how many values are looked
into; twice the length of the text is always enough. -/
def scanValue? (level : Nat) (bound : Nat) (cs : List Char) : Option (RawJson × List Char) :=
  match bound with
  | 0 => none
  | bound + 1 =>
    match skipBlanks cs with
    | '[' :: rest =>
      match skipBlanks rest with
      | ']' :: rest => some (array [], rest)
      | rest => deepen level fun _ => scanItems? (level + 1) bound [] rest
    | '\x7b' :: rest =>
      match skipBlanks rest with
      | '\x7d' :: rest => some (object [], rest)
      | rest => deepen level fun _ => scanMembers? (level + 1) bound [] rest
    | cs => scanScalar? cs

/-- The rest of an array behind the items already `read`, and what follows it. -/
def scanItems? (level : Nat) (bound : Nat) (read : List RawJson) (cs : List Char) :
    Option (RawJson × List Char) :=
  match bound with
  | 0 => none
  | bound + 1 =>
    match scanValue? level bound cs with
    | none => none
    | some (item, rest) =>
      match skipBlanks rest with
      | ',' :: rest => scanItems? level bound (item :: read) rest
      | ']' :: rest => some (array (item :: read).reverse, rest)
      | _ => none

/-- The rest of an object behind the members already `read`, and what follows it. -/
def scanMembers? (level : Nat) (bound : Nat) (read : List (RawText × RawJson)) (cs : List Char) :
    Option (RawJson × List Char) :=
  match bound with
  | 0 => none
  | bound + 1 =>
    match scanKey? cs with
    | none => none
    | some (key, rest) =>
      match scanValue? level bound rest with
      | none => none
      | some (value, rest) =>
        match skipBlanks rest with
        | ',' :: rest => scanMembers? level bound ((key, value) :: read) rest
        | '\x7d' :: rest => some (object ((key, value) :: read).reverse, rest)
        | _ => none

end

/-- Reads a text that is one value with nothing but blanks around it. -/
def parse? (text : String) : Option RawJson :=
  let cs := text.toList
  match scanValue? 0 (2 * cs.length + 2) cs with
  | some (value, rest) => if (skipBlanks rest).isEmpty then some value else none
  | none => none

end RawJson

end MeteredScript
