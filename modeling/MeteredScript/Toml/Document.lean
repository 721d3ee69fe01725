import MeteredScript.Toml.Number
import MeteredScript.Toml.Quoted
import MeteredScript.Toml.Table

namespace MeteredScript.Toml

/-! # Documents

A document is a sequence of lines: pairs of a key and a value, headers of tables, and headers of lists
of tables. A value may run over several lines. Every reader gives what it reads and what follows it.
-/

def skipSpaces (cs : List Char) : List Char := cs.dropWhile isSpace

def skipComment (cs : List Char) : List Char :=
  match cs with
  | '#' :: rest => rest.dropWhile isPlain
  | _ => cs

/-- What follows the rest of a line that holds nothing but a comment. -/
def afterLine? (cs : List Char) : Option (List Char) :=
  match skipComment (skipSpaces cs) with
  | [] => some []
  | rest => afterLineBreak? rest

/-! ## Keys -/

/-- Whether a character may stand in a key without quotes. -/
def isKeyChar (c : Char) : Bool :=
  Text.isDigit c || ('a' ≤ c && c ≤ 'z') || ('A' ≤ c && c ≤ 'Z') || c = '_' || c = '-'

/-- A key without dots. -/
def simpleKey? (cs : List Char) : Option (String × List Char) :=
  match cs with
  | '"' :: rest => basic? [] rest
  | '\'' :: rest => literal? rest
  | _ =>
    match cs.takeWhile isKeyChar with
    | [] => none
    | key => some (String.ofList key, cs.dropWhile isKeyChar)

/-- A key with at most `bound` dots, with spaces around its parts. -/
def keyParts? (bound : Nat) (cs : List Char) : Option (List String × List Char) :=
  match simpleKey? (skipSpaces cs) with
  | none => none
  | some (part, rest) =>
    match skipSpaces rest, bound with
    | '.' :: rest, bound + 1 =>
      (keyParts? bound rest).map fun (parts, rest) => (part :: parts, rest)
    | '.' :: _, 0 => none
    | rest, _ => some ([part], rest)

/-- How deep keys and values may nest. -/
def maxNesting : Nat := 79

def key? (cs : List Char) : Option (Key × List Char) :=
  match keyParts? (maxNesting - 1) cs with
  | some (parts, rest) => parts.getLast?.map fun last => (⟨parts.dropLast, last⟩, rest)
  | none => none

/-! ## Values

A `bound` is at least the number of characters that are left; every step of a reader uses up one.
-/

/-- Reads a value within a bound. -/
abbrev ValueReader := Nat → List Char → Option (Value × List Char)

/-- A key, an equals sign and a value. -/
def pair? (value? : ValueReader) (bound : Nat) (cs : List Char) :
    Option ((Key × Value) × List Char) := do
  let (key, rest) ← key? cs
  let (v, rest) ← value? bound (skipSpaces (← after? '=' rest))
  return ((key, v), rest)

/-- Drops blanks, line breaks and comments. -/
def skipBlankLines (bound : Nat) (cs : List Char) : List Char :=
  match bound with
  | 0 => cs
  | bound + 1 =>
    let rest := skipComment (skipSpaces cs)
    match afterLineBreak? rest with
    | some rest => skipBlankLines bound rest
    | none => skipSpaces cs

/-- What follows the rest of a list, which may have a comma behind its last value. -/
def afterItems? (value? : ValueReader) (bound : Nat) (cs : List Char) : Option (List Char) :=
  match bound with
  | 0 => none
  | bound + 1 =>
    match skipBlankLines (bound + 1) cs with
    | ']' :: rest => some rest
    | cs =>
      match value? bound cs with
      | none => none
      | some (_, rest) =>
        match skipBlankLines bound rest with
        | ',' :: rest => afterItems? value? bound rest
        | ']' :: rest => some rest
        | _ => none

/-- The rest of the pairs of a table in braces, behind those already `read`. -/
def bracedPairs? (value? : ValueReader) (bound : Nat) (read : List (Key × Value))
    (cs : List Char) : Option (List (Key × Value) × List Char) :=
  match bound with
  | 0 => none
  | bound + 1 =>
    match pair? value? bound cs with
    | none => none
    | some (pair, rest) =>
      match skipSpaces rest with
      | ',' :: rest => bracedPairs? value? bound (pair :: read) rest
      | '\x7d' :: rest => some ((pair :: read).reverse, rest)
      | _ => none

/-- What follows the rest of a table in braces. -/
def afterBraced? (value? : ValueReader) (bound : Nat) (cs : List Char) : Option (List Char) :=
  match skipSpaces cs with
  | '\x7d' :: rest => some rest
  | _ => do
    let (pairs, rest) ← bracedPairs? value? bound [] cs
    let _ ← Table.addAll? pairs []
    return rest

/-- A value without values inside. -/
def scalar? (cs : List Char) : Option (Value × List Char) :=
  let other := fun (rest : List Char) => (Value.other, rest)
  match cs with
  | '"' :: _ | '\'' :: _ => (afterString? cs).map other
  | 't' :: 'r' :: 'u' :: 'e' :: rest | 'f' :: 'a' :: 'l' :: 's' :: 'e' :: rest => some (other rest)
  | _ =>
    match afterMoment? cs, afterFloat? cs with
    | some rest, _ => some (other rest)
    | none, some rest => some (other rest)
    | none, none => (integer? cs).map fun (value, rest) => (.integer value, rest)

/-- A value in which lists and tables are open at most `room` deep. -/
def value? (room bound : Nat) (cs : List Char) : Option (Value × List Char) :=
  match cs, room with
  | '[' :: rest, room + 1 =>
    (afterItems? (value? room) bound rest).map fun rest => (.other, rest)
  | '\x7b' :: rest, room + 1 =>
    (afterBraced? (value? room) bound rest).map fun rest => (.other, rest)
  | _, _ => scalar? cs

/-! ## Lines -/

/-- A line of a document. -/
inductive Line where
  | pair (key : Key) (value : Value)
  | table (key : Key)
  | listed (key : Key)
deriving DecidableEq, Repr, Inhabited

/-- A line that is not blank, without what may follow it. -/
def line? (bound : Nat) (cs : List Char) : Option (Line × List Char) :=
  match cs with
  | '[' :: '[' :: rest => do
    let (key, rest) ← key? rest
    return (.listed key, ← after? ']' (← after? ']' rest))
  | '[' :: rest => do
    let (key, rest) ← key? rest
    return (.table key, ← after? ']' rest)
  | _ => (pair? (value? maxNesting) bound cs).map fun ((key, v), rest) => (.pair key v, rest)

/-- All further lines behind those already `read`. -/
def lines? (bound : Nat) (read : List Line) (cs : List Char) : Option (List Line) :=
  match bound with
  | 0 => none
  | bound + 1 =>
    match skipBlankLines (bound + 1) cs with
    | [] => some read.reverse
    | cs =>
      match afterLine? cs with
      | some rest => lines? bound read rest
      | none =>
        match line? bound cs with
        | none => none
        | some (line, rest) =>
          match afterLine? rest with
          | some rest => lines? bound (line :: read) rest
          | none => none

/-! ## Sections -/

/-- A header with the pairs below it. -/
structure Section where
  header : Line
  pairs : List (Key × Value)

/-- The pairs in front of the first header, and the sections behind it. -/
def sections (lines : List Line) : List (Key × Value) × List Section :=
  lines.foldr (fun line (pairs, rest) =>
    match line with
    | .pair key v => ((key, v) :: pairs, rest)
    | header => ([], ⟨header, pairs⟩ :: rest)) ([], [])

def Table.addSection? (t : Table) (s : Section) : Option Table :=
  match s.header with
  | .table key => t.changeAt? key.way (Table.addTable? key.last s.pairs)
  | .listed key => t.changeAt? key.way (Table.addToList? key.last s.pairs)
  | .pair key v => t.add? (key, v)

def Table.ofLines? (lines : List Line) : Option Table := do
  let (pairs, rest) := sections lines
  rest.foldlM Table.addSection? (← Table.addAll? pairs [])

def dropByteOrderMark (cs : List Char) : List Char :=
  match cs with
  | '\uFEFF' :: rest => rest
  | _ => cs

/-- Reads a document. -/
def parse? (text : String) : Option Table :=
  let cs := dropByteOrderMark text.toList
  (lines? (cs.length + 1) [] cs).bind Table.ofLines?

end MeteredScript.Toml
