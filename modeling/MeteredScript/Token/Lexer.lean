import MeteredScript.Token.Number

namespace MeteredScript

/-! # Reading tokens

`tokenize` reads a source text from left to right. At each character `Scan.next` decides what starts
there and how far it reaches; white space and comments are passed over. A slash where a value may
start opens a regex literal.
-/

open Text

/-- A place in a source text: the byte offset, and the line counted from one. -/
structure Position where
  offset : Nat := 0
  line : Nat := 1
deriving DecidableEq, Repr, Inhabited

namespace Position

/-- The place behind a character. -/
def after (p : Position) (c : Char) : Position :=
  ⟨p.offset + c.utf8Size, if c = '\n' then p.line + 1 else p.line⟩

/-- Passes over `n` characters. -/
def advance (p : Position) : Nat → List Char → Position × List Char
  | 0, cs => (p, cs)
  | _ + 1, [] => (p, [])
  | n + 1, c :: cs => (p.after c).advance n cs

theorem advance_snd (p : Position) (n : Nat) (cs : List Char) : (p.advance n cs).2 = cs.drop n := by
  induction n generalizing p cs with
  | zero => rfl
  | succ n ih =>
    cases cs with
    | nil => rfl
    | cons c cs => exact ih (p.after c) cs

end Position

/-- White space between tokens. -/
def isLayout (c : Char) : Bool :=
  c = ' ' || c = '\t' || c = '\r' || c = '\n' || c = '\x0c' || c = '\x0b'

def isAscii (c : Char) : Bool := c.toNat < 128

/-- The size of a text in bytes. -/
def byteLength (cs : List Char) : Nat := cs.foldl (fun size c => size + c.utf8Size) 0

/-- What starts at a character. `extra` counts the characters that belong to it beside the first. -/
inductive Scan where
  | token (token : Token) (extra : Nat)
  | skip (extra : Nat)
  /-- A failure whose range is `extent` bytes long. -/
  | fault (fault : LexFault) (extent : Nat)
deriving DecidableEq, Repr, Inhabited

namespace Scan

/-- The length of a string's body, added to `count`. A backslash keeps the character behind it from
closing the string. -/
def stringLength (quote : Char) (count : Nat) : List Char → Except LexFault Nat
  | [] => .error .unterminatedString
  | c :: rest =>
    if !isAscii c then .error .unknownChar
    else if c = '\n' then .error .unterminatedString
    else if c = '\\' then
      match rest with
      | [] => .error .unterminatedString
      | escaped :: rest =>
        if escaped = '\n' then .error .unterminatedString
        else if !isAscii escaped then .error .unknownChar
        else stringLength quote (count + 2) rest
    else if c = quote then .ok count
    else stringLength quote (count + 1) rest

/-- The length of a regex body, added to `count`. A slash inside brackets or behind a backslash does
not close it. -/
def regexLength (inBrackets : Bool) (count : Nat) : List Char → Except LexFault Nat
  | [] => .error .unterminatedRegex
  | c :: rest =>
    if c = '\n' then .error .unterminatedRegex
    else if !isAscii c then .error .unknownChar
    else if c = '\\' then
      match rest with
      | [] => .error .unterminatedRegex
      | escaped :: rest =>
        if escaped = '\n' then .error .unterminatedRegex
        else if !isAscii escaped then .error .unknownChar
        else regexLength inBrackets (count + 2) rest
    else if c = '[' then regexLength true (count + 1) rest
    else if c = ']' then regexLength false (count + 1) rest
    else if c = '/' ∧ !inBrackets then .ok count
    else regexLength inBrackets (count + 1) rest

/-- The length of a block comment's body up to the closing mark, added to `count`. -/
def blockLength? (count : Nat) : List Char → Option Nat
  | '*' :: '/' :: _ => some count
  | _ :: rest => blockLength? (count + 1) rest
  | [] => none

def string (quote : Char) (rest : List Char) : Scan :=
  match stringLength quote 0 rest with
  | .ok length => token (.string (String.ofList (rest.take length))) (length + 1)
  | .error f => fault f 1

/-- A comment up to the end of its line; `rest` follows the two slashes. -/
def lineComment (rest : List Char) : Scan :=
  let body := rest.takeWhile (· ≠ '\n')
  if body.all isAscii then skip (1 + body.length) else fault .unknownChar 2

/-- A comment up to its closing mark; `rest` follows the opening one. -/
def blockComment (rest : List Char) : Scan :=
  match blockLength? 0 rest with
  | none => fault .unterminatedComment 2
  | some length =>
    if (rest.take length).all isAscii then skip (1 + length + 2) else fault .unknownChar 2

/-- A regex literal; `rest` follows the slash. -/
def regex (rest : List Char) : Scan :=
  match regexLength false 0 rest with
  | .error f => fault f (1 + byteLength rest)
  | .ok length =>
    let flags := (rest.drop (length + 1)).takeWhile isWordChar
    token (.regex (String.ofList (rest.take length)) (String.ofList flags))
      (length + 1 + flags.length)

/-- A number, or a word that starts with a digit. -/
def number (cs : List Char) : Scan :=
  let (form, length) := NumberForm.longest cs
  match form.token? (cs.take length) with
  | .ok t => token t (length - 1)
  | .error f => fault f length

/-- A word: a keyword or a name. -/
def word (cs : List Char) : Scan :=
  let chars := cs.takeWhile isWordChar
  let name := String.ofList chars
  match Keyword.ofText? name with
  | some k => token (.keyword k) (chars.length - 1)
  | none => token (.ident name) (chars.length - 1)

/-- The spellings of punctuation and operator signs, longer ones first; none has more than four
characters. -/
def symbols : List (List Char × Token) :=
  let spelled :=
    Punctuation.all.map (fun p => (p.text.toList, Token.punctuation p)) ++
      Sign.all.map (fun s => (s.text.toList, Token.sign s))
  [4, 3, 2, 1].flatMap fun n => spelled.filter fun s => s.1.length = n

/-- The longest punctuation or operator sign at the front. -/
def symbol? (cs : List Char) : Option (List Char × Token) :=
  symbols.find? fun s => s.1.isPrefixOf cs

/-- A slash: a comment, a regex literal where a value may start, or an operator. -/
def slash (previous : Option Token) (rest : List Char) : Scan :=
  match rest with
  | '/' :: body => lineComment body
  | '*' :: body => blockComment body
  | _ =>
    -- at the start of the text a value may start
    if (previous.map Token.allowsRegexAfter).getD true then regex rest
    else if rest.head? = some '=' then token (.sign (.assign (.compound .div))) 1
    else token (.sign (.binary (.arith .div))) 0

/-- What starts with the character `c`, given the token before it. -/
def next (previous : Option Token) (c : Char) (rest : List Char) : Scan :=
  if isLayout c then skip 0
  else if c = '/' then slash previous rest
  else if c = '\'' ∨ c = '"' then string c rest
  else if isDigit c ∨ (c = '.' ∧ (rest.head?.map isDigit).getD false) then number (c :: rest)
  else if isWordStart c then word (c :: rest)
  else
    match symbol? (c :: rest) with
    | some (spelling, t) => token t (spelling.length - 1)
    | none => fault .unknownChar c.utf8Size

end Scan

/-- Reads the tokens of `cs`, which starts at `position`, behind those already `read`, the latest
first. -/
def tokenizeFrom (read : List Lexeme) (position : Position) (cs : List Char) :
    Except Error (List Lexeme) :=
  match cs with
  | [] => .ok read.reverse
  | c :: rest =>
    match Scan.next (read.head?.map Lexeme.token) c rest with
    | .fault f extent => .error (.lex f ⟨position.offset, position.offset + extent⟩)
    | .skip extra =>
      let ahead := (position.after c).advance extra rest
      tokenizeFrom read ahead.1 ahead.2
    | .token t extra =>
      let ahead := (position.after c).advance extra rest
      let lexeme : Lexeme := ⟨t, ⟨position.offset, ahead.1.offset⟩, position.line⟩
      tokenizeFrom (lexeme :: read) ahead.1 ahead.2
termination_by cs.length
decreasing_by
  all_goals
    simp only [Position.advance_snd, List.length_drop, List.length_cons]
    omega

/-- The tokens of a source text, in order. -/
def tokenize (source : String) : Except Error (List Lexeme) :=
  tokenizeFrom [] {} source.toList

end MeteredScript
