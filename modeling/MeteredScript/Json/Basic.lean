namespace MeteredScript

/-! # JSON values

The values of the JSON data format and their indented text. Objects keep their members in order.
-/

/-- A JSON value. Its numbers are integers. -/
inductive Json where
  | null
  | bool (value : Bool)
  | number (value : Int)
  | string (value : String)
  | array (items : List Json)
  | object (members : List (String × Json))
deriving Inhabited

namespace Json

/-- A natural number as a JSON value. -/
def nat (n : Nat) : Json := number n

def option (value : Option Json) : Json := value.getD null

/-- A lower-case hexadecimal digit. -/
def hexDigit (n : Nat) : Char := Nat.digitChar (n % 16)

/-- A character inside a string: quotes, backslashes and control characters are escaped. -/
def escapeChar (c : Char) : List Char :=
  if c = '"' then ['\\', '"']
  else if c = '\\' then ['\\', '\\']
  else if c = '\n' then ['\\', 'n']
  else if c = '\r' then ['\\', 'r']
  else if c = '\t' then ['\\', 't']
  else if c = '\x08' then ['\\', 'b']
  else if c = '\x0c' then ['\\', 'f']
  else if c.toNat < 32 then
    ['\\', 'u', '0', '0', hexDigit (c.toNat / 16), hexDigit c.toNat]
  else [c]

def quote (s : String) : String :=
  String.ofList ('"' :: s.toList.flatMap escapeChar ++ ['"'])

/-- A line break and two spaces for every level of nesting. -/
def lineBreak (depth : Nat) : String := "\n" ++ String.ofList (List.replicate (2 * depth) ' ')

mutual

/-- Appends the text of a value that starts `depth` levels deep, with each item and each member on a
line of its own. -/
def writeAt (depth : Nat) (out : String) (value : Json) : String :=
  match value with
  | null => out ++ "null"
  | bool value => out ++ (if value then "true" else "false")
  | number value => out ++ toString value
  | string value => out ++ quote value
  | array [] => out ++ "[]"
  | array items =>
    writeItems (depth + 1) (out ++ "[" ++ lineBreak (depth + 1)) items ++ lineBreak depth ++ "]"
  | object [] => out ++ "\x7b\x7d"
  | object members =>
    writeMembers (depth + 1) (out ++ "\x7b" ++ lineBreak (depth + 1)) members ++ lineBreak depth ++
      "\x7d"

/-- Appends the texts of items, separated by commas. -/
def writeItems (depth : Nat) (out : String) : List Json → String
  | [] => out
  | [item] => writeAt depth out item
  | item :: rest => writeItems depth (writeAt depth out item ++ "," ++ lineBreak depth) rest

/-- Appends the texts of members, separated by commas. -/
def writeMembers (depth : Nat) (out : String) : List (String × Json) → String
  | [] => out
  | [(key, value)] => writeAt depth (out ++ quote key ++ ": ") value
  | (key, value) :: rest =>
    writeMembers depth (writeAt depth (out ++ quote key ++ ": ") value ++ "," ++ lineBreak depth)
      rest

end

def indented (value : Json) : String := writeAt 0 "" value

end Json

end MeteredScript
