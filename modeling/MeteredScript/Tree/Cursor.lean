import MeteredScript.Error

namespace MeteredScript

/-! # Reading a token list

A `Cursor` stands between two tokens of a list. `Parse` computations move it forward or fail with an
error; none of them looks behind the token it stands at.
-/

/-- The tokens that are left, and where the last token that was passed ends. -/
structure Cursor where
  rest : List Lexeme
  reached : Nat := 0
deriving DecidableEq, Repr, Inhabited

/-- A computation that reads tokens. -/
abbrev Parse := StateT Cursor (Except Error)

namespace Cursor

def token? (c : Cursor) : Option Token := c.rest.head?.map Lexeme.token

/-- The range of the token ahead; behind the last token, the empty range at its end. -/
def span (c : Cursor) : Span :=
  match c.rest with
  | lexeme :: _ => lexeme.span
  | [] => .point c.reached

/-- Passes the token ahead. -/
def advance (c : Cursor) : Cursor :=
  match c.rest with
  | lexeme :: rest => ⟨rest, lexeme.span.stop⟩
  | [] => c

end Cursor

namespace Parse

def peek : Parse (Option Token) := do return (← get).token?

/-- The range of the token ahead. -/
def here : Parse Span := do return (← get).span

/-- Passes the token ahead. -/
def advance : Parse Unit := modify Cursor.advance

/-- The range from `start` to the end of the last token passed. -/
def spanFrom (start : Span) : Parse Span := do return start.extendTo (← get).reached

/-- Whether the token ahead is `token`. -/
def check (token : Token) : Parse Bool := do return (← peek) == some token

/-- Fails because of the token ahead. -/
def unexpected {α : Type} : Parse α := do
  let span ← here
  match ← peek with
  | some (.regex _ _) => throw (.parse .regexNotSupported span)
  | some token => throw (.parse (.unexpected token) span)
  | none => throw (.parse .endOfInput span)

/-- Passes the token ahead if it is `token`, and says whether it was. -/
def eat (token : Token) : Parse Bool := do
  if ← check token then
    advance
    return true
  else
    return false

/-- Passes the token ahead, which has to be `token`, and gives its range. -/
def expect (token : Token) : Parse Span := do
  let span ← here
  if ← eat token then return span else unexpected

/-- Passes the token ahead, which has to be a name. -/
def name : Parse String := do
  match ← peek with
  | some (.ident name) =>
    advance
    return name
  | _ => unexpected

/-! ## Lists -/

section

-- readers that do more than move a cursor have lists of the same form
variable {m : Type → Type} [Monad m] {α : Type}

/-- Repeats `step` on a value for as long as it asks for more, `bound` times at most. A `bound` of
the number of tokens left is no restriction on steps that pass a token each time they ask for more. -/
def iterate (step : α → m (α × Bool)) : Nat → α → m α
  | 0, a => pure a
  | bound + 1, a => do
    let (a, more) ← step a
    if more then iterate step bound a else pure a

variable [MonadLiftT Parse m]

def commaStep (closer : Token) (item : m α) (read : List α) : m (List α × Bool) := do
  if ← check closer then return (read, false)
  else
    let a ← item
    let more ← eat (.punctuation .comma)
    return (a :: read, more)

/-- Items separated by commas, up to the token `closer`, which is passed too. A comma may follow the
last item. -/
def commaSeparated (bound : Nat) (closer : Token) (item : m α) : m (List α) := do
  let read ← iterate (commaStep closer item) bound []
  let _ ← expect closer
  return read.reverse

def moreStep (item : m α) (read : List α) : m (List α × Bool) := do
  if ← eat (.punctuation .comma) then
    let a ← item
    return (a :: read, true)
  else return (read, false)

def commaRest (bound : Nat) (item : m α) (first : α) : m (List α) := do
  let read ← iterate (moreStep item) bound [first]
  return read.reverse

end

end Parse

end MeteredScript
