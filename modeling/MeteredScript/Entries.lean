namespace MeteredScript

/-! # Ordered entries

Keys with values, in the order in which the keys first came. Putting a value under a key that is
there already keeps the key's position.
-/

/-- Keys with values, in order. -/
abbrev Entries (α : Type) := List (String × α)

namespace Entries

variable {α : Type}

def get? (key : String) : Entries α → Option α
  | [] => none
  | (k, v) :: rest => if k = key then some v else get? key rest

/-- Whether there is a value under a key. -/
def contains (key : String) (entries : Entries α) : Bool := (entries.get? key).isSome

def put (key : String) (value : α) : Entries α → Entries α
  | [] => [(key, value)]
  | (k, v) :: rest => if k = key then (k, value) :: rest else (k, v) :: put key value rest

/-- Puts entries one after another: a repeated key keeps its first position and its last value. -/
def ofList (entries : List (String × α)) : Entries α :=
  entries.foldl (fun known entry => put entry.1 entry.2 known) []

end Entries

end MeteredScript
