import MeteredScript.Decimal.Text
import MeteredScript.Entries
import MeteredScript.Nesting

namespace MeteredScript

/-! # Data

Plain data goes into a run as arguments and pre-bound names, passes between a run and its
collaborators, and is what a run results in. It has no identity: arrays and objects hold their
contents.
-/

/-- A piece of data. The keys of an object are distinct if it was made by `Datum.ofEntries`. -/
inductive Datum where
  | number (value : Decimal)
  | nan
  | string (value : String)
  | boolean (value : Bool)
  | null
  | undefined
  | array (items : List Datum)
  | object (entries : List (String × Datum))
deriving Inhabited

namespace Datum

/-- An object; a repeated key keeps its first position and its last value. -/
def ofEntries (entries : List (String × Datum)) : Datum := object (Entries.ofList entries)

/-- The name of the kind of data. -/
def kind : Datum → String
  | number _ => "number"
  | nan => "nan"
  | string _ => "string"
  | boolean _ => "boolean"
  | null => "null"
  | undefined => "undefined"
  | array _ => "array"
  | object _ => "object"

def string? : Datum → Option String
  | string value => some value
  | _ => none

def get? (key : String) : Datum → Option Datum
  | object entries => Entries.get? key entries
  | _ => none

/-! ## Size -/

/-- Whether a piece of data is an array or an object. -/
def isContainer : Datum → Bool
  | array _ | object _ => true
  | _ => false

/-- What an array or object of data holds. -/
def held : Datum → List Datum
  | array items => items
  | object entries => entries.map Prod.snd
  | _ => []

theorem sizeOf_map_snd_le (entries : List (String × Datum)) :
    sizeOf (entries.map Prod.snd) ≤ sizeOf entries := by
  induction entries with
  | nil => exact Nat.le_refl _
  | cons entry rest ih =>
    obtain ⟨key, value⟩ := entry
    simp only [List.map_cons, List.cons.sizeOf_spec, Prod.mk.sizeOf_spec]
    omega

theorem sizeOf_held_le (d : Datum) : sizeOf d.held ≤ sizeOf d := by
  cases d with
  | array items => simp only [held, array.sizeOf_spec]; omega
  | object entries =>
    have hvalues := sizeOf_map_snd_le entries
    simp only [held, object.sizeOf_spec]
    omega
  | _ => simp [held]

theorem sizeOf_reverse_append {α : Type} [SizeOf α] (top rest : List α) :
    sizeOf (top.reverse ++ rest) + 1 = sizeOf top + sizeOf rest := by
  induction top generalizing rest with
  | nil => simp [Nat.add_comm]
  | cons a top ih =>
    have hrest := ih (a :: rest)
    simp only [List.cons.sizeOf_spec, List.reverse_cons, List.append_assoc, List.singleton_append]
      at hrest ⊢
    omega

/-- Counts the arrays and objects of a pile of data. What is taken off the top counts for one if it
is an array or an object, and what that holds goes onto the pile. -/
def sizeOfPile (count : Nat) : List Datum → Nat
  | [] => count
  | d :: pile =>
    if d.isContainer then sizeOfPile (count + 1) (d.held.reverse ++ pile)
    else sizeOfPile count pile
termination_by pile => sizeOf pile
decreasing_by
  all_goals
    have hreverse := sizeOf_reverse_append d.held pile
    have hheld := sizeOf_held_le d
    simp only [List.cons.sizeOf_spec]
    omega

/-- How many arrays and objects a piece of data consists of. -/
def size (d : Datum) : Nat := sizeOfPile 0 [d]

/-! ## Text -/

/-- A character inside a quoted string: only quotes and backslashes are escaped. -/
def escapeChar (c : Char) : List Char :=
  if c = '"' ∨ c = '\\' then ['\\', c] else [c]

def quote (s : String) : String :=
  String.ofList ('"' :: s.toList.flatMap escapeChar ++ ['"'])

mutual

/-- Appends the text of data that is inside of other data, where strings are quoted. -/
def writeAt (level : Nat) (out : String) (d : Datum) : String :=
  match d with
  | number value => out ++ value.text
  | nan => out ++ "NaN"
  | string value => out ++ quote value
  | boolean value => out ++ (if value then "true" else "false")
  | null => out ++ "null"
  | undefined => out ++ "undefined"
  | array items => deepen level fun _ => writeItems (level + 1) (out ++ "[") items ++ "]"
  | object entries =>
    deepen level fun _ => writeEntries (level + 1) (out ++ "\x7b") entries ++ "\x7d"

/-- Appends the texts of items, separated by commas. -/
def writeItems (level : Nat) (out : String) : List Datum → String
  | [] => out
  | [item] => writeAt level out item
  | item :: rest => writeItems level (writeAt level out item ++ ",") rest

/-- Appends the texts of entries, separated by commas. -/
def writeEntries (level : Nat) (out : String) : List (String × Datum) → String
  | [] => out
  | [(key, value)] => writeAt level (out ++ quote key ++ ":") value
  | (key, value) :: rest =>
    writeEntries level (writeAt level (out ++ quote key ++ ":") value ++ ",") rest

end

/-- The text of a piece of data: a string stands for itself, strings inside of arrays and objects are
quoted. -/
def text (d : Datum) : String :=
  match d with
  | string value => value
  | _ => writeAt 0 "" d

end Datum

end MeteredScript
