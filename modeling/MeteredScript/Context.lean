import MeteredScript.Eval.Run
import MeteredScript.Json.Raw

namespace MeteredScript

/-! # Context texts

A run's context as a JSON text: a record with the fields `startNodeIndex`, `args` and `identifiers`,
each of which may be missing. A record may also be written as an array of its fields in this order.
Fields of other names are passed over.
-/

/-- How many arrays and objects may be open at one point of a context, where it is not passed over. -/
def maxOpenContainers : Nat := 127

namespace RawJson

/-! ## Data -/

mutual

/-- The data that a value stands for, with arrays and objects open at most `room` deep. -/
def datum? (room : Nat) (value : RawJson) : Option Datum :=
  match value with
  | null => some .null
  | bool value => some (.boolean value)
  | number value => value.decimal?.map .number
  | string value => value.text?.map .string
  | array items => if room = 0 then none else itemData? (room - 1) [] items
  | object members => if room = 0 then none else memberData? (room - 1) [] members

/-- The array of the data already `read`, the last one first, and of further items. -/
def itemData? (room : Nat) (read : List Datum) : List RawJson → Option Datum
  | [] => some (.array read.reverse)
  | item :: rest =>
    match datum? room item with
    | some d => itemData? room (d :: read) rest
    | none => none

/-- The object of the entries already `read`, the last one first, and of further members. -/
def memberData? (room : Nat) (read : List (String × Datum)) :
    List (RawText × RawJson) → Option Datum
  | [] => some (.ofEntries read.reverse)
  | (key, value) :: rest =>
    match key.text?, datum? room value with
    | some key, some d => memberData? room ((key, d) :: read) rest
    | _, _ => none

end

/-! ## Records -/

/-- The members of an object under their decoded keys. -/
def named? (members : List (RawText × RawJson)) : Option (List (String × RawJson)) :=
  members.mapM fun (key, value) => key.text?.map fun key => (key, value)

def field? (name : String) (members : List (String × RawJson)) : Option (Option RawJson) :=
  match members.filter fun m => m.1 = name with
  | [] => some none
  | [(_, value)] => some (some value)
  | _ => none

/-- The values of the fields of the given names, if they have one, in the order of the names. -/
def fields? (names : List String) (value : RawJson) : Option (List (Option RawJson)) :=
  match value with
  | object members => do
    let members ← named? members
    names.mapM fun name => field? name members
  | array items =>
    if items.length ≤ names.length then
      some (items.map some ++ List.replicate (names.length - items.length) none)
    else none
  | _ => none

def items? : RawJson → Option (List RawJson)
  | array items => some items
  | _ => none

/-- The index of a node: an integer of 64 bits that is not negative. -/
def index? : RawJson → Option Nat
  | number value => value.integer?.bind fun n => if 0 ≤ n then some n.toNat else none
  | _ => none

/-- A name with its data: both have to be there. -/
def identifier? (value : RawJson) : Option (String × Datum) := do
  match ← value.fields? ["name", "value"] with
  | [some (string name), some d] => return (← name.text?, ← d.datum? (maxOpenContainers - 3))
  | _ => none

def context? (value : RawJson) : Option RunContext := do
  match ← value.fields? ["startNodeIndex", "args", "identifiers"] with
  | [start, args, identifiers] =>
    let start ← start.elim (some 0) index?
    let args ← (← args.elim (some []) items?).mapM (datum? (maxOpenContainers - 2))
    let identifiers ← (← identifiers.elim (some []) items?).mapM identifier?
    return ⟨start, args, identifiers⟩
  | _ => none

end RawJson

def RunContext.parse? (text : String) : Option RunContext :=
  (RawJson.parse? text).bind RawJson.context?

end MeteredScript
