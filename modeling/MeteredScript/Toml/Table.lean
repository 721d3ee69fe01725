import MeteredScript.Entries

namespace MeteredScript.Toml

/-! # Tables

Values under keys, and the rules for what may be added to a table. A table comes about in one of three
ways: by its own header, on the way to a header further in, or through a dotted key; this decides in
which ways it can be added to.
-/

/-- A value. Of all values but integers it only matters that they are spelled right. -/
inductive Value where
  | integer (value : Int)
  | other
deriving DecidableEq, Repr, Inhabited

/-- How a table came about. -/
inductive Origin where
  /-- By its own header. -/
  | header
  /-- On the way to a header further in. -/
  | path
  /-- Through a dotted key. -/
  | dotted
deriving DecidableEq, Repr, Inhabited

/-- What stands under a key. -/
inductive Item where
  | value (value : Value)
  | table (origin : Origin) (entries : List (String × Item))
  /-- A list of tables with the last one, which is open, apart from the `earlier` ones. -/
  | tables (earlier : List (List (String × Item))) (last : List (String × Item))
deriving Inhabited

abbrev Table := Entries Item

/-- A key with dots: the keys on the way, and the last one. -/
structure Key where
  way : List String
  last : String
deriving DecidableEq, Repr, Inhabited

namespace Table

/-- Puts a value under a key that is not taken. -/
def addValue? (key : String) (v : Value) (t : Table) : Option Table :=
  if t.contains key then none else some (t.put key (.value v))

/-- Puts a value at the end of a way through tables. A way does not lead through tables that have a
header of their own, and ends at one that came about through a dotted key. -/
def addAlong? (way : List String) (key : String) (v : Value) (origin : Origin) (t : Table) :
    Option Table :=
  match way with
  | [] => if origin = .dotted then t.addValue? key v else none
  | step :: way =>
    match t.get? step with
    | none => (addAlong? way key v .dotted []).map fun inner => t.put step (.table .dotted inner)
    | some (.value _) => none
    | some (.table origin inner) =>
      if origin = .header then none
      else (addAlong? way key v origin inner).map fun inner => t.put step (.table origin inner)
    | some (.tables earlier last) =>
      (addAlong? way key v .header last).map fun last => t.put step (.tables earlier last)

/-- Puts a value under a key that may have dots. -/
def add? (t : Table) (pair : Key × Value) : Option Table :=
  let (key, v) := pair
  if key.way.isEmpty then t.addValue? key.last v else t.addAlong? key.way key.last v .header

/-- Puts values under keys. -/
def addAll? (pairs : List (Key × Value)) (t : Table) : Option Table := pairs.foldlM add? t

/-- Changes the table that a way leads to. Missing tables are made, and a list of tables leads on to
its last one. -/
def changeAt? (way : List String) (change? : Table → Option Table) (t : Table) : Option Table :=
  match way with
  | [] => change? t
  | step :: way =>
    match t.get? step with
    | none => (changeAt? way change? []).map fun inner => t.put step (.table .path inner)
    | some (.value _) => none
    | some (.table origin inner) =>
      (changeAt? way change? inner).map fun inner => t.put step (.table origin inner)
    | some (.tables earlier last) =>
      (changeAt? way change? last).map fun last => t.put step (.tables earlier last)

/-- Adds a table with its own header. A table of its name may be there only from the way to another
one. -/
def addTable? (key : String) (pairs : List (Key × Value)) (t : Table) : Option Table :=
  let added? := fun (start : Table) =>
    (start.addAll? pairs).map fun inner => t.put key (.table .header inner)
  match t.get? key with
  | none => added? []
  | some (.table .path inner) => added? inner
  | some _ => none

def addToList? (key : String) (pairs : List (Key × Value)) (t : Table) : Option Table := do
  let inner ← Table.addAll? pairs []
  match t.get? key with
  | none => some (t.put key (.tables [] inner))
  | some (.tables earlier last) => some (t.put key (.tables (last :: earlier) inner))
  | some _ => none

end Table

end MeteredScript.Toml
