import MeteredScript.Entries

namespace MeteredScript

/-! # Files

What reading a path gives, for files in memory. A path is walked name by name from the working
directory, or from the root if it starts with a slash.
-/

/-- Why a file cannot be read. -/
inductive FileFault where
  | missing
  /-- A name on the way is one of a file. -/
  | notDirectory
  | directory
  | nameTooLong
  /-- The bytes are no UTF-8. -/
  | notText
  | other (reason : String)
deriving DecidableEq, Repr, Inhabited

def FileFault.text : FileFault → String
  | missing => "No such file or directory (os error 2)"
  | notDirectory => "Not a directory (os error 20)"
  | directory => "Is a directory (os error 21)"
  | nameTooLong => "File name too long (os error 36)"
  | notText => "stream did not contain valid UTF-8"
  | other reason => reason

/-- What paths hold. -/
abbrev Files := String → Except FileFault String

/-! ## Trees -/

/-- A file, or a directory of named trees. -/
inductive FileTree where
  | file (text : String)
  | directory (entries : List (String × FileTree))
deriving Repr, Inhabited

namespace FileTree

def entries : FileTree → Entries FileTree
  | file _ => []
  | directory entries => entries

/-- Puts a tree at the end of a way of names, with the directories that lead there. -/
def put (tree : FileTree) : List String → FileTree → FileTree
  | [], _ => tree
  | name :: rest, whole =>
    let inner := (whole.entries.get? name).getD (directory [])
    directory (whole.entries.put name (put tree rest inner))

end FileTree

/-- A place in a tree: what is there, and the directories above, the nearest first. -/
structure FilePlace where
  tree : FileTree
  above : List FileTree := []
deriving Repr, Inhabited

namespace FilePlace

/-- The topmost directory. -/
def root (place : FilePlace) : FilePlace := ⟨place.above.getLast?.getD place.tree, []⟩

/-- The place of the directory above; there is none above the root. -/
def up (place : FilePlace) : FilePlace :=
  match place.above with
  | [] => place
  | parent :: above => ⟨parent, above⟩

def maxNameBytes : Nat := 255

def pathBytes : Nat := 4096

/-- Follows a name. The empty name and `.` stay, `..` goes up. -/
def follow (place : FilePlace) (name : String) : Except FileFault FilePlace :=
  match place.tree with
  | .file _ => .error .notDirectory
  | .directory entries =>
    if name = "" ∨ name = "." then .ok place
    else if name = ".." then .ok place.up
    else if name.utf8ByteSize > maxNameBytes then .error .nameTooLong
    else
      match Entries.get? name entries with
      | some tree => .ok ⟨tree, place.tree :: place.above⟩
      | none => .error .missing

def names (path : String) : List String :=
  let start : List (List Char) := [[]]
  (path.toList.foldr (fun c names =>
    match c, names with
    | '/', _ => [] :: names
    | c, name :: rest => (c :: name) :: rest
    | c, [] => [[c]]) start).map String.ofList

/-- What a path holds, seen from a place. -/
def read (place : FilePlace) : Files := fun path =>
  if path = "" then .error .missing
  else if path.utf8ByteSize ≥ pathBytes then .error .nameTooLong
  else do
    let start := if path.startsWith "/" then place.root else place
    match (← (names path).foldlM follow start).tree with
    | .file text => .ok text
    | .directory _ => .error .directory

end FilePlace

end MeteredScript
