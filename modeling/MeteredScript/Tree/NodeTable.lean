import MeteredScript.Tree.Outline

namespace MeteredScript

/-! # Numbered nodes

Tools and run contexts address the nodes of a program by number. The program itself is number zero;
all other nodes are numbered from one on, each behind the nodes below it.
-/

/-- A node with the numbers of the nodes below it. -/
structure NumberedNode where
  label : Label
  span : Span
  children : List Nat
deriving DecidableEq, Repr, Inhabited

/-- The nodes of a program; a node's number is its position. -/
abbrev NodeTable := Array NumberedNode

namespace NodeTable

mutual

/-- Adds the nodes of an outline, itself last. -/
def add (level : Nat) (table : NodeTable) : Outline → NodeTable
  | .node label span children =>
    deepen level fun _ =>
      let (table, numbers) := addAll (level + 1) table [] children
      table.push ⟨label, span, numbers⟩

/-- Adds the nodes of outlines, and gives the numbers of the outlines themselves behind those
already in `numbers`, the latest first. -/
def addAll (level : Nat) (table : NodeTable) (numbers : List Nat) :
    List Outline → NodeTable × List Nat
  | [] => (table, numbers.reverse)
  | outline :: rest =>
    let table := add level table outline
    addAll level table ((table.size - 1) :: numbers) rest

end

/-- The nodes of a program's outline, the program first. -/
def ofOutline (outline : Outline) : NodeTable :=
  let root : NumberedNode := ⟨outline.label, outline.span, []⟩
  let (table, numbers) := addAll 0 #[root] [] outline.children
  table.modify 0 fun node => { node with children := numbers }

end NodeTable

def Program.nodeTable (program : Program) : NodeTable := .ofOutline program.outline

/-- The functions of a program with their numbers, in source order. -/
def Program.numberedFunctions (program : Program) : List (Nat × Function) :=
  let table := program.nodeTable
  let numbers := (table[0]?.map NumberedNode.children).getD []
  (numbers.zip program.items).filterMap fun
    | (number, .function f) => some (number, f)
    | (_, .statement _) => none

end MeteredScript
