import Mathlib.Logic.Relation
import MeteredScript.Proofs.NodeRanges
import MeteredScript.Proofs.Nodes

namespace MeteredScript

/-! # Nodes in source order

A walk over a node table keeps a stack of numbers: it lists the number on top, and what is below that
node takes its place on the stack, the first one on top. Started at a node it lists what `preorder`
lists of the outline, and it comes to every node from there on down. What carries the order through
the walk is that the ranges of the numbers on the stack follow one another; a step keeps this, as the
nodes below a node are inside its range and follow one another too. Main statement: of two numbers
that a walk lists, the later one is below the earlier one or starts behind it
(`InSourceOrder.pairwise_ahead`).
-/

namespace NodeTable

variable {table : NodeTable}

/-! ## Walks -/

/-- The second node is directly below the first. -/
def Child (table : NodeTable) (number below : Nat) : Prop :=
  ∃ node, table[number]? = some node ∧ below ∈ node.children

/-- The second node is the first, or somewhere below it. -/
def Below (table : NodeTable) : Nat → Nat → Prop := Relation.ReflTransGen table.Child

/-- What a walk lists that starts with the numbers on a stack. -/
inductive Walks (table : NodeTable) : List Nat → List Nat → Prop
  | done : Walks table [] []
  | visit {number : Nat} {node : NumberedNode} {stack listed : List Nat} :
      table[number]? = some node → Walks table (node.children ++ stack) listed →
      Walks table (number :: stack) (number :: listed)

namespace Walks

variable {stack listed listed' : List Nat}

theorem unique (h : table.Walks stack listed) (h' : table.Walks stack listed') : listed = listed' := by
  induction h generalizing listed' with
  | done =>
    cases h'
    rfl
  | visit hnode _ ih =>
    cases h' with
    | visit hnode' hrest =>
      cases hnode.symm.trans hnode'
      rw [ih hrest]

/-- What lies deeper on the stack is walked when all else is done. -/
theorem append {stack' : List Nat} (h : table.Walks stack listed) (h' : table.Walks stack' listed') :
    table.Walks (stack ++ stack') (listed ++ listed') := by
  induction h with
  | done => exact h'
  | visit hnode _ ih =>
    rw [List.append_assoc] at ih
    exact .visit hnode ih

/-- A walk lists the nodes on the stack and those below them. -/
theorem mem_iff (h : table.Walks stack listed) (m : Nat) :
    m ∈ listed ↔ ∃ number ∈ stack, table.Below number m := by
  induction h with
  | done => simp
  | @visit number node stack listed hnode _ ih =>
    have hhead : table.Below number m ↔ m = number ∨ ∃ c ∈ node.children, table.Below c m := by
      unfold Below
      rw [Relation.ReflTransGen.cases_head_iff, eq_comm]
      simp [Child, hnode]
    rw [List.mem_cons, ih, List.exists_mem_cons_iff, hhead, or_assoc]
    simp only [List.mem_append, or_and_right, exists_or]

/-- A walk from a node lists what is below it, and itself. -/
theorem mem_iff_below {root : Nat} (h : table.Walks [root] listed) (m : Nat) :
    m ∈ listed ↔ table.Below root m := by
  rw [h.mem_iff]
  simp

end Walks

theorem UnfoldsAll.append {numbers numbers' : List Nat} {outlines outlines' : List Outline}
    (h : table.UnfoldsAll numbers outlines) (h' : table.UnfoldsAll numbers' outlines') :
    table.UnfoldsAll (numbers ++ numbers') (outlines ++ outlines') := by
  induction outlines generalizing numbers with
  | nil =>
    cases h
    exact h'
  | cons outline outlines ih =>
    cases h with
    | cons hfirst hrest => exact .cons hfirst (ih hrest)

mutual

/-- The walk from a node lists the numbers of the nodes that `preorder` lists. -/
theorem Unfolds.exists_walks {number : Nat} {outline : Outline} (h : table.Unfolds number outline) :
    ∃ listed, table.Walks [number] listed ∧ table.UnfoldsAll listed outline.preorder := by
  cases h with
  | node hnode hchildren =>
    obtain ⟨listed, hwalks, hlisted⟩ := hchildren.exists_walks
    refine ⟨number :: listed, .visit hnode ?_, ?_⟩
    · rw [List.append_nil]
      exact hwalks
    · rw [Outline.preorder_eq]
      exact .cons (.node hnode hchildren) hlisted

theorem UnfoldsAll.exists_walks {numbers : List Nat} {outlines : List Outline}
    (h : table.UnfoldsAll numbers outlines) :
    ∃ listed, table.Walks numbers listed ∧
      table.UnfoldsAll listed (outlines.flatMap Outline.preorder) := by
  cases h with
  | nil => exact ⟨[], .done, .nil⟩
  | cons hfirst hrest =>
    obtain ⟨listed, hwalks, hlisted⟩ := hfirst.exists_walks
    obtain ⟨listed', hwalks', hlisted'⟩ := hrest.exists_walks
    exact ⟨listed ++ listed', hwalks.append hwalks', hlisted.append hlisted'⟩

end

/-! ## Ranges along a walk -/

def spanOf (table : NodeTable) (number : Nat) : Span :=
  (table[number]?.map NumberedNode.span).getD {}

theorem spanOf_eq {number : Nat} {node : NumberedNode} (h : table[number]? = some node) :
    table.spanOf number = node.span := by
  rw [spanOf, h]
  rfl

/-- Below a node come numbers from one on, smaller than its own unless it is the program, with ranges
inside its own that follow one another. -/
structure InSourceOrder (table : NodeTable) : Prop where
  pos {number c : Nat} : table.Child number c → 0 < c
  lt {number c : Nat} : 0 < number → table.Child number c → c < number
  nonempty {number : Nat} {node : NumberedNode} : 0 < number → table[number]? = some node →
    (table.spanOf number).start < (table.spanOf number).stop
  inside {number c : Nat} : table.Child number c →
    (table.spanOf number).start ≤ (table.spanOf c).start ∧
      (table.spanOf c).stop ≤ (table.spanOf number).stop
  apart {number : Nat} {node : NumberedNode} : table[number]? = some node →
    node.children.Pairwise fun c later => (table.spanOf c).stop ≤ (table.spanOf later).start

/-- The second node is strictly below the first, or starts behind it. -/
def Ahead (table : NodeTable) (m later : Nat) : Prop :=
  (∃ c, table.Child m c ∧ table.Below c later) ∨ (table.spanOf m).start < (table.spanOf later).start

/-- Numbers whose ranges follow one another. -/
def Apart (table : NodeTable) (stack : List Nat) : Prop :=
  (∀ number ∈ stack, 0 < number) ∧
    stack.Pairwise fun number later => (table.spanOf number).stop ≤ (table.spanOf later).start

namespace InSourceOrder

variable (h : table.InSourceOrder) {number m later : Nat} {stack listed : List Nat}
include h

theorem start_le_of_below (hbelow : table.Below number m) :
    (table.spanOf number).start ≤ (table.spanOf m).start := by
  induction hbelow with
  | refl => exact Nat.le_refl _
  | tail _ hchild ih => exact Nat.le_trans ih (h.inside hchild).1

theorem bounds_of_below (hpos : 0 < number) (hbelow : table.Below number m) : 0 < m ∧ m ≤ number := by
  induction hbelow with
  | refl => exact ⟨hpos, Nat.le_refl _⟩
  | tail _ hchild ih => exact ⟨h.pos hchild, Nat.le_trans (Nat.le_of_lt (h.lt ih.1 hchild)) ih.2⟩

theorem start_le_of_ahead (hahead : table.Ahead m later) :
    (table.spanOf m).start ≤ (table.spanOf later).start := by
  rcases hahead with ⟨c, hchild, hbelow⟩ | hlt
  · exact Nat.le_trans (h.inside hchild).1 (h.start_le_of_below hbelow)
  · exact Nat.le_of_lt hlt

/-- Nothing is ahead of itself. -/
theorem ne_of_ahead (hpos : 0 < m) (hahead : table.Ahead m later) : m ≠ later := by
  rintro rfl
  rcases hahead with ⟨c, hchild, hbelow⟩ | hlt
  · have hle := (h.bounds_of_below (h.pos hchild) hbelow).2
    exact absurd (h.lt hpos hchild) (Nat.not_lt.mpr hle)
  · exact Nat.lt_irrefl _ hlt

/-- A step of a walk keeps the ranges on the stack apart. -/
theorem apart_visit {node : NumberedNode} (hnode : table[number]? = some node)
    (hstack : table.Apart (number :: stack)) : table.Apart (node.children ++ stack) := by
  obtain ⟨hpos, hpairs⟩ := hstack
  obtain ⟨hfirst, hrest⟩ := List.pairwise_cons.mp hpairs
  constructor
  · intro c hc
    rcases List.mem_append.mp hc with hbelow | hc
    · exact h.pos ⟨node, hnode, hbelow⟩
    · exact hpos c (List.mem_cons_of_mem number hc)
  · refine List.pairwise_append.mpr ⟨h.apart hnode, hrest, ?_⟩
    intro c hc later hlater
    exact Nat.le_trans (h.inside ⟨node, hnode, hc⟩).2 (hfirst later hlater)

/-- What a walk lists later is below or behind. -/
theorem pairwise_ahead (hwalks : table.Walks stack listed) (hstack : table.Apart stack) :
    listed.Pairwise table.Ahead := by
  induction hwalks with
  | done => exact .nil
  | @visit number node stack listed hnode hrest ih =>
    refine List.pairwise_cons.mpr ⟨?_, ih (h.apart_visit hnode hstack)⟩
    intro later hlater
    obtain ⟨c, hc, hbelow⟩ := (hrest.mem_iff later).mp hlater
    rcases List.mem_append.mp hc with hchild | hwaiting
    · exact .inl ⟨c, ⟨node, hnode, hchild⟩, hbelow⟩
    · have hnonempty := h.nonempty (hstack.1 number List.mem_cons_self) hnode
      have hbehind := (List.pairwise_cons.mp hstack.2).1 c hwaiting
      exact .inr (Nat.lt_of_lt_of_le hnonempty
        (Nat.le_trans hbehind (h.start_le_of_below hbelow)))

/-- A walk that does not start at the program never comes to it. -/
theorem pos_of_mem (hwalks : table.Walks stack listed) (hstack : table.Apart stack) (hm : m ∈ listed) :
    0 < m := by
  obtain ⟨number, hnumber, hbelow⟩ := (hwalks.mem_iff m).mp hm
  exact (h.bounds_of_below (hstack.1 number hnumber) hbelow).1

/-- No number is listed twice. -/
theorem nodup (hwalks : table.Walks stack listed) (hstack : table.Apart stack) : listed.Nodup := by
  refine (h.pairwise_ahead hwalks hstack).imp_of_mem ?_
  intro m later hm _ hahead
  exact h.ne_of_ahead (h.pos_of_mem hwalks hstack hm) hahead

end InSourceOrder

end NodeTable

/-! ## Programs -/

namespace Program

variable {lexemes : List Lexeme} {program : Program}

/-- The table of a program that was read is in source order. -/
theorem inSourceOrder_nodeTable (h : InOrder lexemes) (hread : Program.ofTokens? lexemes = .ok program) :
    program.nodeTable.InSourceOrder := by
  have hnests := Program.nests_nodeTable h hread
  have hnode {number c : Nat} (hchild : program.nodeTable.Child number c) :
      ∃ below, program.nodeTable[c]? = some below := by
    obtain ⟨node, hnode, hc⟩ := hchild
    exact ⟨_, Array.getElem?_eq_getElem (program.child_bounds hnode hc).2.1⟩
  constructor
  · rintro number c ⟨node, hnode, hc⟩
    exact (program.child_bounds hnode hc).1
  · rintro number c hpos ⟨node, hnode, hc⟩
    exact (program.child_bounds hnode hc).2.2 hpos
  · intro number node hpos hnode
    rw [NodeTable.spanOf_eq hnode]
    exact hnests.nonempty hpos hnode
  · intro number c hchild
    obtain ⟨below, hbelow⟩ := hnode hchild
    obtain ⟨node, hnumber, hc⟩ := hchild
    obtain ⟨slot, hslot⟩ := List.mem_iff_getElem?.mp hc
    rw [NodeTable.spanOf_eq hnumber, NodeTable.spanOf_eq hbelow]
    refine hnests.inside hnumber (NodeTable.child?_eq_some.mpr ⟨node, ?_, hslot⟩) hbelow
    rw [Array.getElem?_toList, hnumber]
  · intro number node hnumber
    refine List.pairwise_iff_getElem.mpr ?_
    intro slot later hslot hlater hlt
    obtain ⟨below, hbelow⟩ := hnode ⟨node, hnumber, List.getElem_mem hslot⟩
    obtain ⟨below', hbelow'⟩ := hnode ⟨node, hnumber, List.getElem_mem hlater⟩
    -- two slots of one node, of which the first comes earlier in the source
    have hchild? {slot : Nat} (hslot : slot < node.children.length) :
        program.nodeTable.child? number slot = some node.children[slot] := by
      refine NodeTable.child?_eq_some.mpr ⟨node, ?_, List.getElem?_eq_getElem hslot⟩
      rw [Array.getElem?_toList, hnumber]
    rw [NodeTable.spanOf_eq hbelow, NodeTable.spanOf_eq hbelow']
    exact hnests.apart hlt (hchild? hslot) (hchild? hlater) hbelow hbelow'

/-- Functions follow one another. -/
theorem apart_functions (h : program.nodeTable.InSourceOrder) :
    program.nodeTable.Apart (program.numberedFunctions.map Prod.fst) := by
  rcases program.nodeTable_unfolds with ⟨hroot, _⟩
  rw [(program.numberedFunctions_spec hroot).1]
  constructor
  · intro number hnumber
    exact h.pos ⟨_, hroot, (List.mem_filter.mp hnumber).1⟩
  · exact (h.apart hroot).filter _

theorem unfolds_function {found : Nat × Function} (hfound : found ∈ program.numberedFunctions) :
    program.nodeTable.Unfolds found.1 found.2.outline := by
  rcases program.nodeTable_unfolds with ⟨hroot, _⟩
  exact (program.numberedFunctions_spec hroot).2 found hfound

end Program

end MeteredScript
