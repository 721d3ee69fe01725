import MeteredScript.Proofs.Covering
import MeteredScript.Proofs.Numbering

namespace MeteredScript

/-! # Ranges of nodes

The tokens of a source text are not empty and follow one another. Hence the range of the tokens between
two places starts with the first and stops with the last of them, lies inside the range of more tokens,
and is in front of the range of later ones. A tree that is laid over such tokens therefore has ranges
that nest. Main statement: so do the ranges in the node table of a program that was read
(`NodeTable.Nests`).
-/

/-! ## Tokens in order -/

/-- Tokens that are not empty and follow one another. -/
structure InOrder (lexemes : List Lexeme) : Prop where
  start_lt_stop : ∀ lexeme ∈ lexemes, lexeme.span.start < lexeme.span.stop
  stop_le_start : lexemes.Pairwise fun lexeme later => lexeme.span.stop ≤ later.span.start

theorem Parts.inOrder {front cs : List Char} {lexemes : List Lexeme} (h : Parts front cs lexemes) :
    InOrder lexemes := by
  refine ⟨?_, h.pairwise⟩
  intro lexeme hlexeme
  obtain ⟨before, c, word, behind, _, hstands⟩ := h.exists_standsAt lexeme hlexeme
  have hpos := Char.utf8Size_pos c
  have hword := byteLength_cons c word
  rw [hstands.span]
  dsimp only
  omega

namespace InOrder

variable {lexemes : List Lexeme} (h : InOrder lexemes) {i j k l : Nat}
include h

/-- A place is in front of the next token, which is in front of the next place. -/
theorem step (hi : i < lexemes.length) :
    (Cursor.past lexemes i).reached ≤ (Cursor.past lexemes i).span.start ∧
      (Cursor.past lexemes i).span.start < (Cursor.past lexemes (i + 1)).reached := by
  rw [Cursor.span_past hi, Cursor.reached_past_succ hi]
  refine ⟨?_, h.start_lt_stop _ (List.getElem_mem hi)⟩
  cases i with
  | zero => exact Nat.zero_le _
  | succ i =>
    have hi' : i < lexemes.length := Nat.lt_of_succ_lt hi
    rw [Cursor.reached_past_succ hi']
    exact List.pairwise_iff_getElem.mp h.stop_le_start i (i + 1) hi' hi (Nat.lt_succ_self i)

theorem reached_le (hij : i ≤ j) (hj : j ≤ lexemes.length) :
    (Cursor.past lexemes i).reached ≤ (Cursor.past lexemes j).reached := by
  induction hij with
  | refl => exact Nat.le_refl _
  | step _ ih =>
    obtain ⟨hbefore, hbehind⟩ := h.step hj
    exact Nat.le_trans (ih (Nat.le_of_succ_le hj)) (Nat.le_trans hbefore (Nat.le_of_lt hbehind))

theorem reached_le_start (hij : i ≤ j) (hj : j < lexemes.length) :
    (Cursor.past lexemes i).reached ≤ (Cursor.past lexemes j).span.start :=
  Nat.le_trans (h.reached_le hij (Nat.le_of_lt hj)) (h.step hj).1

theorem start_lt_reached (hij : i < j) (hj : j ≤ lexemes.length) :
    (Cursor.past lexemes i).span.start < (Cursor.past lexemes j).reached :=
  Nat.lt_of_lt_of_le (h.step (Nat.lt_of_lt_of_le hij hj)).2 (h.reached_le hij hj)

theorem start_le_start (hij : i ≤ j) (hj : j < lexemes.length) :
    (Cursor.past lexemes i).span.start ≤ (Cursor.past lexemes j).span.start := by
  rcases Nat.eq_or_lt_of_le hij with rfl | hlt
  · exact Nat.le_refl _
  · have hfirst := (h.step (Nat.lt_trans hlt hj)).2
    exact Nat.le_trans (Nat.le_of_lt hfirst) (h.reached_le_start hlt hj)

/-- A range stops with the last of its tokens. -/
theorem stop_extent (hij : i < j) (hj : j ≤ lexemes.length) :
    (extent lexemes i j).stop = (Cursor.past lexemes j).reached := by
  have hi := Nat.lt_of_lt_of_le hij hj
  have hstop : (Cursor.past lexemes i).span.stop ≤ (Cursor.past lexemes j).reached := by
    rw [Cursor.span_past hi, ← Cursor.reached_past_succ hi]
    exact h.reached_le hij hj
  exact Nat.max_eq_left hstop

theorem extent_nonempty (hij : i < j) (hj : j ≤ lexemes.length) :
    (extent lexemes i j).start < (extent lexemes i j).stop := by
  rw [h.stop_extent hij hj]
  exact h.start_lt_reached hij hj

/-- Ranges of later tokens come later. -/
theorem stop_extent_le (hij : i < j) (hjk : j ≤ k) (hk : k < lexemes.length) :
    (extent lexemes i j).stop ≤ (extent lexemes k l).start := by
  rw [h.stop_extent hij (by omega)]
  exact h.reached_le_start hjk hk

omit h in
/-- A range starts where some token does. -/
theorem exists_start_extent (j : Nat) (hi : i < lexemes.length) :
    ∃ lexeme ∈ lexemes, lexeme.span.start = (extent lexemes i j).start := by
  refine ⟨lexemes[i], List.getElem_mem hi, ?_⟩
  rw [← Cursor.span_past hi]
  rfl

/-- A range stops where some token does. -/
theorem exists_stop_extent (hij : i < j) (hj : j ≤ lexemes.length) :
    ∃ lexeme ∈ lexemes, lexeme.span.stop = (extent lexemes i j).stop := by
  obtain ⟨k, rfl⟩ := Nat.exists_eq_add_of_lt hij
  refine ⟨lexemes[i + k], List.getElem_mem hj, ?_⟩
  rw [h.stop_extent hij hj, Cursor.reached_past_succ hj]

end InOrder

/-! ## Outlines -/

/-- What is below the outline is laid over tokens inside its range. -/
def Outline.LaidInside (lexemes : List Lexeme) (outline : Outline) : Prop :=
  ∃ i j leaves, j ≤ lexemes.length ∧ outline.span.start ≤ (Cursor.past lexemes i).span.start ∧
    (Cursor.past lexemes j).reached ≤ outline.span.stop ∧ Laid lexemes i j outline.children leaves

section Outlines

variable {lexemes : List Lexeme} (h : InOrder lexemes)
include h

/-- Outlines that are laid over tokens follow one another. -/
theorem Laid.pairwise {i j : Nat} {outlines : List Outline} {leaves : List Leaf}
    (hlaid : Laid lexemes i j outlines leaves) (hj : j ≤ lexemes.length) :
    outlines.Pairwise fun outline later => outline.span.stop ≤ later.span.start := by
  induction hlaid with
  | nil => exact .nil
  | skip _ _ _ ih | leaf _ _ _ _ ih => exact ih hj
  | node hlt _ hrest _ ih =>
    refine .cons ?_ (ih hj)
    intro later hlater
    obtain ⟨a, b, _, hka, hab, hbj, hextent, _⟩ := hrest.exists_of_mem later hlater
    rw [hextent]
    exact h.stop_extent_le hlt hka (by omega)

/-- What is directly below such an outline has tokens, and they are inside the outline's range. -/
theorem Outline.LaidInside.exists_extent {outline child : Outline}
    (hinside : outline.LaidInside lexemes) (hchild : child ∈ outline.children) :
    ∃ a b, a < b ∧ b ≤ lexemes.length ∧ child.span = extent lexemes a b ∧
      outline.span.start ≤ child.span.start ∧ child.span.stop ≤ outline.span.stop ∧
      ∃ leaves, Laid lexemes a b child.children leaves := by
  obtain ⟨i, j, _, hj, hstart, hstop, hlaid⟩ := hinside
  obtain ⟨a, b, leaves, hia, hab, hbj, hextent, hbelow⟩ := hlaid.exists_of_mem child hchild
  have hb := Nat.le_trans hbj hj
  refine ⟨a, b, hab, hb, hextent, ?_, ?_, leaves, hbelow⟩
  · rw [hextent]
    exact Nat.le_trans hstart (h.start_le_start hia (Nat.lt_of_lt_of_le hab hb))
  · rw [hextent, h.stop_extent hab hb]
    exact Nat.le_trans (h.reached_le hbj hj) hstop

theorem Outline.inherited_laidInside : NodeTable.Inherited (Outline.LaidInside lexemes) := by
  intro outline hinside child hchild
  obtain ⟨a, b, hab, hb, hextent, _, _, leaves, hbelow⟩ := hinside.exists_extent h hchild
  have hstart : child.span.start = (Cursor.past lexemes a).span.start := by
    rw [hextent]
    rfl
  have hstop : child.span.stop = (Cursor.past lexemes b).reached := by
    rw [hextent, h.stop_extent hab hb]
  exact ⟨a, b, leaves, hb, Nat.le_of_eq hstart, Nat.le_of_eq hstop.symm, hbelow⟩

end Outlines

theorem Program.laidInside_outline {lexemes : List Lexeme} {program : Program}
    (h : Program.ofTokens? lexemes = .ok program) : program.outline.LaidInside lexemes := by
  obtain ⟨hlaid, hspan⟩ := Program.laid_of_ofTokens? h
  have hstart : program.span.start = 0 := congrArg Span.start hspan
  have hstop : program.span.stop = (Cursor.past lexemes lexemes.length).reached :=
    congrArg Span.stop hspan
  refine ⟨0, _, _, Nat.le_refl _, ?_, Nat.le_of_eq hstop.symm, hlaid⟩
  exact Nat.le_trans (Nat.le_of_eq hstart) (Nat.zero_le _)

/-! ## Nodes -/

/-- The ranges of a table's nodes are made of tokens and nest. -/
structure NodeTable.Nests (table : NodeTable) (lexemes : List Lexeme) : Prop where
  nonempty {number : Nat} {node : NumberedNode} : 0 < number → table[number]? = some node →
    node.span.start < node.span.stop
  starts {number : Nat} {node : NumberedNode} : 0 < number → table[number]? = some node →
    ∃ lexeme ∈ lexemes, lexeme.span.start = node.span.start
  stops {number : Nat} {node : NumberedNode} : 0 < number → table[number]? = some node →
    ∃ lexeme ∈ lexemes, lexeme.span.stop = node.span.stop
  inside {number slot child : Nat} {node below : NumberedNode} : table[number]? = some node →
    table.child? number slot = some child → table[child]? = some below →
    node.span.start ≤ below.span.start ∧ below.span.stop ≤ node.span.stop
  apart {number slot later child child' : Nat} {below below' : NumberedNode} : slot < later →
    table.child? number slot = some child → table.child? number later = some child' →
    table[child]? = some below → table[child']? = some below' →
    below.span.stop ≤ below'.span.start

namespace NodeTable

variable {table : NodeTable}

/-- The outline in a slot. -/
theorem UnfoldsAll.exists_of_slot {numbers : List Nat} {outlines : List Outline} {slot child : Nat}
    (h : table.UnfoldsAll numbers outlines) (hslot : numbers[slot]? = some child) :
    ∃ outline, outlines[slot]? = some outline ∧ table.Unfolds child outline := by
  induction slot generalizing numbers outlines with
  | zero =>
    rcases h with _ | ⟨hfirst, _⟩
    · cases hslot
    · cases hslot
      exact ⟨_, rfl, hfirst⟩
  | succ slot ih =>
    rcases h with _ | ⟨_, hrest⟩
    · cases hslot
    · exact ih hrest hslot

theorem Unfolds.span_eq {number : Nat} {outline : Outline} {node : NumberedNode}
    (h : table.Unfolds number outline) (hnode : table[number]? = some node) :
    outline.span = node.span := by
  rcases h with ⟨hnode', _⟩
  rcases Option.some.inj (hnode.symm.trans hnode') with rfl
  rfl

/-- What stands in a slot of a node that unfolds to an outline. -/
theorem Unfolds.exists_of_slot {number slot child : Nat} {outline : Outline} {below : NumberedNode}
    (h : table.Unfolds number outline) (hslot : table.child? number slot = some child)
    (hbelow : table[child]? = some below) :
    ∃ o, outline.children[slot]? = some o ∧ o.span = below.span := by
  rcases h with ⟨hnode, hchildren⟩
  obtain ⟨node, hnode', hnumber⟩ := child?_eq_some.mp hslot
  rw [Array.getElem?_toList, hnode] at hnode'
  rcases Option.some.inj hnode' with rfl
  obtain ⟨o, ho, hunfolds⟩ := hchildren.exists_of_slot hnumber
  exact ⟨o, ho, hunfolds.span_eq hbelow⟩

end NodeTable

/-- The nodes of a program that was read from tokens in order nest. -/
theorem Program.nests_nodeTable {lexemes : List Lexeme} {program : Program} (h : InOrder lexemes)
    (hread : Program.ofTokens? lexemes = .ok program) : program.nodeTable.Nests lexemes := by
  have hcovered := (NodeTable.ofOutline_spec (Outline.inherited_laidInside h) program.outline
    (Program.laidInside_outline hread)).2
  have hunfolds : ∀ {number : Nat} {node : NumberedNode}, program.nodeTable[number]? = some node →
      ∃ outline, program.nodeTable.Unfolds number outline ∧ outline.LaidInside lexemes := by
    intro number node hnode
    exact hcovered number (Nat.zero_le _) (Array.getElem?_eq_some_iff.mp hnode).1
  -- a node other than the program is below another, where it has tokens
  have hextent : ∀ {number : Nat} {node : NumberedNode}, 0 < number →
      program.nodeTable[number]? = some node →
      ∃ a b, a < b ∧ b ≤ lexemes.length ∧ node.span = extent lexemes a b := by
    intro number node hpos hnode
    obtain ⟨⟨parent, slot⟩, hslot, _⟩ :=
      program.existsUnique_slot hpos (Array.getElem?_eq_some_iff.mp hnode).1
    obtain ⟨above, habove, _⟩ := NodeTable.child?_eq_some.mp hslot
    rw [Array.getElem?_toList] at habove
    obtain ⟨outline, houtline, hinside⟩ := hunfolds habove
    obtain ⟨o, ho, hspan⟩ := houtline.exists_of_slot hslot hnode
    obtain ⟨a, b, hab, hb, hextent, _⟩ := hinside.exists_extent h (List.mem_of_getElem? ho)
    exact ⟨a, b, hab, hb, hspan.symm.trans hextent⟩
  constructor
  · intro number node hpos hnode
    obtain ⟨a, b, hab, hb, hspan⟩ := hextent hpos hnode
    rw [hspan]
    exact h.extent_nonempty hab hb
  · intro number node hpos hnode
    obtain ⟨a, b, hab, hb, hspan⟩ := hextent hpos hnode
    rw [hspan]
    exact InOrder.exists_start_extent b (Nat.lt_of_lt_of_le hab hb)
  · intro number node hpos hnode
    obtain ⟨a, b, hab, hb, hspan⟩ := hextent hpos hnode
    rw [hspan]
    exact h.exists_stop_extent hab hb
  · intro number slot child node below hnode hslot hbelow
    obtain ⟨outline, houtline, hinside⟩ := hunfolds hnode
    obtain ⟨o, ho, hspan⟩ := houtline.exists_of_slot hslot hbelow
    obtain ⟨a, b, _, _, _, hstart, hstop, _⟩ :=
      hinside.exists_extent h (List.mem_of_getElem? ho)
    rw [← hspan, ← houtline.span_eq hnode]
    exact ⟨hstart, hstop⟩
  · intro number slot later child child' below below' hlt hslot hslot' hbelow hbelow'
    obtain ⟨node, hnode, _⟩ := NodeTable.child?_eq_some.mp hslot
    rw [Array.getElem?_toList] at hnode
    -- siblings have the outlines of one list, and that is laid over the tokens from left to right
    obtain ⟨outline, houtline, i, j, _, hj, _, _, hlaid⟩ := hunfolds hnode
    obtain ⟨o, ho, hspan⟩ := houtline.exists_of_slot hslot hbelow
    obtain ⟨o', ho', hspan'⟩ := houtline.exists_of_slot hslot' hbelow'
    obtain ⟨hs, rfl⟩ := List.getElem?_eq_some_iff.mp ho
    obtain ⟨hs', rfl⟩ := List.getElem?_eq_some_iff.mp ho'
    rw [← hspan, ← hspan']
    exact List.pairwise_iff_getElem.mp (hlaid.pairwise h hj) slot later hs hs' hlt

end MeteredScript
