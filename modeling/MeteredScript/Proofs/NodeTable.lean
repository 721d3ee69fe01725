import MeteredScript.Tree.NodeTable

namespace MeteredScript

/-! # What a node table holds

A table of numbered nodes is a flat form of an outline: following the numbers from a node unfolds it
again. The nodes of an outline lie next to each other, those below a node in front of it, and a table
holds nothing else. So the table of a program unfolds at number zero to the program's outline, and
every node of the table unfolds to a part of it.
-/

namespace NodeTable

mutual

/-- Following the numbers from the node `number` gives the outline. -/
inductive Unfolds (table : NodeTable) : Nat → Outline → Prop
  | node {number : Nat} {label : Label} {span : Span} {numbers : List Nat} {children : List Outline}
      (hnode : table[number]? = some ⟨label, span, numbers⟩)
      (hchildren : UnfoldsAll table numbers children) :
      Unfolds table number (.node label span children)

/-- Following each of the numbers gives the outline at its place. -/
inductive UnfoldsAll (table : NodeTable) : List Nat → List Outline → Prop
  | nil : UnfoldsAll table [] []
  | cons {number : Nat} {numbers : List Nat} {outline : Outline} {outlines : List Outline}
      (hfirst : Unfolds table number outline) (hrest : UnfoldsAll table numbers outlines) :
      UnfoldsAll table (number :: numbers) (outline :: outlines)

end

variable {table : NodeTable}

/-- There are as many numbers as outlines. -/
theorem UnfoldsAll.length_eq {numbers : List Nat} {outlines : List Outline}
    (h : table.UnfoldsAll numbers outlines) : numbers.length = outlines.length := by
  induction outlines generalizing numbers with
  | nil =>
    rcases h with _ | _
    rfl
  | cons outline outlines ih =>
    rcases h with _ | ⟨_, hrest⟩
    rw [List.length_cons, List.length_cons, ih hrest]

mutual

theorem Unfolds.unique {number : Nat} {outline outline' : Outline} (h : table.Unfolds number outline)
    (h' : table.Unfolds number outline') : outline = outline' := by
  cases h with
  | node hnode hchildren =>
    cases h' with
    | node hnode' hchildren' =>
      cases hnode.symm.trans hnode'
      rw [hchildren.unique hchildren']

theorem UnfoldsAll.unique {numbers : List Nat} {outlines outlines' : List Outline}
    (h : table.UnfoldsAll numbers outlines) (h' : table.UnfoldsAll numbers outlines') :
    outlines = outlines' := by
  cases h with
  | nil =>
    cases h'
    rfl
  | cons hfirst hrest =>
    cases h' with
    | cons hfirst' hrest' => rw [hfirst.unique hfirst', hrest.unique hrest']

end

/-! ## Adding outlines -/

/-- The tables agree on the numbers from `low` on and below `high`. -/
def AgreeOn (low high : Nat) (table table' : NodeTable) : Prop :=
  ∀ number, low ≤ number → number < high → table[number]? = table'[number]?

theorem AgreeOn.mono {low high low' high' : Nat} {table table' : NodeTable}
    (h : AgreeOn low high table table') (hlow : low ≤ low') (hhigh : high' ≤ high) :
    AgreeOn low' high' table table' :=
  fun number hl hh => h number (Nat.le_trans hlow hl) (Nat.lt_of_lt_of_le hh hhigh)

theorem AgreeOn.trans {low high : Nat} {table table' table'' : NodeTable}
    (h : AgreeOn low high table table') (h' : AgreeOn low high table' table'') :
    AgreeOn low high table table'' :=
  fun number hl hh => (h number hl hh).trans (h' number hl hh)

/-- Adding a node leaves those before it as they are. -/
theorem agreeOn_push (table : NodeTable) (node : NumberedNode) :
    AgreeOn 0 table.size (table.push node) table := by
  intro number _ hlt
  rw [Array.getElem?_push_lt hlt, Array.getElem?_eq_getElem hlt]

/-- Numbers from `low` on and below `high` unfold to outlines that satisfy `P`. -/
def CoveredBy (P : Outline → Prop) (low high : Nat) (table : NodeTable) : Prop :=
  ∀ number, low ≤ number → number < high → ∃ outline, table.Unfolds number outline ∧ P outline

/-- What adding an outline does: the table keeps what it had, the outline's last node is the new last
node, and wherever the new nodes are kept the outline unfolds and is all that they unfold to. -/
structure Adds (P : Outline → Prop) (before after : NodeTable) (outline : Outline) : Prop where
  size_lt : before.size < after.size
  agree : AgreeOn 0 before.size after before
  unfolds {table : NodeTable} : AgreeOn before.size after.size table after →
    table.Unfolds (after.size - 1) outline
  covered {table : NodeTable} : AgreeOn before.size after.size table after →
    CoveredBy P before.size after.size table

/-- What adding outlines does; `numbers` are the numbers they get. -/
structure AddsAll (P : Outline → Prop) (before after : NodeTable) (numbers : List Nat)
    (outlines : List Outline) : Prop where
  size_le : before.size ≤ after.size
  agree : AgreeOn 0 before.size after before
  unfolds {table : NodeTable} : AgreeOn before.size after.size table after →
    table.UnfoldsAll numbers outlines
  covered {table : NodeTable} : AgreeOn before.size after.size table after →
    CoveredBy P before.size after.size table

variable {P : Outline → Prop} {before middle after : NodeTable}

theorem AddsAll.nil : AddsAll P before before [] [] where
  size_le := Nat.le_refl _
  agree := fun _ _ _ => rfl
  unfolds := fun _ => .nil
  covered := fun _ _ hl hh => absurd hh (Nat.not_lt.mpr hl)

/-- Outlines are added one behind the other, each with the number of its last row. -/
theorem AddsAll.cons {outline : Outline} {numbers : List Nat} {outlines : List Outline}
    (hfirst : Adds P before middle outline) (hrest : AddsAll P middle after numbers outlines) :
    AddsAll P before after ((middle.size - 1) :: numbers) (outline :: outlines) := by
  have hlt := hfirst.size_lt
  have hle := hrest.size_le
  -- the nodes of the first outline are still there when the others have been added
  have hkept : ∀ {table : NodeTable}, AgreeOn before.size after.size table after →
      AgreeOn before.size middle.size table middle := by
    intro table h
    exact (h.mono (Nat.le_refl _) hle).trans (hrest.agree.mono (Nat.zero_le _) (Nat.le_refl _))
  constructor
  · omega
  · exact (hrest.agree.mono (Nat.le_refl _) (Nat.le_of_lt hlt)).trans hfirst.agree
  · intro table h
    exact .cons (hfirst.unfolds (hkept h)) (hrest.unfolds (h.mono (Nat.le_of_lt hlt) (Nat.le_refl _)))
  · intro table h number hl hh
    rcases Nat.lt_or_ge number middle.size with hfront | hback
    · exact hfirst.covered (hkept h) number hl hfront
    · exact hrest.covered (h.mono (Nat.le_of_lt hlt) (Nat.le_refl _)) number hback hh

/-- A node is added behind those below it. -/
theorem Adds.node {label : Label} {span : Span} {numbers : List Nat} {children : List Outline}
    (hchildren : AddsAll P before middle numbers children) (hP : P (.node label span children)) :
    Adds P before (middle.push ⟨label, span, numbers⟩) (.node label span children) := by
  have hle := hchildren.size_le
  have hsize : (middle.push ⟨label, span, numbers⟩).size = middle.size + 1 := Array.size_push _
  have hkept : ∀ {table : NodeTable},
      AgreeOn before.size (middle.push ⟨label, span, numbers⟩).size table
        (middle.push ⟨label, span, numbers⟩) → AgreeOn before.size middle.size table middle := by
    intro table h
    exact (h.mono (Nat.le_refl _) (by omega)).trans
      ((agreeOn_push middle _).mono (Nat.zero_le _) (Nat.le_refl _))
  -- The new number unfolds in every table that agrees with this one on the numbers just added.
  have hlast : ∀ {table : NodeTable},
      AgreeOn before.size (middle.push ⟨label, span, numbers⟩).size table
        (middle.push ⟨label, span, numbers⟩) →
      table.Unfolds middle.size (.node label span children) := by
    intro table h
    have hnode : table[middle.size]? = some ⟨label, span, numbers⟩ := by
      rw [h middle.size hle (by omega), Array.getElem?_push_size]
    exact .node hnode (hchildren.unfolds (hkept h))
  constructor
  · omega
  · exact ((agreeOn_push middle _).mono (Nat.le_refl _) hle).trans hchildren.agree
  · intro table h
    rw [hsize]
    exact hlast h
  · intro table h number hl hh
    -- A number below belongs to a child, and the last one is the node itself.
    rcases Nat.lt_or_ge number middle.size with hbelow | hself
    · exact hchildren.covered (hkept h) number hl hbelow
    · obtain rfl : number = middle.size := by omega
      exact ⟨_, hlast h, hP⟩

/-- A property that what is below an outline has if the outline has it. -/
def Inherited (P : Outline → Prop) : Prop :=
  ∀ outline, P outline → ∀ child ∈ outline.children, P child

mutual

/-- Adding an outline adds rows that unfold to it, and no others. -/
theorem adds_add (hclosed : Inherited P) (level : Nat) (table : NodeTable) (outline : Outline)
    (hP : P outline) : Adds P table (add level table outline) outline := by
  cases outline with
  | node label span children =>
    obtain ⟨numbers, hnumbers, hadds⟩ :=
      addsAll_addAll hclosed (level + 1) table [] children (hclosed _ hP)
    unfold add
    rw [deepen_eq]
    dsimp only
    rw [hnumbers]
    exact Adds.node hadds hP

/-- Adding several outlines gives their numbers in order, behind those of earlier ones. -/
theorem addsAll_addAll (hclosed : Inherited P) (level : Nat) (table : NodeTable) (earlier : List Nat)
    (outlines : List Outline) (hP : ∀ outline ∈ outlines, P outline) :
    ∃ numbers, (addAll level table earlier outlines).2 = earlier.reverse ++ numbers ∧
      AddsAll P table (addAll level table earlier outlines).1 numbers outlines := by
  cases outlines with
  | nil =>
    refine ⟨[], ?_, ?_⟩
    · rw [addAll, List.append_nil]
    · rw [addAll]
      exact .nil
  | cons outline rest =>
    have hfirst := adds_add hclosed level table outline (hP outline List.mem_cons_self)
    obtain ⟨numbers, hnumbers, hrest⟩ := addsAll_addAll hclosed level (add level table outline)
      (((add level table outline).size - 1) :: earlier) rest
      fun o ho => hP o (List.mem_cons_of_mem outline ho)
    rw [addAll]
    refine ⟨((add level table outline).size - 1) :: numbers, ?_, .cons hfirst hrest⟩
    rw [hnumbers, List.reverse_cons, List.append_assoc, List.singleton_append]

end

/-- The table of an outline unfolds at number zero to the outline, and all its nodes unfold to parts
of the outline. -/
theorem ofOutline_spec (hclosed : Inherited P) (outline : Outline) (hP : P outline) :
    (ofOutline outline).Unfolds 0 outline ∧
      CoveredBy P 0 (ofOutline outline).size (ofOutline outline) := by
  obtain ⟨label, span, children⟩ := outline
  let root : NumberedNode := ⟨label, span, []⟩
  obtain ⟨numbers, hnumbers, hadds⟩ := addsAll_addAll hclosed 0 #[root] [] children (hclosed _ hP)
  let added := (addAll 0 #[root] [] children).1
  have htable : ofOutline (.node label span children) =
      added.modify 0 fun node => { node with children := numbers } := by
    have hnumbers' : (addAll 0 #[root] [] children).2 = numbers := hnumbers
    rw [← hnumbers']
    rfl
  have hsize : 0 < added.size := hadds.size_le
  have hroot : added[0]? = some root := hadds.agree 0 (Nat.le_refl 0) Nat.one_pos
  -- only the entry of the program itself is changed in the end
  have hkept : AgreeOn 1 added.size (ofOutline (.node label span children)) added := by
    intro number hl _
    rw [htable, Array.getElem?_modify, if_neg (by omega)]
  have hzero : (ofOutline (.node label span children))[0]? = some ⟨label, span, numbers⟩ := by
    rw [htable, Array.getElem?_modify, if_pos rfl, hroot]
    rfl
  have hunfolds := Unfolds.node hzero (hadds.unfolds hkept)
  refine ⟨hunfolds, fun number _ hlt => ?_⟩
  rcases Nat.eq_zero_or_pos number with rfl | hpos
  · exact ⟨_, hunfolds, hP⟩
  · have hlt' : number < added.size := by
      rwa [htable, Array.size_modify] at hlt
    exact hadds.covered hkept number hpos hlt'

end NodeTable

theorem Program.nodeTable_unfolds (program : Program) :
    program.nodeTable.Unfolds 0 program.outline := by
  have hclosed : NodeTable.Inherited fun _ => True := fun _ _ _ _ => trivial
  exact (NodeTable.ofOutline_spec hclosed program.outline trivial).1

end MeteredScript
