import Mathlib.Data.List.Nodup
import MeteredScript.Proofs.Kinds

namespace MeteredScript

/-! # Numbers of nodes

The numbers of a program's nodes form a tree that is written in post-order: what is below a node has
smaller numbers, and every node but the program is below exactly one other, in exactly one slot.
`Tops` carries this through the numbering. It says of nodes that lie next to each other that each of
them is below exactly one of the others, or is one of the given tops. The kinds of nodes add that the
program is the only node of its kind and that functions stand directly below it, so that
`Program.numberedFunctions` lists them all.
-/

namespace NodeTable

/-! ## Nodes next to each other -/

/-- Nodes with the numbers from `low` on, all of which are below exactly one of them but for the
numbers `tops`, which are below none. -/
structure Tops (low : Nat) (nodes : List NumberedNode) (tops : List Nat) : Prop where
  earlier {k : Nat} {node : NumberedNode} : nodes[k]? = some node →
    ∀ child ∈ node.children, low ≤ child ∧ child < low + k
  ordered {node : NumberedNode} : node ∈ nodes → node.children.Pairwise (· < ·)
  increasing : tops.Pairwise (· < ·)
  once : (nodes.flatMap NumberedNode.children ++ tops).Perm (List.range' low nodes.length)

namespace Tops

variable {low : Nat} {nodes nodes' : List NumberedNode} {tops tops' : List Nat}

theorem nil (low : Nat) : Tops low [] [] := by
  refine ⟨?_, ?_, List.Pairwise.nil, List.Perm.refl _⟩
  · intro k node hnode
    simp at hnode
  · intro node hnode
    simp at hnode

theorem mem_bounds (h : Tops low nodes tops) {number : Nat} (hnumber : number ∈ tops) :
    low ≤ number ∧ number < low + nodes.length := by
  have hmem := h.once.mem_iff.mp (List.mem_append_right _ hnumber)
  exact List.mem_range'_1.mp hmem

/-- Nodes behind others. What was on top stays there, and the new tops come behind. -/
theorem append (h : Tops low nodes tops) (h' : Tops (low + nodes.length) nodes' tops') :
    Tops low (nodes ++ nodes') (tops ++ tops') := by
  constructor
  · intro k node hnode child hchild
    rcases Nat.lt_or_ge k nodes.length with hfront | hback
    · rw [List.getElem?_append_left hfront] at hnode
      exact h.earlier hnode child hchild
    · rw [List.getElem?_append_right hback] at hnode
      have hbounds := h'.earlier hnode child hchild
      omega
  · intro node hnode
    rcases List.mem_append.mp hnode with hfront | hback
    · exact h.ordered hfront
    · exact h'.ordered hback
  · apply List.pairwise_append.mpr
    refine ⟨h.increasing, h'.increasing, ?_⟩
    intro number hnumber number' hnumber'
    have hbelow := h.mem_bounds hnumber
    have habove := h'.mem_bounds hnumber'
    omega
  · have hall : (nodes.flatMap NumberedNode.children ++ tops ++
        (nodes'.flatMap NumberedNode.children ++ tops')).Perm
        (List.range' low (nodes ++ nodes').length) := by
      rw [List.length_append, ← List.range'_append_1]
      exact h.once.append h'.once
    refine List.Perm.trans ?_ hall
    -- only the old tops and what is below the new nodes change places
    simp only [List.flatMap_append, List.append_assoc]
    apply List.Perm.append_left
    simp only [← List.append_assoc]
    apply List.Perm.append_right
    exact List.perm_append_comm

/-- A node that is put on top of all tops is the only one left. -/
theorem node (h : Tops low nodes tops) (label : Label) (span : Span) :
    Tops low (nodes ++ [⟨label, span, tops⟩]) [low + nodes.length] := by
  constructor
  · intro k node hnode child hchild
    rcases Nat.lt_or_ge k nodes.length with hfront | hback
    · rw [List.getElem?_append_left hfront] at hnode
      exact h.earlier hnode child hchild
    · rw [List.getElem?_append_right hback, List.getElem?_singleton] at hnode
      split at hnode
      · rcases Option.some.inj hnode with rfl
        have hbounds := h.mem_bounds hchild
        omega
      · simp at hnode
  · intro node hnode
    rcases List.mem_append.mp hnode with hfront | hlast
    · exact h.ordered hfront
    · rcases List.mem_singleton.mp hlast with rfl
      exact h.increasing
  · exact List.pairwise_singleton _ _
  -- the new node has the last number, and all tops so far are below it
  · have hlast : List.range' low (nodes ++ [(⟨label, span, tops⟩ : NumberedNode)]).length =
        List.range' low nodes.length ++ [low + nodes.length] := by
      rw [List.length_append, ← List.range'_append_1]
      rfl
    rw [hlast, List.flatMap_append, List.flatMap_singleton]
    exact h.once.append_right _

end Tops

theorem add_node (level : Nat) (table : NodeTable) (label : Label) (span : Span)
    (children : List Outline) :
    add level table (.node label span children) =
      (addAll (level + 1) table [] children).1.push
        ⟨label, span, (addAll (level + 1) table [] children).2⟩ := by
  rw [add, deepen_eq]

mutual

/-- Adding an outline leaves one top, its last node. -/
theorem tops_add (level : Nat) (table : NodeTable) (outline : Outline) :
    ∃ nodes, (add level table outline).toList = table.toList ++ nodes ∧
      Tops table.size nodes [(add level table outline).size - 1] := by
  rcases outline with ⟨label, span, children⟩
  obtain ⟨nodes, tops, hnodes, htops, hall⟩ := tops_addAll (level + 1) table [] children
  rw [List.reverse_nil, List.nil_append] at htops
  refine ⟨nodes ++ [⟨label, span, tops⟩], ?_, ?_⟩
  · rw [add_node, htops, Array.toList_push, hnodes, List.append_assoc]
  · have hsize : (add level table (.node label span children)).size - 1 =
        table.size + nodes.length := by
      rw [add_node, Array.size_push, Nat.add_sub_cancel, ← Array.length_toList, hnodes,
        List.length_append, Array.length_toList]
    rw [hsize]
    exact hall.node label span

/-- Adding outlines in a row leaves one top for each. -/
theorem tops_addAll (level : Nat) (table : NodeTable) (earlier : List Nat)
    (outlines : List Outline) :
    ∃ nodes tops, (addAll level table earlier outlines).1.toList = table.toList ++ nodes ∧
      (addAll level table earlier outlines).2 = earlier.reverse ++ tops ∧
      Tops table.size nodes tops := by
  rcases outlines with _ | ⟨outline, rest⟩
  · refine ⟨[], [], ?_, ?_, .nil _⟩
    · rw [addAll, List.append_nil]
    · rw [addAll, List.append_nil]
  · obtain ⟨nodes, hnodes, hfirst⟩ := tops_add level table outline
    obtain ⟨nodes', tops, hnodes', htops, hrest⟩ := tops_addAll level (add level table outline)
      (((add level table outline).size - 1) :: earlier) rest
    -- the second outline starts where the first one stops
    have hsize : (add level table outline).size = table.size + nodes.length := by
      rw [← Array.length_toList, hnodes, List.length_append, Array.length_toList]
    rw [hsize] at hrest
    refine ⟨nodes ++ nodes', [(add level table outline).size - 1] ++ tops, ?_, ?_, ?_⟩
    · rw [addAll, hnodes', hnodes, List.append_assoc]
    · rw [addAll, htops, List.reverse_cons, List.append_assoc]
    · exact hfirst.append hrest

end

/-- The table of an outline is its root, with all tops below it, and the nodes behind it. -/
theorem exists_tops_ofOutline (outline : Outline) :
    ∃ nodes tops, (ofOutline outline).toList = ⟨outline.label, outline.span, tops⟩ :: nodes ∧
      Tops 1 nodes tops := by
  rcases outline with ⟨label, span, children⟩
  obtain ⟨nodes, tops, hnodes, htops, hall⟩ := tops_addAll 0 #[⟨label, span, []⟩] [] children
  rw [List.reverse_nil, List.nil_append] at htops
  refine ⟨nodes, tops, ?_, hall⟩
  have htable : ofOutline (.node label span children) =
      (addAll 0 #[⟨label, span, []⟩] [] children).1.modify 0
        fun node => { node with children := tops } := by
    rw [← htops]
    rfl
  rw [htable, Array.toList_modify, hnodes]
  rfl

/-! ## Slots -/

def child? (table : NodeTable) (number slot : Nat) : Option Nat :=
  table[number]?.bind fun node => node.children[slot]?

variable {number : Nat}

/-- Where no number occurs twice, each has one slot. -/
theorem slot_unique {nodes : List NumberedNode} (h : (nodes.flatMap NumberedNode.children).Nodup)
    {p q k l : Nat} {node node' : NumberedNode} (hp : nodes[p]? = some node)
    (hk : node.children[k]? = some number) (hq : nodes[q]? = some node')
    (hl : node'.children[l]? = some number) : p = q ∧ k = l := by
  obtain ⟨hnodup, hdisjoint⟩ := List.nodup_flatMap.mp h
  -- nodes at different places have nothing in common
  have hapart : ∀ {p q : Nat} {node node' : NumberedNode}, nodes[p]? = some node →
      nodes[q]? = some node' → number ∈ node.children → number ∈ node'.children → ¬p < q := by
    intro p q node node' hp hq hmem hmem' hlt
    obtain ⟨hp', rfl⟩ := List.getElem?_eq_some_iff.mp hp
    obtain ⟨hq', rfl⟩ := List.getElem?_eq_some_iff.mp hq
    exact List.pairwise_iff_getElem.mp hdisjoint p q hp' hq' hlt hmem hmem'
  have hmem := List.mem_of_getElem? hk
  have hmem' := List.mem_of_getElem? hl
  have hpq : p = q := by
    have hlt := hapart hp hq hmem hmem'
    have hgt := hapart hq hp hmem' hmem
    omega
  subst hpq
  rcases Option.some.inj (hp.symm.trans hq) with rfl
  refine ⟨rfl, ?_⟩
  have hlt := (List.getElem?_eq_some_iff.mp hk).1
  exact (List.getElem?_inj hlt (hnodup node (List.mem_of_getElem? hp))).mp (hk.trans hl.symm)

variable {table : NodeTable} {root : NumberedNode} {nodes : List NumberedNode}

theorem child?_eq_some {slot child : Nat} :
    table.child? number slot = some child ↔
      ∃ node, table.toList[number]? = some node ∧ node.children[slot]? = some child := by
  unfold child?
  rw [Option.bind_eq_some_iff, Array.getElem?_toList]

/-- Behind a root that has all tops below it, every number is in exactly one slot. -/
theorem existsUnique_slot (htable : table.toList = root :: nodes) (h : Tops 1 nodes root.children)
    (hpos : 0 < number) (hlt : number < table.size) :
    ∃! place : Nat × Nat, table.child? place.1 place.2 = some number := by
  have hsize : table.size = nodes.length + 1 := by
    rw [← Array.length_toList, htable, List.length_cons]
  -- the numbers below all nodes, taken together, are each number once
  have hall : ((root :: nodes).flatMap NumberedNode.children).Perm
      (List.range' 1 nodes.length) := by
    rw [List.flatMap_cons]
    exact List.perm_append_comm.trans h.once
  have hmem : number ∈ (root :: nodes).flatMap NumberedNode.children := by
    apply hall.mem_iff.mpr
    apply List.mem_range'_1.mpr
    omega
  obtain ⟨node, hnode, hchild⟩ := List.mem_flatMap.mp hmem
  obtain ⟨p, hp⟩ := List.mem_iff_getElem?.mp hnode
  obtain ⟨k, hk⟩ := List.mem_iff_getElem?.mp hchild
  refine ⟨(p, k), ?_, ?_⟩
  · rw [← htable] at hp
    exact child?_eq_some.mpr ⟨node, hp, hk⟩
  · rintro ⟨q, l⟩ hplace
    obtain ⟨node', hq, hl⟩ := child?_eq_some.mp hplace
    rw [htable] at hq
    have hnodup := hall.nodup_iff.mpr (List.nodup_range' 1)
    obtain ⟨rfl, rfl⟩ := slot_unique hnodup hp hk hq hl
    rfl

end NodeTable

/-! ## What stands below what -/

variable {label : Label}

theorem Kind.exists_of_admitsAll {kinds : List Kind} {labels : List Label}
    (h : Kind.admitsAll kinds labels = true) (hmem : label ∈ labels) :
    ∃ kind ∈ kinds, kind.admits label = true := by
  fun_induction Kind.admitsAll kinds labels with
  | case1 => simp at hmem
  | case2 kind kinds first labels ih =>
    obtain ⟨hfirst, hrest⟩ := Bool.and_eq_true_iff.mp h
    rcases List.mem_cons.mp hmem with rfl | hmem
    · exact ⟨kind, List.mem_cons_self, hfirst⟩
    · obtain ⟨found, hfound, hadmits⟩ := ih hrest hmem
      exact ⟨found, List.mem_cons_of_mem kind hfound, hadmits⟩
  | case3 => simp at h

theorem Kind.not_admits_program (kind : Kind) : ¬kind.admits .program = true := by
  rcases kind with _ | _ | _ | _ | _ | _ | _ <;> simp [admits, Label.isFunction, Label.isStatement,
    Label.isExpression, Label.isPlace, Label.isStep, Label.isDeclaration]

theorem Kind.eq_item_of_admits {kind : Kind} (h : kind.admits label = true)
    (hlabel : label.isFunction = true) : kind = .item := by
  cases label with
  | function name params =>
    cases kind with
    | item => rfl
    | _ => simp [admits, Label.isStatement, Label.isExpression, Label.isPlace, Label.isStep,
        Label.isDeclaration] at h
  | _ => simp [Label.isFunction] at hlabel

theorem Kind.item_not_mem_expressions (names : List (String × Bool)) :
    Kind.item ∉ Kind.expressions names := by
  intro h
  obtain ⟨name, _, hname⟩ := List.mem_map.mp h
  simp at hname

/-- Only a program has a place for functions. -/
theorem Label.eq_program_of_item {count : Nat} (h : .item ∈ label.slots count) :
    label = .program := by
  cases label with
  | program => rfl
  | function name params | declare names => simp [slots, Kind.item_not_mem_expressions] at h
  | forLoop hasInit hasTest hasUpdate =>
    cases hasInit <;> cases hasTest <;> cases hasUpdate <;> simp [slots] at h
  | branch | returnValue =>
    simp only [slots] at h
    split at h <;> simp at h
  | update op before => cases before <;> simp [slots] at h
  | _ => simp [slots] at h

namespace NodeTable

variable {table : NodeTable}

variable {number : Nat}

/-- What stands in a slot is of a kind that the node above calls for. -/
theorem WellKinded.exists_kind (h : table.WellKinded) {slot child : Nat}
    (hslot : table.child? number slot = some child) {below : NumberedNode}
    (hbelow : table[child]? = some below) :
    ∃ node, table[number]? = some node ∧
      ∃ kind ∈ node.label.slots node.children.length, kind.admits below.label = true := by
  obtain ⟨node, hnode, hmem⟩ := child?_eq_some.mp hslot
  rw [Array.getElem?_toList] at hnode
  obtain ⟨row, hrow, haccepts⟩ := h number node hnode
  have hlength : (row.map NumberedNode.label).length = node.children.length := by
    have hlengths := congrArg List.length hrow
    simp only [List.length_map] at hlengths ⊢
    exact hlengths.symm
  -- the node below is one of those that were checked
  have hbelow' : some below ∈ row.map some := by
    rw [← hrow, ← hbelow]
    exact List.mem_map_of_mem (List.mem_of_getElem? hmem)
  obtain ⟨found, hfound, hsame⟩ := List.mem_map.mp hbelow'
  rcases Option.some.inj hsame with rfl
  rw [Label.accepts, hlength] at haccepts
  exact ⟨node, hnode, Kind.exists_of_admitsAll haccepts (List.mem_map_of_mem hfound)⟩

def holdsFunction (table : NodeTable) (number : Nat) : Bool :=
  table[number]?.any fun node => node.label.isFunction

theorem holdsFunction_eq_true :
    table.holdsFunction number = true ↔
      ∃ node, table[number]? = some node ∧ node.label.isFunction = true := by
  unfold holdsFunction
  rw [Option.any_eq_true]

theorem Unfolds.holdsFunction_eq {outline : Outline} (h : table.Unfolds number outline) :
    table.holdsFunction number = outline.label.isFunction := by
  rcases h with ⟨hnode, _⟩
  rw [holdsFunction, hnode]
  rfl

end NodeTable

/-! ## Programs -/

theorem Item.isFunction_outline_statement (s : Stmt) :
    (Item.outline (.statement s)).label.isFunction = false := by
  have hstatement : (s.outline 0).label.isStatement = true := (s.hasKind_outline 0).admits
  show (s.outline 0).label.isFunction = false
  revert hstatement
  cases (s.outline 0).label <;> simp [Label.isStatement, Label.isFunction]

/-- Of the numbers of items, those that are picked with a function are those of function nodes. -/
theorem NodeTable.UnfoldsAll.pickFunctions {table : NodeTable} {numbers : List Nat}
    {items : List Item} (h : table.UnfoldsAll numbers (items.map Item.outline))
    {pick : Nat × Item → Option (Nat × Function)}
    (hfunction : ∀ number f, pick (number, .function f) = some (number, f))
    (hstatement : ∀ number s, pick (number, .statement s) = none) :
    ((numbers.zip items).filterMap pick).map Prod.fst = numbers.filter table.holdsFunction ∧
      ∀ found ∈ (numbers.zip items).filterMap pick,
        table.Unfolds found.1 found.2.outline := by
  induction items generalizing numbers with
  | nil =>
    rcases h with _ | _
    simp
  | cons i items ih =>
    rcases h with _ | ⟨hfirst, hrest⟩
    obtain ⟨hnumbers, hunfolds⟩ := ih hrest
    have hholds := hfirst.holdsFunction_eq
    -- a number is picked just if its item is a function
    cases i with
    | function f =>
      have hholds' : table.holdsFunction _ = true := hholds
      rw [List.zip_cons_cons, List.filterMap_cons_some (hfunction _ f),
        List.filter_cons_of_pos hholds']
      constructor
      · rw [List.map_cons, hnumbers]
      · intro found hfound
        rcases List.mem_cons.mp hfound with rfl | hfound
        · exact hfirst
        · exact hunfolds found hfound
    | statement s =>
      rw [Item.isFunction_outline_statement] at hholds
      rw [List.zip_cons_cons, List.filterMap_cons_none (hstatement _ s),
        List.filter_cons_of_neg (by simp [hholds])]
      exact ⟨hnumbers, hunfolds⟩

namespace Program

variable (program : Program)

/-- A program's table: the program in front, with the tops of all other nodes below it. -/
theorem exists_tops_nodeTable :
    ∃ root nodes, program.nodeTable.toList = root :: nodes ∧ root.label = .program ∧
      NodeTable.Tops 1 nodes root.children := by
  obtain ⟨nodes, tops, htable, htops⟩ := NodeTable.exists_tops_ofOutline program.outline
  exact ⟨_, nodes, htable, rfl, htops⟩

variable {number : Nat} {node : NumberedNode}

theorem existsUnique_slot (hpos : 0 < number) (hlt : number < program.nodeTable.size) :
    ∃! place : Nat × Nat, program.nodeTable.child? place.1 place.2 = some number := by
  obtain ⟨root, nodes, htable, _, htops⟩ := program.exists_tops_nodeTable
  exact NodeTable.existsUnique_slot htable htops hpos hlt

theorem eq_zero_of_label_program (hnode : program.nodeTable[number]? = some node)
    (hlabel : node.label = .program) : number = 0 := by
  by_contra hne
  have hlt := (Array.getElem?_eq_some_iff.mp hnode).1
  obtain ⟨⟨parent, slot⟩, hslot, _⟩ := program.existsUnique_slot (Nat.pos_of_ne_zero hne) hlt
  obtain ⟨_, _, kind, _, hadmits⟩ := program.wellKinded_nodeTable.exists_kind hslot hnode
  rw [hlabel] at hadmits
  exact kind.not_admits_program hadmits

/-- Functions stand directly below the program. -/
theorem exists_top_slot_of_isFunction (hnode : program.nodeTable[number]? = some node)
    (hlabel : node.label.isFunction = true) :
    ∃ slot, program.nodeTable.child? 0 slot = some number := by
  obtain ⟨root, nodes, htable, hroot, _⟩ := program.exists_tops_nodeTable
  have hpos : 0 < number := by
    apply Nat.pos_of_ne_zero
    rintro rfl
    rw [← Array.getElem?_toList, htable, List.getElem?_cons_zero] at hnode
    rcases Option.some.inj hnode with rfl
    rw [hroot] at hlabel
    simp [Label.isFunction] at hlabel
  have hlt := (Array.getElem?_eq_some_iff.mp hnode).1
  obtain ⟨⟨parent, slot⟩, hslot, _⟩ := program.existsUnique_slot hpos hlt
  obtain ⟨above, habove, kind, hkind, hadmits⟩ :=
    program.wellKinded_nodeTable.exists_kind hslot hnode
  -- only a program has slots for items
  rw [Kind.eq_item_of_admits hadmits hlabel] at hkind
  obtain rfl := program.eq_zero_of_label_program habove (Label.eq_program_of_item hkind)
  exact ⟨slot, hslot⟩

/-- The listed functions are those directly below the program. -/
theorem numberedFunctions_spec {root : NumberedNode} (hroot : program.nodeTable[0]? = some root) :
    program.numberedFunctions.map Prod.fst =
        root.children.filter program.nodeTable.holdsFunction ∧
      ∀ found ∈ program.numberedFunctions,
        program.nodeTable.Unfolds found.1 found.2.outline := by
  have hunfolds := program.nodeTable_unfolds
  rcases hunfolds with ⟨hnode, hchildren⟩
  rcases Option.some.inj (hroot.symm.trans hnode) with rfl
  unfold numberedFunctions
  dsimp only
  rw [hnode]
  exact hchildren.pickFunctions (fun _ _ => rfl) fun _ _ => rfl

theorem map_snd_numberedFunctions :
    program.numberedFunctions.map Prod.snd = program.functions := by
  rcases program.nodeTable_unfolds with @⟨_, _, _, numbers, _, hnode, hchildren⟩
  -- there are as many numbers as items, so nothing is lost in the pairing
  have hitems : (numbers.zip program.items).map Prod.snd = program.items := by
    have hlength := hchildren.length_eq
    rw [List.length_map] at hlength
    exact List.map_snd_zip (Nat.le_of_eq hlength.symm)
  unfold numberedFunctions functions
  dsimp only
  rw [hnode, List.map_filterMap]
  conv => rhs; rw [← hitems, List.filterMap_map]
  congr 1
  funext numbered
  rcases numbered with ⟨number, f | s⟩
  · rfl
  · rfl

/-- The functions are listed in the order of their numbers, each once and none left out. -/
theorem map_fst_numberedFunctions :
    program.numberedFunctions.map Prod.fst =
      (List.range program.nodeTable.size).filter program.nodeTable.holdsFunction := by
  obtain ⟨root, nodes, htable, _, htops⟩ := program.exists_tops_nodeTable
  have hroot : program.nodeTable[0]? = some root := by
    rw [← Array.getElem?_toList, htable, List.getElem?_cons_zero]
  rw [(program.numberedFunctions_spec hroot).1]
  have hchildren := htops.increasing.filter program.nodeTable.holdsFunction
  have hrange := (List.pairwise_lt_range (n := program.nodeTable.size)).filter
    program.nodeTable.holdsFunction
  -- two increasing lists with the same members
  refine List.Perm.eq_of_pairwise ?_ hchildren hrange ?_
  · intro number number' _ _ hlt hgt
    exact absurd hgt (Nat.not_lt.mpr (Nat.le_of_lt hlt))
  · apply (List.perm_ext_iff_of_nodup (hchildren.imp Nat.ne_of_lt) (hrange.imp Nat.ne_of_lt)).mpr
    intro number
    simp only [List.mem_filter, List.mem_range]
    constructor
    · rintro ⟨_, hholds⟩
      obtain ⟨node, hnode, _⟩ := NodeTable.holdsFunction_eq_true.mp hholds
      exact ⟨(Array.getElem?_eq_some_iff.mp hnode).1, hholds⟩
    · rintro ⟨_, hholds⟩
      obtain ⟨node, hnode, hlabel⟩ := NodeTable.holdsFunction_eq_true.mp hholds
      obtain ⟨slot, hslot⟩ := program.exists_top_slot_of_isFunction hnode hlabel
      obtain ⟨root', hroot', hchild⟩ := NodeTable.child?_eq_some.mp hslot
      rw [Array.getElem?_toList, hroot] at hroot'
      rcases Option.some.inj hroot' with rfl
      exact ⟨List.mem_of_getElem? hchild, hholds⟩

/-- What is below a node is a node other than the program, and was numbered before it unless it is below
the program. -/
theorem child_bounds (hnode : program.nodeTable[number]? = some node) {child : Nat}
    (hchild : child ∈ node.children) :
    0 < child ∧ child < program.nodeTable.size ∧ (0 < number → child < number) := by
  obtain ⟨root, nodes, htable, _, htops⟩ := program.exists_tops_nodeTable
  have hsize : program.nodeTable.size = 1 + nodes.length := by
    rw [← Array.length_toList, htable, List.length_cons, Nat.add_comm]
  rw [← Array.getElem?_toList, htable] at hnode
  cases number with
  -- the program is the first node, and the only one with larger numbers below it
  | zero =>
    cases hnode
    have hbounds := htops.mem_bounds hchild
    omega
  | succ k =>
    rw [List.getElem?_cons_succ] at hnode
    have hk := (List.getElem?_eq_some_iff.mp hnode).1
    have hbounds := htops.earlier hnode child hchild
    omega

/-- The numbers below a node are in order. -/
theorem pairwise_children (hnode : program.nodeTable[number]? = some node) :
    node.children.Pairwise (· < ·) := by
  obtain ⟨root, nodes, htable, _, htops⟩ := program.exists_tops_nodeTable
  have hmem := List.mem_of_getElem? (Array.getElem?_toList.trans hnode)
  rw [htable] at hmem
  rcases List.mem_cons.mp hmem with rfl | hmem
  · exact htops.increasing
  · exact htops.ordered hmem

end Program

end MeteredScript
