import MeteredScript.Proofs.Building

namespace MeteredScript

/-! # Arenas in post-order

The arena that was built from tokens is a tree in post-order. What is known of the table of a program is
carried over to the nodes of the arena, which refer to each other by numbers. Main statement:
`Arena.post_order`.
-/

/-! ## Kinds of nodes -/

theorem Node.eq_program_of_label {node : Node} (h : node.label = .program) :
    node = .program node.children := by
  cases node with
  | program body => rfl
  | member object key => cases key <;> cases h
  | _ => cases h

theorem Node.isFunction_label (node : Node) : node.label.isFunction = node.function?.isSome := by
  cases node with
  | member object key => cases key <;> rfl
  | _ => rfl

theorem Node.function?_eq_some {node : Node} {f : FunctionNode} :
    node.function? = some f ↔ node = .function f := by
  cases node with
  | _ => simp [Node.function?]

namespace Arena

variable {arena : Arena}

theorem holdsFunction_table {id : NodeId} {node : Node} (h : arena.node id = .ok node) :
    arena.table.holdsFunction id = node.function?.isSome := by
  rw [NodeTable.holdsFunction, getElem?_table_of_node h, ← node.isFunction_label]
  rfl

/-! ## Functions -/

/-- Looking at numbers of nodes finds the functions among them, in the same order. -/
theorem exists_functions {ids : List NodeId} (h : ∀ id ∈ ids, id < arena.nodes.size) :
    ∃ found, (ids.mapM fun id => do
        return (← arena.node id).function?.map fun f => (id, f)) = .ok found ∧
      (found.filterMap id).map Prod.fst = ids.filter arena.table.holdsFunction ∧
      ∀ entry ∈ found.filterMap id, arena.node entry.1 = .ok (.function entry.2) := by
  induction ids with
  | nil => exact ⟨[], rfl, rfl, fun _ h => by simp at h⟩
  | cons first ids ih =>
    obtain ⟨node, hnode⟩ := exists_node_of_lt (h first List.mem_cons_self)
    obtain ⟨found, hfound, hnumbers, hnodes⟩ := ih fun id hid => h id (List.mem_cons_of_mem first hid)
    refine ⟨(node.function?.map fun f => (first, f)) :: found, ?_, ?_⟩
    · rw [List.mapM_cons, hnode, hfound]
      rfl
    -- The table and the node agree on whether a function stands at the number.
    · have hholds := holdsFunction_table hnode
      cases hf : node.function? with
      | none =>
        rw [hf] at hholds
        rw [List.filter_cons_of_neg (by simp [hholds])]
        exact ⟨hnumbers, hnodes⟩
      | some f =>
        rw [hf] at hholds
        rw [List.filter_cons_of_pos hholds, ← hnumbers]
        refine ⟨rfl, fun entry hmem => ?_⟩
        rcases List.mem_cons.mp hmem with rfl | hmem
        · rw [hnode, Node.function?_eq_some.mp hf]
        · exact hnodes entry hmem

/-- The functions that are listed are those directly below the program. -/
theorem functions_of_body {body : List NodeId} (hbody : arena.node 0 = .ok (.program body))
    (hin : ∀ id ∈ body, id < arena.nodes.size) :
    ∃ functions, arena.functions = .ok functions ∧
      functions.map Prod.fst = body.filter arena.table.holdsFunction ∧
      ∀ entry ∈ functions, arena.node entry.1 = .ok (.function entry.2) := by
  obtain ⟨found, hfound, hspec⟩ := exists_functions hin
  refine ⟨found.filterMap id, ?_, hspec⟩
  unfold Arena.functions Arena.body
  rw [hbody]
  show ((body.mapM _ : Except Crash _) >>= _) = _
  rw [hfound]
  rfl

/-- The first node is the program. -/
theorem exists_body {program : Program} (htable : arena.table = program.nodeTable) :
    ∃ body, arena.node 0 = .ok (.program body) ∧ ∀ id ∈ body, 0 < id ∧ id < arena.nodes.size := by
  rcases program.nodeTable_unfolds with ⟨hroot, _⟩
  have hnumbered := hroot
  rw [← htable] at hnumbered
  obtain ⟨node, hnode, hsame⟩ := exists_node_of_table hnumbered
  obtain ⟨hlabel, _, hchildren⟩ := NumberedNode.mk.inj hsame
  rw [Node.eq_program_of_label hlabel.symm, ← hchildren] at hnode
  refine ⟨_, hnode, fun id hid => ?_⟩
  obtain ⟨hpos, hlt, _⟩ := program.child_bounds hroot hid
  rw [← htable, size_table] at hlt
  exact ⟨hpos, hlt⟩

/-- The number of a function is directly below the program. -/
theorem mem_body_of_function {program : Program} (htable : arena.table = program.nodeTable)
    {body : List NodeId} (hbody : arena.node 0 = .ok (.program body)) {id : NodeId} {f : FunctionNode}
    (h : arena.node id = .ok (.function f)) : id ∈ body := by
  have hnode := getElem?_table_of_node h
  rw [htable] at hnode
  obtain ⟨slot, hslot⟩ := program.exists_top_slot_of_isFunction hnode rfl
  obtain ⟨root, hroot, hchild⟩ := NodeTable.child?_eq_some.mp hslot
  rw [Array.getElem?_toList, ← htable, getElem?_table_of_node hbody] at hroot
  cases hroot
  exact List.mem_of_getElem? hchild

/-- The node that a number stands below, and the place that it has there. -/
theorem child?_table {id slot child : Nat} :
    arena.table.child? id slot = some child ↔
      ∃ node, arena.node id = .ok node ∧ node.children[slot]? = some child := by
  rw [NodeTable.child?_eq_some]
  constructor
  · rintro ⟨numbered, hnumbered, hchild⟩
    rw [Array.getElem?_toList] at hnumbered
    obtain ⟨node, hnode, rfl⟩ := exists_node_of_table hnumbered
    exact ⟨node, hnode, hchild⟩
  · rintro ⟨node, hnode, hchild⟩
    exact ⟨_, Array.getElem?_toList.trans (getElem?_table_of_node hnode), hchild⟩

/-- An arena that was built from tokens is a tree in post-order, and the program that the tokens spell
is what it unfolds to. Node zero is the only program; the numbers below it are numbers of nodes, and
those below any other node are from one on and smaller than its own. The numbers below a node
increase, and every number but zero is in exactly one slot of exactly one node. The functions that are
listed are the function nodes, each once and in the order of their numbers. -/
theorem post_order {tokens : List Lexeme} (h : Arena.ofTokens? tokens = .ok arena) :
    (∃ program, Program.ofTokens? tokens = .ok program ∧ arena.table.Unfolds 0 program.outline) ∧
    (∃ body, arena.node 0 = .ok (.program body) ∧ ∀ id ∈ body, 0 < id ∧ id < arena.nodes.size) ∧
    (∀ id body, arena.node id = .ok (.program body) → id = 0) ∧
    (∀ id node, 0 < id → arena.node id = .ok node →
      ∀ child ∈ node.children, 0 < child ∧ child < id) ∧
    (∀ id node, arena.node id = .ok node → node.children.Pairwise (· < ·)) ∧
    (∀ id, 0 < id → id < arena.nodes.size →
      ∃! place : NodeId × Nat, ∃ node, arena.node place.1 = .ok node ∧
        node.children[place.2]? = some id) ∧
    ∃ functions, arena.functions = .ok functions ∧
      (functions.map Prod.fst).Pairwise (· < ·) ∧
      ∀ id f, (id, f) ∈ functions ↔ arena.node id = .ok (.function f) := by
  obtain ⟨program, hprogram, htable⟩ := exists_program_of_ofTokens? h
  obtain ⟨body, hbody, hin⟩ := exists_body htable
  have hnode : ∀ {id node}, arena.node id = .ok node →
      program.nodeTable[id]? = some ⟨node.label, arena.span id, node.children⟩ := by
    intro id node hnode
    rw [← htable]
    exact getElem?_table_of_node hnode
  refine ⟨⟨program, hprogram, htable ▸ program.nodeTable_unfolds⟩, ⟨body, hbody, hin⟩,
    ?_, ?_, ?_, ?_, ?_⟩
  · intro id body' hid
    exact program.eq_zero_of_label_program (hnode hid) rfl
  · intro id node hpos hid child hchild
    obtain ⟨hchild, _, hlt⟩ := program.child_bounds (hnode hid) hchild
    exact ⟨hchild, hlt hpos⟩
  · intro id node hid
    exact program.pairwise_children (hnode hid)
  · intro id hpos hlt
    simp only [← child?_table]
    rw [← size_table] at hlt
    rw [htable] at hlt ⊢
    exact program.existsUnique_slot hpos hlt
  · obtain ⟨functions, hfunctions, hnumbers, hnodes⟩ :=
        functions_of_body hbody fun id hid => (hin id hid).2
    refine ⟨functions, hfunctions, ?_, fun id f => ⟨fun hmem => hnodes _ hmem, fun hid => ?_⟩⟩
    · rw [hnumbers]
      exact (program.pairwise_children (hnode hbody)).filter _
    · -- its number is listed, and the function with it is what the node is
      have hmem : id ∈ functions.map Prod.fst := by
        rw [hnumbers, List.mem_filter]
        exact ⟨mem_body_of_function htable hbody hid, holdsFunction_table hid⟩
      obtain ⟨⟨id', g⟩, hentry, rfl⟩ := List.mem_map.mp hmem
      cases (hnodes _ hentry).symm.trans hid
      exact hentry

/-- The tokens of `function f(a = 1) { return (a); } f();`, without their places. -/
def callTokens : List Lexeme :=
  [.keyword .functionWord, .ident "f", .punctuation .openParen, .ident "a", .sign (.assign .plain),
    .number .one, .punctuation .closeParen, .punctuation .openBrace, .keyword .returnWord,
    .punctuation .openParen, .ident "a", .punctuation .closeParen, .punctuation .semicolon,
    .punctuation .closeBrace, .ident "f", .punctuation .openParen, .punctuation .closeParen,
    .punctuation .semicolon].map fun token => ⟨token, {}, 1⟩

/-- Their arena. The parentheses behind `return` have no node. -/
def callArena : Arena :=
  ⟨([.program [5, 8], .literal (.number .one), .ident "a", .returnValue (some 2), .block [3],
    .function ⟨"f", [⟨"a", some 1⟩], 4⟩, .ident "f", .call 6 [], .expression 7].map
      fun node => ⟨node, {}⟩).toArray⟩

theorem ofTokens?_callTokens : Arena.ofTokens? callTokens = .ok callArena := by rfl

/-- The name that the function returns is in one slot. -/
theorem post_order_callArena :
    Arena.ofTokens? callTokens = .ok callArena ∧
    callArena.functions = .ok [(5, ⟨"f", [⟨"a", some 1⟩], 4⟩)] ∧
    ∃! place : NodeId × Nat, ∃ node, callArena.node place.1 = .ok node ∧
      node.children[place.2]? = some 2 :=
  ⟨ofTokens?_callTokens, by rfl,
    (post_order ofTokens?_callTokens).2.2.2.2.2.1 2 (by decide) (by decide)⟩

end Arena

end MeteredScript
