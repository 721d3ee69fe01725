import MeteredScript.Proofs.Kinds
import MeteredScript.Proofs.Numbering
import MeteredScript.Tree.Parser

namespace MeteredScript

/-! # Arenas that grow by trees

A reader that builds an arena is compared with the one that reads program trees: they stop at the same
token, with the same error if with one, and the nodes that were added are those of the tree
(`Build.Builds`). What was added is described by outlines. `Arena.Grows` says that an arena has grown by
the nodes of some outlines, each node behind those below it, and gives their numbers; it follows the
steps of a reader, and it determines the table of the arena.
-/

/-! ## Growing -/

/-- The second arena is the first one with the nodes of outlines behind it, of which the outermost have
the numbers `ids`. -/
inductive Arena.Grows : Arena → List Outline → List NodeId → Arena → Prop
  | nil (arena : Arena) : Grows arena [] [] arena
  | append {arena arena' arena'' : Arena} {outlines outlines' : List Outline} {ids ids' : List NodeId} :
      Grows arena outlines ids arena' → Grows arena' outlines' ids' arena'' →
      Grows arena (outlines ++ outlines') (ids ++ ids') arena''
  | node {arena arena' : Arena} {outlines : List Outline} {node : Node} (span : Span) :
      Grows arena outlines node.children arena' →
      Grows arena [.node node.label span outlines] [arena'.nodes.size] (arena'.push node span).2

namespace NodeTable

theorem addAll_append (level : Nat) (table : NodeTable) (earlier : List Nat)
    (outlines outlines' : List Outline) :
    addAll level table earlier (outlines ++ outlines') =
      addAll level (addAll level table earlier outlines).1
        (addAll level table earlier outlines).2.reverse outlines' := by
  induction outlines generalizing table earlier with
  | nil => rw [List.nil_append, addAll, List.reverse_reverse]
  | cons outline outlines ih =>
    rw [List.cons_append, addAll, ih, addAll]

end NodeTable

namespace Arena

theorem size_table (arena : Arena) : arena.table.size = arena.nodes.size := Array.size_map

theorem getElem?_table (arena : Arena) (id : NodeId) :
    arena.table[id]? = arena.nodes[id]?.map fun spanned =>
      ⟨spanned.node.label, spanned.span, spanned.node.children⟩ :=
  Array.getElem?_map

variable {arena arena' : Arena} {node : Node} {id : NodeId}

/-- A node is in the array, with a range. -/
theorem exists_spanned_of_node (h : arena.node id = .ok node) :
    ∃ spanned, arena.nodes[id]? = some spanned ∧ spanned.node = node := by
  unfold Arena.node at h
  revert h
  cases arena.nodes[id]? with
  | none =>
    intro h
    cases h
  | some spanned => exact fun h => ⟨spanned, rfl, Except.ok.inj h⟩

/-- A node is in the table with its label, its range and its numbers. -/
theorem getElem?_table_of_node (h : arena.node id = .ok node) :
    arena.table[id]? = some ⟨node.label, arena.span id, node.children⟩ := by
  obtain ⟨spanned, hspanned, rfl⟩ := exists_spanned_of_node h
  rw [getElem?_table, Arena.span, hspanned]
  rfl

theorem lt_size_of_node (h : arena.node id = .ok node) : id < arena.nodes.size := by
  obtain ⟨spanned, hspanned, _⟩ := exists_spanned_of_node h
  exact (Array.getElem?_eq_some_iff.mp hspanned).1

theorem exists_node_of_table {numbered : NumberedNode} (h : arena.table[id]? = some numbered) :
    ∃ node, arena.node id = .ok node ∧ numbered = ⟨node.label, arena.span id, node.children⟩ := by
  rw [getElem?_table, Option.map_eq_some_iff] at h
  obtain ⟨spanned, hspanned, hsame⟩ := h
  have hnode : arena.node id = .ok spanned.node := by rw [Arena.node, hspanned]
  refine ⟨spanned.node, hnode, ?_⟩
  rw [← hsame, Arena.span, hspanned]
  rfl

theorem exists_node_of_lt (h : id < arena.nodes.size) : ∃ node, arena.node id = .ok node := by
  rw [← size_table] at h
  obtain ⟨node, hnode, _⟩ := exists_node_of_table (Array.getElem?_eq_getElem h)
  exact ⟨node, hnode⟩

theorem table_push (arena : Arena) (node : Node) (span : Span) :
    (arena.push node span).2.table = arena.table.push ⟨node.label, span, node.children⟩ :=
  Array.map_push

/-- What is added behind a table does not depend on what the table holds, nor on the level. -/
theorem Grows.exists_added {outlines : List Outline} {ids : List NodeId}
    (h : arena.Grows outlines ids arena') :
    ∃ added, arena'.table = arena.table ++ added ∧
      ∀ level (table : NodeTable) earlier, table.size = arena.nodes.size →
        NodeTable.addAll level table earlier outlines = (table ++ added, earlier.reverse ++ ids) := by
  induction h with
  | nil arena =>
    refine ⟨#[], (Array.append_empty).symm, fun level table earlier _ => ?_⟩
    rw [NodeTable.addAll, Array.append_empty, List.append_nil]
  | @append arena arena' _ outlines outlines' ids ids' _ _ ih ih' =>
    obtain ⟨added, htable, hadds⟩ := ih
    obtain ⟨added', htable', hadds'⟩ := ih'
    have hsize := congrArg Array.size htable
    rw [Array.size_append, size_table, size_table] at hsize
    refine ⟨added ++ added', ?_, fun level table earlier heq => ?_⟩
    · rw [htable', htable, Array.append_assoc]
    -- The second run starts where the first ended, and the two tables are as long as each other there.
    · rw [NodeTable.addAll_append, hadds level table earlier heq]
      dsimp only
      rw [hadds' level _ _ (by rw [Array.size_append, heq, hsize]), List.reverse_reverse,
        Array.append_assoc, List.append_assoc]
  | @node arena arena' outlines node span _ ih =>
    obtain ⟨added, htable, hadds⟩ := ih
    have hsize := congrArg Array.size htable
    rw [Array.size_append, size_table, size_table] at hsize
    refine ⟨added.push ⟨node.label, span, node.children⟩, ?_, fun level table earlier heq => ?_⟩
    · rw [table_push, htable, Array.push_append]
    · have hnode : NodeTable.add level table (.node node.label span outlines) =
          table ++ added.push ⟨node.label, span, node.children⟩ := by
        rw [NodeTable.add_node, hadds (level + 1) table [] heq, List.reverse_nil, List.nil_append,
          Array.push_append]
      rw [NodeTable.addAll, NodeTable.addAll, hnode, Array.size_append, Array.size_push, hsize, heq,
        List.reverse_cons]
      rfl

/-- Arenas do not get smaller. -/
theorem Grows.size_le {outlines : List Outline} {ids : List NodeId}
    (h : arena.Grows outlines ids arena') : arena.nodes.size ≤ arena'.nodes.size := by
  obtain ⟨added, htable, _⟩ := h.exists_added
  have hsize := congrArg Array.size htable
  rw [Array.size_append, size_table, size_table] at hsize
  omega

/-- The node that an outline was added as. -/
theorem Grows.exists_node {outline : Outline} (h : arena.Grows [outline] [id] arena') :
    ∃ node, arena'.node id = .ok node ∧ node.label = outline.label ∧ arena'.span id = outline.span := by
  obtain ⟨label, span, children⟩ := outline
  obtain ⟨added, htable, hadds⟩ := h.exists_added
  have hall := hadds 0 arena.table [] arena.size_table
  rw [NodeTable.addAll, NodeTable.addAll, ← htable] at hall
  obtain ⟨hlast, hids⟩ := Prod.mk.inj hall
  have hid : id = (NodeTable.add 0 arena.table (.node label span children)).size - 1 :=
    (List.singleton_inj.mp hids).symm
  rw [NodeTable.add_node] at hlast hid
  -- A node is added behind everything below it, so the last row is its own.
  have hfound : ∃ numbers, arena'.table[id]? = some ⟨label, span, numbers⟩ := by
    rw [← hlast, hid, Array.size_push, Nat.add_sub_cancel, Array.getElem?_push_size]
    exact ⟨_, rfl⟩
  obtain ⟨numbers, hfound⟩ := hfound
  obtain ⟨node, hnode, hsame⟩ := exists_node_of_table hfound
  obtain ⟨hlabel, hspan, _⟩ := NumberedNode.mk.inj hsame
  exact ⟨node, hnode, hlabel.symm, hspan.symm⟩

end Arena

/-! ## What is read and what is built -/

/-- How results of readers show in an arena: the outlines of what was read, the numbers that were built,
and what else has to be the same. -/
structure View (α β κ : Type) where
  outlines : α → List Outline
  ids : β → List NodeId
  key : α → κ
  builtKey : β → κ

namespace View

variable {α β κ : Type} (view : View α β κ)

/-- The arena has grown by the nodes of what was read. -/
def Grown (arena : Arena) (a : α) (b : β) (arena' : Arena) : Prop :=
  view.key a = view.builtKey b ∧ arena.Grows (view.outlines a) (view.ids b) arena'

def list : View (List α) (List β) (List κ) where
  outlines as := as.flatMap view.outlines
  ids bs := bs.flatMap view.ids
  key as := as.map view.key
  builtKey bs := bs.map view.builtKey

/-- A result that may be absent. -/
def option : View (Option α) (Option β) (Option κ) where
  outlines a := a.toList.flatMap view.outlines
  ids b := b.toList.flatMap view.ids
  key a := a.map view.key
  builtKey b := b.map view.builtKey

def single (outline : α → Outline) : View α NodeId Unit where
  outlines a := [outline a]
  ids id := [id]
  key _ := ()
  builtKey _ := ()

variable {view} {arena arena' arena'' : Arena} {a : α} {b : β} {as : List α} {bs : List β}

theorem grown_nil : view.list.Grown arena [] [] arena := ⟨rfl, .nil arena⟩

/-- One part more at the end of a list. -/
theorem Grown.concat (h : view.list.Grown arena as bs arena') (ha : view.Grown arena' a b arena'') :
    view.list.Grown arena (as ++ [a]) (bs ++ [b]) arena'' := by
  refine ⟨?_, ?_⟩
  · have hkey := h.1
    simp only [list] at hkey ⊢
    rw [List.map_append, List.map_append, hkey, List.map_singleton, List.map_singleton, ha.1]
  · have hgrows := h.2.append ha.2
    simp only [list] at hgrows ⊢
    rwa [List.flatMap_append, List.flatMap_append, List.flatMap_singleton, List.flatMap_singleton]

theorem Grown.single (ha : view.Grown arena a b arena') : view.list.Grown arena [a] [b] arena' :=
  grown_nil.concat ha

theorem grown_none : view.option.Grown arena none none arena := ⟨rfl, .nil arena⟩

/-- A part that may be missing is there. -/
theorem Grown.some (ha : view.Grown arena a b arena') :
    view.option.Grown arena (some a) (some b) arena' := by
  refine ⟨congrArg Option.some ha.1, ?_⟩
  have hgrows := ha.2
  simpa only [option, Option.toList_some, List.flatMap_singleton] using hgrows

theorem Grown.nodes {outline : α → Outline} {ids : List NodeId}
    (h : (View.single outline).list.Grown arena as ids arena') :
    arena.Grows (as.map outline) ids arena' := by
  have hgrows := h.2
  simp only [list, View.single] at hgrows
  rwa [List.flatMap_singleton', ← List.map_eq_flatMap] at hgrows

end View

/-! ## Readers -/

namespace Build

variable {α β α' β' : Type}

/-- What comes of reading and of building is the same error, or results at the same cursor that satisfy
`P` with the new arena. -/
def Alike (P : α → β → Arena → Prop) :
    Except Error (α × Cursor) → Except Halt ((β × Arena) × Cursor) → Prop
  | .ok (a, cursor), .ok ((b, arena), cursor') => cursor' = cursor ∧ P a b arena
  | .error e, .error halt => halt = .failed e
  | _, _ => False

/-- Building with `q` from an arena on is alike to reading with `p`. -/
def Builds (arena : Arena) (p : Parse α) (q : Build β) (P : α → β → Arena → Prop) : Prop :=
  ∀ cursor, Alike P (p cursor) (q arena cursor)

namespace Builds

variable {arena : Arena} {p : Parse α} {q : Build β} {P : α → β → Arena → Prop}
  {Q : α' → β' → Arena → Prop}

variable {node : Node} {span : Span} {a : α}

/-- Both give a result without reading. -/
theorem result {b : β} (h : P a b arena) : Builds arena (pure a) (pure b) P :=
  fun _ => ⟨rfl, h⟩

theorem fail (e : Error) : Builds arena (throw e) (throw (.failed e)) P := fun _ => rfl

/-- What was built by the first part is there when the second one starts. -/
theorem bind {f : α → Parse α'} {g : β → Build β'} (h : Builds arena p q P)
    (hf : ∀ a b arena', P a b arena' → Builds arena' (f a) (g b) Q) :
    Builds arena (p >>= f) (q >>= g) Q := by
  intro cursor
  have halike := h cursor
  show Alike Q (p cursor >>= fun r => f r.1 r.2) (q arena cursor >>= fun r => g r.1.1 r.1.2 r.2)
  revert halike
  -- either both stop here or both go on from the same token
  cases p cursor with
  | error e =>
    cases q arena cursor with
    | error halt => exact fun h => h
    | ok r => exact fun h => h.elim
  | ok r =>
    cases q arena cursor with
    | error halt => exact fun h => h.elim
    | ok r' =>
      obtain ⟨a, cursor₁⟩ := r
      obtain ⟨⟨b, arena₁⟩, cursor₁'⟩ := r'
      rintro ⟨hcursor, hP⟩
      cases hcursor
      exact hf a b arena₁ hP cursor₁

/-- What was read is put into something for which no node is added. -/
theorem wrap {f : α → α'} {Q : α' → β → Arena → Prop} (h : Builds arena p q P)
    (hf : ∀ a b arena', P a b arena' → Q (f a) b arena') :
    Builds arena (p >>= fun a => pure (f a)) q Q := by
  rw [← bind_pure q]
  exact h.bind fun a b arena' hP => result (hf a b arena' hP)

/-- A step that reads and adds nothing. -/
theorem step {r : Parse α} {f : α → Parse α'} {g : α → Build β'}
    (hf : ∀ a, Builds arena (f a) (g a) Q) : Builds arena (r >>= f) (ofParse r >>= g) Q := by
  have hstep : Builds arena r (ofParse r) fun a b arena' => b = a ∧ arena' = arena := by
    intro cursor
    unfold ofParse
    cases r cursor with
    | error e => rfl
    | ok r => exact ⟨rfl, rfl, rfl⟩
  refine hstep.bind ?_
  rintro a b arena' ⟨rfl, rfl⟩
  exact hf b

/-- What is found instead of what should be there is an error of either reader. -/
theorem unexpected :
    Builds arena (Parse.unexpected : Parse α) (ofParse (Parse.unexpected : Parse β)) P := by
  intro cursor
  have hsame : ∃ e, (Parse.unexpected : Parse α) cursor = .error e ∧
      (Parse.unexpected : Parse β) cursor = .error e := by
    obtain ⟨rest, reached⟩ := cursor
    cases rest with
    | nil => exact ⟨_, rfl, rfl⟩
    | cons lexeme rest =>
      obtain ⟨token, _, _⟩ := lexeme
      cases token <;> exact ⟨_, rfl, rfl⟩
  obtain ⟨e, hread, hbuild⟩ := hsame
  unfold ofParse
  rw [hread, hbuild]
  rfl

/-! ### Nodes -/

theorem push {P : α → NodeId → Arena → Prop} (h : P a arena.nodes.size (arena.push node span).2) :
    Builds arena (pure a) (Build.push node span) P :=
  fun _ => ⟨rfl, h⟩

/-- A node is added, and what comes behind it knows its number. -/
theorem push_bind {g : NodeId → Build β'} {x : Parse α'}
    (h : Builds (arena.push node span).2 x (g arena.nodes.size) Q) :
    Builds arena x (Build.push node span >>= g) Q :=
  fun cursor => h cursor

theorem node_bind {id : NodeId} (hnode : arena.node id = .ok node) {g : Node → Build β'}
    {x : Parse α'} (h : Builds arena x (g node) Q) : Builds arena x (Build.node id >>= g) Q := by
  intro cursor
  have hfound : Build.node id arena cursor = .ok ((node, arena), cursor) := by
    unfold Build.node
    rw [hnode]
  show Alike Q (x cursor) (Build.node id arena cursor >>= fun r => g r.1.1 r.1.2 r.2)
  rw [hfound]
  exact h cursor

/-- The range of the error is that of the node, which is that of the tree. -/
theorem failAt {id : NodeId} (hspan : arena.span id = span) (fault : ParseFault) :
    Builds arena (throw (.parse fault span)) (Build.failAt fault id) P := by
  intro cursor
  show Halt.failed (.parse fault (arena.span id)) = .failed (.parse fault span)
  rw [hspan]

/-! ### Lists -/

/-- Loops are alike if their rounds are. -/
theorem iterate {round : α → Parse (α × Bool)} {round' : β → Build (β × Bool)}
    {inv : α → β → Arena → Prop}
    (hround : ∀ a b arena, inv a b arena →
      Builds arena (round a) (round' b) fun r r' arena' => r'.2 = r.2 ∧ inv r.1 r'.1 arena')
    (bound : Nat) {b : β} (h : inv a b arena) :
    Builds arena (Parse.iterate round bound a) (Parse.iterate round' bound b) inv := by
  induction bound generalizing a b arena with
  | zero => exact result h
  | succ bound ih =>
    refine (hround a b arena h).bind ?_
    rintro ⟨a', more⟩ ⟨b', more'⟩ arena' ⟨hmore, hinv⟩
    cases hmore
    cases more with
    | true => exact ih hinv
    | false => exact result hinv

section

variable {κ : Type} {view : View α β κ} {item : Parse α} {item' : Build β}
  (hitem : ∀ arena, Builds arena item item' (view.Grown arena))
include hitem

/-- What the rounds of a list have read so far, the latest first. -/
theorem commaSeparated (arena : Arena) (bound : Nat) (closer : Token) :
    Builds arena (Parse.commaSeparated bound closer item) (Parse.commaSeparated bound closer item')
      (view.list.Grown arena) := by
  have hround : ∀ read read' arena', view.list.Grown arena read.reverse read'.reverse arena' →
      Builds arena' (Parse.commaStep closer item read) (Parse.commaStep closer item' read')
        fun r r' arena'' => r'.2 = r.2 ∧ view.list.Grown arena r.1.reverse r'.1.reverse arena'' := by
    intro read read' arena' h
    refine step fun closed => ?_
    cases closed with
    | true => exact result ⟨rfl, h⟩
    | false =>
      refine (hitem arena').bind fun a b arena'' hgrown => step fun more => result ⟨rfl, ?_⟩
      rw [List.reverse_cons, List.reverse_cons]
      exact h.concat hgrown
  refine (iterate hround bound View.grown_nil).bind fun read read' arena' h => ?_
  exact step fun _ => result h

/-- Items behind commas, the first of which was built before. -/
theorem commaRest {arena arena' : Arena} {first : α} {first' : β} (bound : Nat)
    (hfirst : view.Grown arena first first' arena') :
    Builds arena' (Parse.commaRest bound item first) (Parse.commaRest bound item' first')
      (view.list.Grown arena) := by
  have hround : ∀ read read' arena', view.list.Grown arena read.reverse read'.reverse arena' →
      Builds arena' (Parse.moreStep item read) (Parse.moreStep item' read')
        fun r r' arena'' => r'.2 = r.2 ∧ view.list.Grown arena r.1.reverse r'.1.reverse arena'' := by
    intro read read' arena' h
    refine step fun comma => ?_
    cases comma with
    | true =>
      refine (hitem arena').bind fun a b arena'' hgrown => result ⟨rfl, ?_⟩
      rw [List.reverse_cons, List.reverse_cons]
      exact h.concat hgrown
    | false => exact result ⟨rfl, h⟩
  have hstart : view.list.Grown arena [first].reverse [first'].reverse arena' := hfirst.single
  exact (iterate hround bound hstart).bind fun read read' arena' h => result h

end

end Builds

end Build

end MeteredScript
