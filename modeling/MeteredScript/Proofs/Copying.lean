import MeteredScript.Proofs.Unfolding

namespace MeteredScript

/-! # Copying data in

Data is copied onto the heap into new arrays and objects only, one for each array and object of the
data, and each of them is reached in one way. So a copy shares nothing with what was there, nor does
any part of it with another (`Heap.Copied`). Main statement: this holds for data with distinct keys,
and copying the result out again gives the data back.
-/

/-! ## Distinct keys -/

namespace Entries

variable {α : Type}

/-- An entry with a new key is the last one. -/
theorem put_of_not_mem {entries : Entries α} {key : String} (h : key ∉ entries.keys) (value : α) :
    entries.put key value = entries ++ [(key, value)] := by
  induction entries with
  | nil => rfl
  | cons entry rest ih =>
    obtain ⟨hfirst, hrest⟩ := not_or.mp (mt List.mem_cons.mpr h)
    rw [put, if_neg (Ne.symm hfirst), ih hrest, List.cons_append]

/-- Entries with distinct keys stay as they are. -/
theorem ofList_of_nodup {entries : List (String × α)} (h : (entries.map Prod.fst).Nodup) :
    ofList entries = entries := by
  have hfold : ∀ (l : List (String × α)) (known : Entries α), (known ++ l).keys.Nodup →
      l.foldl (fun known entry => put entry.1 entry.2 known) known = known ++ l := by
    intro l
    induction l with
    | nil => exact fun known _ => (List.append_nil known).symm
    | cons entry rest ih =>
      intro known hnodup
      have hnew : entry.1 ∉ known.keys := by
        unfold keys at hnodup ⊢
        rw [List.map_append, List.map_cons] at hnodup
        exact fun hmem => (List.nodup_append.mp hnodup).2.2 _ hmem _ List.mem_cons_self rfl
      have happend : known ++ [entry] ++ rest = known ++ entry :: rest := by
        rw [List.append_assoc, List.singleton_append]
      rw [List.foldl_cons, put_of_not_mem hnew, ih _ (happend ▸ hnodup), happend]
  exact hfold entries [] h

end Entries

namespace Datum

def keys : Datum → List String
  | object entries => entries.map Prod.fst
  | _ => []

/-- No object has a key twice, nor does any object inside. -/
inductive KeysDistinct : Datum → Prop
  | intro {d : Datum} : d.keys.Nodup → (∀ inner ∈ d.held, KeysDistinct inner) → KeysDistinct d

theorem KeysDistinct.nodup {d : Datum} (h : d.KeysDistinct) : d.keys.Nodup := by
  cases h with
  | intro hnodup _ => exact hnodup

theorem KeysDistinct.of_mem_held {d inner : Datum} (h : d.KeysDistinct) (hinner : inner ∈ d.held) :
    inner.KeysDistinct := by
  cases h with
  | intro _ hheld => exact hheld inner hinner

end Datum

namespace Heap

variable {heap heap' heap'' : Heap} {v w x : Value} {d : Datum} {values : List Value}
  {data : List Datum}

/-! ## Heaps that grow -/

/-- What was there is unchanged. -/
structure Grown (heap heap' : Heap) : Prop where
  arrays : heap.arrays.toList <+: heap'.arrays.toList
  objects : heap.objects.toList <+: heap'.objects.toList

namespace Grown

theorem refl (heap : Heap) : heap.Grown heap := ⟨List.prefix_rfl, List.prefix_rfl⟩

theorem trans (h : heap.Grown heap') (h' : heap'.Grown heap'') : heap.Grown heap'' :=
  ⟨h.arrays.trans h'.arrays, h.objects.trans h'.objects⟩

theorem addArray (heap : Heap) (elements : List Value) : heap.Grown (heap.addArray elements).1 := by
  refine ⟨?_, List.prefix_rfl⟩
  unfold Heap.addArray
  rw [Array.toList_push]
  exact List.prefix_append _ _

theorem addObject (heap : Heap) (entries : List (String × Value)) :
    heap.Grown (heap.addObject entries).1 := by
  refine ⟨List.prefix_rfl, ?_⟩
  unfold Heap.addObject
  rw [Array.toList_push]
  exact List.prefix_append _ _

theorem elements (h : heap.Grown heap') {handle : Nat} (hthere : handle < heap.arrays.size) :
    heap'.elements handle = heap.elements handle := by
  obtain ⟨more, hmore⟩ := h.arrays
  unfold Heap.elements
  rw [← Array.getElem?_toList, ← Array.getElem?_toList, ← hmore, List.getElem?_append_left hthere]

theorem entries (h : heap.Grown heap') {handle : Nat} (hthere : handle < heap.objects.size) :
    heap'.entries handle = heap.entries handle := by
  obtain ⟨more, hmore⟩ := h.objects
  unfold Heap.entries
  rw [← Array.getElem?_toList, ← Array.getElem?_toList, ← hmore, List.getElem?_append_left hthere]

theorem held (h : heap.Grown heap') (hv : heap.Has v) : heap'.held v = heap.held v := by
  cases v with
  | array handle => exact congrArg Array.toList (h.elements hv)
  | object handle => exact congrArg (List.map Prod.snd) (h.entries hv)
  | _ => rfl

theorem has (h : heap.Grown heap') (hv : heap.Has v) : heap'.Has v := by
  cases v with
  | array handle => exact Nat.lt_of_lt_of_le hv h.arrays.length_le
  | object handle => exact Nat.lt_of_lt_of_le hv h.objects.length_le
  | _ => trivial

end Grown

def Closed (heap : Heap) (v : Value) : Prop := ∀ path w, heap.follow v path = some w → heap.Has w

theorem Closed.has (h : heap.Closed v) : heap.Has v := h [] v rfl

/-- What is reached from a part is reached from the whole. -/
theorem Closed.of_mem_held (h : heap.Closed v) (hw : w ∈ heap.held v) : heap.Closed w := by
  obtain ⟨i, hi⟩ := List.mem_iff_getElem?.mp hw
  exact fun path x hpath => h (i :: path) x ((follow_cons_of_getElem? hi path).trans hpath)

namespace Grown

/-- Paths lead where they led, if they stay among what is there. -/
theorem follow (h : heap.Grown heap') (hv : heap.Closed v) (path : List Nat) :
    heap'.follow v path = heap.follow v path := by
  induction path generalizing v with
  | nil => rfl
  | cons i path ih =>
    rw [Heap.follow, Heap.follow, h.held hv.has]
    exact Option.bind_congr fun w hw => ih (hv.of_mem_held (List.mem_of_getElem? hw))

/-- Copying out gives the same data as before. -/
theorem unfolds (h : heap.Grown heap') (hv : heap.Closed v) (hd : heap.Unfolds v d) :
    heap'.Unfolds v d := by
  induction hd with
  | scalar hscalar => exact .scalar hscalar
  | array hsize _ ih =>
    have hsame := h.elements hv.has
    refine .array (hsame ▸ hsize) fun w d hmem => ?_
    rw [hsame] at hmem
    exact ih w d hmem (hv.of_mem_held (List.of_mem_zip hmem).1)
  | object hkeys _ ih =>
    have hsame := h.entries hv.has
    refine .object ((congrArg Entries.keys hsame).trans hkeys) fun w d hmem => ?_
    rw [hsame] at hmem
    exact ih w d hmem (hv.of_mem_held (List.of_mem_zip hmem).1)

end Grown

/-! ## New arrays and objects -/

/-- An array or object that was added. -/
structure New (heap heap' : Heap) (v : Value) : Prop where
  isContainer : v.isContainer = true
  has : heap'.Has v
  new : ¬ heap.Has v

namespace New

theorem of_grown_left (h : New heap' heap'' v) (hgrown : heap.Grown heap') : New heap heap'' v :=
  ⟨h.isContainer, h.has, mt hgrown.has h.new⟩

theorem of_grown_right (h : New heap heap' v) (hgrown : heap'.Grown heap'') : New heap heap'' v :=
  ⟨h.isContainer, hgrown.has h.has, h.new⟩

theorem before_or_after (h : New heap heap'' v) (heap' : Heap) :
    New heap heap' v ∨ New heap' heap'' v := by
  by_cases hbetween : heap'.Has v
  · exact .inl ⟨h.isContainer, hbetween, h.new⟩
  · exact .inr ⟨h.isContainer, h.has, hbetween⟩

end New

/-- What is reached from values by a path, the first number of which picks one of them. -/
def followAmong (heap : Heap) (values : List Value) : List Nat → Option Value
  | [] => none
  | i :: path => values[i]?.bind fun v => heap.follow v path

/-- A path is empty or leads through what is held. -/
theorem follow_eq_some_iff {path : List Nat} : heap.follow v path = some w ↔
    path = [] ∧ v = w ∨ heap.followAmong (heap.held v) path = some w := by
  cases path with
  | nil =>
    constructor
    · exact fun h => .inl ⟨rfl, Option.some.inj h⟩
    · rintro (⟨_, rfl⟩ | h)
      · rfl
      · cases h
  | cons i path =>
    constructor
    · exact .inr
    · rintro (⟨h, _⟩ | h)
      · cases h
      · exact h

/-- Among a single value every path begins with zero. -/
theorem followAmong_singleton_iff {path : List Nat} : heap.followAmong [v] path = some w ↔
    ∃ rest, path = 0 :: rest ∧ heap.follow v rest = some w := by
  constructor
  · intro h
    cases path with
    | nil => cases h
    | cons i rest =>
      cases i with
      | zero => exact ⟨rest, rfl, h⟩
      | succ i => cases h
  · rintro ⟨rest, rfl, h⟩
    exact h

/-- A path into two lists in a row leads into the one or, counted on, into the other. -/
theorem followAmong_append_iff {values values' : List Value} {path : List Nat} :
    heap.followAmong (values ++ values') path = some w ↔
      heap.followAmong values path = some w ∨
      ∃ i rest, path = (values.length + i) :: rest ∧ heap.followAmong values' (i :: rest) = some w := by
  cases path with
  | nil =>
    constructor
    · rintro ⟨⟩
    · rintro (h | ⟨i, rest, h, _⟩)
      · cases h
      · cases h
  | cons i rest =>
    -- the first number of the path tells in which list it goes on
    by_cases hlt : i < values.length
    · have hsame : heap.followAmong (values ++ values') (i :: rest) =
          heap.followAmong values (i :: rest) := by
        rw [followAmong, followAmong, List.getElem?_append_left hlt]
      rw [hsame]
      constructor
      · exact .inl
      · rintro (h | ⟨j, rest', h, _⟩)
        · exact h
        · have hhead := (List.cons.inj h).1
          omega
    · obtain ⟨j, rfl⟩ := Nat.exists_eq_add_of_le (Nat.le_of_not_lt hlt)
      have hsame : heap.followAmong (values ++ values') ((values.length + j) :: rest) =
          heap.followAmong values' (j :: rest) := by
        rw [followAmong, followAmong, List.getElem?_append_right (Nat.le_add_right _ _),
          Nat.add_sub_cancel_left]
      rw [hsame]
      constructor
      · exact fun h => .inr ⟨j, rest, rfl, h⟩
      · rintro (h | ⟨k, rest', h, hk⟩)
        · rw [followAmong, List.getElem?_eq_none (Nat.le_add_right _ _)] at h
          cases h
        · obtain ⟨hhead, rfl⟩ := List.cons.inj h
          rcases Nat.add_left_cancel hhead with rfl
          exact hk

/-! ## Copies -/

/-- What copying data onto a heap comes to: values on a heap that has grown by the arrays and objects of
the data. Those are all that the values reach, and each is reached in one way. -/
structure Copied (heap heap' : Heap) (values : List Value) (data : List Datum) : Prop where
  grown : heap.Grown heap'
  count : heap'.arrays.size + heap'.objects.size =
    heap.arrays.size + heap.objects.size + total (data.map Datum.size)
  unfolds : List.Forall₂ heap'.Unfolds values data
  reached : ∀ path w, heap'.followAmong values path = some w → w.isContainer = true → New heap heap' w
  once : ∀ w, New heap heap' w → ∃! path, heap'.followAmong values path = some w

namespace Copied

/-- Whatever is reached from a copy is there. -/
theorem closed (h : heap.Copied heap' values data) (hv : v ∈ values) : heap'.Closed v := by
  intro path w hpath
  obtain ⟨i, hi⟩ := List.mem_iff_getElem?.mp hv
  have hamong : heap'.followAmong values (i :: path) = some w := by
    rw [followAmong, hi, Option.bind_some, hpath]
  cases w with
  | array handle | object handle => exact (h.reached _ _ hamong rfl).has
  | _ => trivial

/-- Nothing about a copy changes when the heap grows on. -/
theorem followAmong_eq (h : heap.Copied heap' values data) (hgrown : heap'.Grown heap'')
    (path : List Nat) : heap''.followAmong values path = heap'.followAmong values path := by
  cases path with
  | nil => rfl
  | cons i path =>
    exact Option.bind_congr fun v hv => hgrown.follow (h.closed (List.mem_of_getElem? hv)) path

/-- A copy stays one while the heap grows. -/
theorem unfolds_of_grown (h : heap.Copied heap' values data) (hgrown : heap'.Grown heap'') :
    List.Forall₂ heap''.Unfolds values data := by
  obtain ⟨hlength, hunfolds⟩ := List.forall₂_iff_zip.mp h.unfolds
  refine List.forall₂_iff_zip.mpr ⟨hlength, fun hmem => ?_⟩
  exact hgrown.unfolds (h.closed (List.of_mem_zip hmem).1) (hunfolds hmem)

theorem nil (heap : Heap) : heap.Copied heap [] [] := by
  refine ⟨.refl heap, rfl, .nil, fun path w hpath => ?_, fun w hnew => absurd hnew.has hnew.new⟩
  cases path with
  | nil => cases hpath
  | cons i path => cases hpath

/-- A value that holds nothing is its own copy. -/
theorem scalar (heap : Heap) (h : v.datum? = some d) : heap.Copied heap [v] [d] := by
  have hscalar : v.isContainer = false ∧ heap.held v = [] ∧ d.size = 0 := by
    cases v with
    | array handle | object handle => cases h
    | _ =>
      cases h
      exact ⟨rfl, rfl, Datum.size_of_not_isContainer rfl⟩
  obtain ⟨hnot, hnone, hsize⟩ := hscalar
  refine ⟨.refl heap, ?_, .cons (.scalar h) .nil, fun path w hpath hw => ?_,
    fun w hnew => absurd hnew.has hnew.new⟩
  · rw [List.map_cons, List.map_nil, total_cons, hsize]
    rfl
  · obtain ⟨rest, _, hrest⟩ := followAmong_singleton_iff.mp hpath
    rcases follow_eq_some_iff.mp hrest with ⟨_, rfl⟩ | hinside
    · rw [hnot] at hw
      cases hw
    · rw [hnone] at hinside
      exact (nil heap).reached rest w hinside hw

/-- One copy after another. -/
theorem append {values' : List Value} {data' : List Datum} (h : heap.Copied heap' values data)
    (h' : heap'.Copied heap'' values' data') :
    heap.Copied heap'' (values ++ values') (data ++ data') := by
  have hsame := h.followAmong_eq h'.grown
  constructor
  case grown => exact h.grown.trans h'.grown
  case count =>
    have hcount := h.count
    have hcount' := h'.count
    rw [List.map_append, total_append]
    omega
  case unfolds => exact List.rel_append (h.unfolds_of_grown h'.grown) h'.unfolds
  case reached =>
    intro path w hpath hw
    rcases followAmong_append_iff.mp hpath with hfirst | ⟨i, rest, _, hrest⟩
    · rw [hsame] at hfirst
      exact (h.reached path w hfirst hw).of_grown_right h'.grown
    · exact (h'.reached _ w hrest hw).of_grown_left h.grown
  case once =>
    intro w hnew
    -- each half of the values reaches only what was added with it
    rcases hnew.before_or_after heap' with hbefore | hafter
    · obtain ⟨path, hpath, hunique⟩ := h.once w hbefore
      refine ⟨path, followAmong_append_iff.mpr (.inl ((hsame path).trans hpath)), fun path' hpath' => ?_⟩
      rcases followAmong_append_iff.mp hpath' with hfirst | ⟨i, rest, _, hrest⟩
      · rw [hsame] at hfirst
        exact hunique path' hfirst
      · exact absurd hbefore.has (h'.reached _ w hrest hnew.isContainer).new
    · obtain ⟨path, hpath, hunique⟩ := h'.once w hafter
      cases path with
      | nil => cases hpath
      | cons i rest =>
        refine ⟨(values.length + i) :: rest, followAmong_append_iff.mpr (.inr ⟨i, rest, rfl, hpath⟩),
          fun path' hpath' => ?_⟩
        rcases followAmong_append_iff.mp hpath' with hfirst | ⟨j, rest', rfl, hrest⟩
        · rw [hsame] at hfirst
          exact absurd (h.reached _ w hfirst hnew.isContainer).has hafter.new
        · obtain ⟨rfl, rfl⟩ := List.cons.inj (hunique _ hrest)
          rfl

/-- An array or object that is added around a copy. -/
theorem wrap (h : heap.Copied heap' values data) (hgrown : heap'.Grown heap'')
    (hcount : heap''.arrays.size + heap''.objects.size = heap'.arrays.size + heap'.objects.size + 1)
    (hnew : New heap' heap'' v) (honly : ∀ w, New heap' heap'' w → w = v)
    (hheld : heap''.held v = values) (hsize : d.size = 1 + total (data.map Datum.size))
    (hd : List.Forall₂ heap''.Unfolds values data → heap''.Unfolds v d) :
    heap.Copied heap'' [v] [d] := by
  have hsame := h.followAmong_eq hgrown
  -- paths from the new value: it is reached by the empty one, everything else through what it holds
  have hcases : ∀ {path w}, heap''.followAmong [v] path = some w ↔
      ∃ rest, path = 0 :: rest ∧ (rest = [] ∧ v = w ∨ heap'.followAmong values rest = some w) := by
    intro path w
    rw [followAmong_singleton_iff]
    refine exists_congr fun rest => and_congr_right fun _ => ?_
    rw [follow_eq_some_iff, hheld, hsame]
  constructor
  case grown => exact h.grown.trans hgrown
  case count =>
    have hbefore := h.count
    rw [List.map_cons, List.map_nil, total_cons, hsize]
    change _ = _ + (_ + 0)
    omega
  case unfolds => exact .cons (hd (h.unfolds_of_grown hgrown)) .nil
  case reached =>
    intro path w hpath hw
    obtain ⟨rest, _, ⟨_, rfl⟩ | hinside⟩ := hcases.mp hpath
    · exact hnew.of_grown_left h.grown
    · exact (h.reached rest w hinside hw).of_grown_right hgrown
  -- the new value is reached from nowhere else, as what was copied before knows nothing of it
  case once =>
    intro w hw
    rcases hw.before_or_after heap' with hbefore | hafter
    · obtain ⟨path, hpath, hunique⟩ := h.once w hbefore
      refine ⟨0 :: path, hcases.mpr ⟨path, rfl, .inr hpath⟩, fun path' hpath' => ?_⟩
      obtain ⟨rest, rfl, ⟨_, rfl⟩ | hinside⟩ := hcases.mp hpath'
      · exact absurd hbefore.has hnew.new
      · rw [hunique rest hinside]
    · rcases honly w hafter with rfl
      refine ⟨[0], hcases.mpr ⟨[], rfl, .inl ⟨rfl, rfl⟩⟩, fun path' hpath' => ?_⟩
      obtain ⟨rest, rfl, ⟨rfl, _⟩ | hinside⟩ := hcases.mp hpath'
      · rfl
      · exact absurd (h.reached rest w hinside hw.isContainer).has hafter.new

/-- Copies of the elements and a new array for them are a copy of the array. -/
theorem addArray (h : heap.Copied heap' values data) :
    heap.Copied (heap'.addArray values).1 [(heap'.addArray values).2] [.array data] := by
  have hsize : (heap'.addArray values).1.arrays.size = heap'.arrays.size + 1 := Array.size_push _
  have hheld : (heap'.addArray values).1.held (heap'.addArray values).2 = values := by
    change ((heap'.addArray values).1.elements heap'.arrays.size).toList = values
    rw [elements_addArray, if_pos rfl]
  refine h.wrap (.addArray heap' values) ?_ ⟨rfl, has_addArray heap' values, Nat.lt_irrefl _⟩ ?_ hheld
    (Datum.size_array data) ?_
  · rw [hsize]
    exact Nat.add_right_comm _ _ _
  · intro w hw
    cases w with
    | array handle =>
      have hlt := Nat.lt_of_lt_of_eq hw.has hsize
      have hge := hw.new
      exact congrArg Value.array (Nat.eq_of_lt_succ_of_not_lt hlt hge)
    | object handle => exact absurd hw.has hw.new
    | _ => cases hw.isContainer
  · exact fun hunfolds => .assemble rfl (hheld.symm ▸ hunfolds)

end Copied

/-- What copying entries onto a heap comes to: their values are copied, under the same keys. -/
structure CopiedEntries (heap heap' : Heap) (entries : List (String × Value))
    (copied : List (String × Datum)) : Prop where
  values : heap.Copied heap' (entries.map Prod.snd) (copied.map Prod.snd)
  keys : entries.map Prod.fst = copied.map Prod.fst

namespace CopiedEntries

variable {entries : List (String × Value)} {copied : List (String × Datum)}

theorem nil (heap : Heap) : heap.CopiedEntries heap [] [] := ⟨.nil heap, rfl⟩

/-- An entry more, with a copy of its value. -/
theorem append_singleton (h : heap.CopiedEntries heap' entries copied)
    (hv : heap'.Copied heap'' [v] [d]) (key : String) :
    heap.CopiedEntries heap'' (entries ++ [(key, v)]) (copied ++ [(key, d)]) := by
  constructor
  · rw [List.map_append, List.map_append]
    exact h.values.append hv
  · rw [List.map_append, List.map_append, h.keys]
    rfl

/-- Copies of the entries and a new object for them are a copy of the object, if no key comes twice. -/
theorem addObject (h : heap.CopiedEntries heap' entries copied)
    (hnodup : (copied.map Prod.fst).Nodup) :
    heap.Copied (heap'.addObject entries).1 [(heap'.addObject entries).2] [.object copied] := by
  have hsize : (heap'.addObject entries).1.objects.size = heap'.objects.size + 1 := Array.size_push _
  have hentries : (heap'.addObject entries).1.entries heap'.objects.size = entries := by
    rw [entries_addObject, if_pos rfl, Entries.ofList_of_nodup (h.keys ▸ hnodup)]
  refine h.values.wrap (.addObject heap' entries) ?_
      ⟨rfl, has_addObject heap' entries, Nat.lt_irrefl _⟩ ?_
    (congrArg (List.map Prod.snd) hentries) ?_ ?_
  · rw [hsize]
    exact (Nat.add_assoc _ _ _).symm
  -- The only new object is the last one, and no array is new.
  · intro w hw
    cases w with
    | array handle => exact absurd hw.has hw.new
    | object handle =>
      have hlt := Nat.lt_of_lt_of_eq hw.has hsize
      have hge := hw.new
      exact congrArg Value.object (Nat.eq_of_lt_succ_of_not_lt hlt hge)
    | _ => cases hw.isContainer
  · rw [Datum.size_object, List.map_map]
    rfl
  · intro hunfolds
    refine .object ((congrArg Entries.keys hentries).trans h.keys) fun w d hmem => ?_
    rw [hentries] at hmem
    exact List.forall₂_zip hunfolds hmem

end CopiedEntries

mutual

/-- Copying in gives a copy. -/
theorem copied_importAt (level : Nat) (heap : Heap) (d : Datum) (h : d.KeysDistinct) :
    heap.Copied (importAt level heap d).1 [(importAt level heap d).2] [d] := by
  -- what holds nothing needs nothing new
  cases d with
  | array items =>
    have hitems := copied_importItems (level + 1) [] (.nil heap) items fun item hitem =>
      h.of_mem_held hitem
    unfold importAt
    rw [deepen_eq]
    exact hitems.addArray
  | object entries =>
    have hentries := copied_importEntries (level + 1) [] (.nil heap) entries
      fun entry hentry => h.of_mem_held (List.mem_map_of_mem hentry)
    unfold importAt
    rw [deepen_eq]
    exact hentries.addObject h.nodup
  | _ => exact .scalar heap rfl

/-- Elements are copied one after the other, each behind those that were. -/
theorem copied_importItems (level : Nat) {heap heap' : Heap} (done : List Value) {data : List Datum}
    (hdone : heap.Copied heap' done.reverse data) (items : List Datum)
    (h : ∀ item ∈ items, item.KeysDistinct) :
    heap.Copied (importItems level heap' done items).1 (importItems level heap' done items).2
      (data ++ items) := by
  -- `data` is what was copied into `done`, which is the copies so far, the last in front
  cases items with
  | nil =>
    rw [List.append_nil]
    exact hdone
  | cons item rest =>
    have h := List.forall_mem_cons.mp h
    have hitem := hdone.append (copied_importAt level heap' item h.1)
    rw [← List.reverse_cons] at hitem
    have hrest := copied_importItems level _ hitem rest h.2
    rwa [List.append_assoc, List.singleton_append] at hrest

theorem copied_importEntries (level : Nat) {heap heap' : Heap} (done : List (String × Value))
    {copied : List (String × Datum)} (hdone : heap.CopiedEntries heap' done.reverse copied)
    (entries : List (String × Datum)) (h : ∀ entry ∈ entries, entry.2.KeysDistinct) :
    heap.CopiedEntries (importEntries level heap' done entries).1
      (importEntries level heap' done entries).2 (copied ++ entries) := by
  cases entries with
  | nil =>
    rw [List.append_nil]
    exact hdone
  | cons entry rest =>
    have h := List.forall_mem_cons.mp h
    have hentry := hdone.append_singleton (copied_importAt level heap' entry.2 h.1) entry.1
    rw [← List.reverse_cons] at hentry
    have hrest := copied_importEntries level _ hentry rest h.2
    rwa [List.append_assoc, List.singleton_append] at hrest

end

/-- Data with distinct keys is copied onto a heap without a change to what was there, into as many new
arrays and objects as the data has. The value made of it reaches nothing else, and it reaches each of
them by one path. Copying that value out again gives the data. -/
theorem exportDatum?_importDatum {heap heap' : Heap} {v : Value} {d : Datum} (h : d.KeysDistinct)
    (himport : heap.importDatum d = (heap', v)) :
    heap.arrays.toList <+: heap'.arrays.toList ∧ heap.objects.toList <+: heap'.objects.toList ∧
    heap'.arrays.size + heap'.objects.size = heap.arrays.size + heap.objects.size + d.size ∧
    (∀ path w, heap'.follow v path = some w → w.isContainer = true → New heap heap' w) ∧
    (∀ w, New heap heap' w → ∃! path, heap'.follow v path = some w) ∧
    heap'.exportDatum? v = .ok d := by
  have hcopied : heap.Copied heap' [v] [d] := by
    have hcopied := copied_importAt 0 heap d h
    unfold importDatum at himport
    rwa [himport] at hcopied
  refine ⟨hcopied.grown.arrays, hcopied.grown.objects, hcopied.count, ?_, ?_, ?_⟩
  · exact fun path w hpath hw => hcopied.reached (0 :: path) w hpath hw
  · intro w hnew
    -- A path from the only root starts with its index, which is taken off again.
    obtain ⟨path, hpath, hunique⟩ := hcopied.once w hnew
    obtain ⟨rest, rfl, hrest⟩ := followAmong_singleton_iff.mp hpath
    refine ⟨rest, hrest, fun path' hpath' => ?_⟩
    exact (List.cons.inj (hunique (0 :: path') hpath')).2
  · obtain ⟨hunfolds, _⟩ := List.forall₂_cons.mp hcopied.unfolds
    exact exportDatum?_eq_ok_iff.mpr hunfolds

/-- An object with an array and another object inside. -/
def nestedData : Datum := .object [("a", .array [.null]), ("b", .object [])]

/-- On a heap where an array contains itself, the second array is new and is reached in one way. -/
theorem exportDatum?_importDatum_nested :
    nestedData.KeysDistinct ∧ ∃ heap' v,
      importDatum ⟨#[#[.array 0]], #[]⟩ nestedData = (heap', v) ∧
      (∃! path, heap'.follow v path = some (.array 1)) ∧ heap'.exportDatum? v = .ok nestedData := by
  have hempty : ∀ {d : Datum}, d.keys = [] → d.held = [] → d.KeysDistinct := fun hkeys hheld =>
    .intro (hkeys ▸ List.nodup_nil) fun inner hinner => absurd (hheld ▸ hinner) List.not_mem_nil
  have hdistinct : nestedData.KeysDistinct := by
    refine .intro (by decide) (List.forall_mem_cons.mpr ⟨?_, List.forall_mem_singleton.mpr ?_⟩)
    · exact .intro List.nodup_nil (List.forall_mem_singleton.mpr (hempty rfl rfl))
    · exact hempty rfl rfl
  refine ⟨hdistinct, _, _, rfl, ?_⟩
  obtain ⟨_, _, _, _, honce, hexport⟩ := exportDatum?_importDatum hdistinct rfl
  exact ⟨honce (.array 1) ⟨rfl, Nat.lt_succ_self 1, Nat.lt_irrefl 1⟩, hexport⟩

end Heap

end MeteredScript
