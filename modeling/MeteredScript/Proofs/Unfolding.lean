import MeteredScript.Proofs.Sharing

namespace MeteredScript

/-! # Unfolding values

What an array or object holds is reached by paths (`Heap.follow`), and an array or object lies on a
cycle if a path leads back to it. A value that reaches no cycle has an unfolding, which is the data
that holds what the value holds all the way down (`Heap.Unfolds`). Main statement: copying a value off
the heap gives its unfolding, and it fails for exactly those values that reach a cycle.
-/

/-! ## Values and data -/

/-- The data of a value that is neither an array nor an object. -/
def Value.datum? : Value → Option Datum
  | .number value => some (.number value)
  | .nan => some .nan
  | .string value => some (.string value)
  | .boolean value => some (.boolean value)
  | .null => some .null
  | .undefined => some .undefined
  | .array _ | .object _ => none

/-- A value without a copy of its own is an array or an object. -/
theorem Value.isContainer_of_datum?_eq_none {v : Value} (h : v.datum? = none) :
    v.isContainer = true := by
  cases v with
  | array handle | object handle => rfl
  | _ => cases h

/-- The fault of a value that contains itself. -/
def Value.cycleFault : Value → RangeFault
  | .object _ => .cyclicObject
  | _ => .cyclicArray

/-- What data holds is smaller. -/
theorem Datum.sizeOf_lt_of_mem_held {d inner : Datum} (h : inner ∈ d.held) :
    sizeOf inner < sizeOf d := by
  cases d with
  | array items =>
    have hitem := List.sizeOf_lt_of_mem (show inner ∈ items from h)
    rw [Datum.array.sizeOf_spec]
    omega
  | object entries =>
    obtain ⟨⟨key, value⟩, hentry, rfl⟩ := List.mem_map.mp h
    have hlt := List.sizeOf_lt_of_mem hentry
    rw [Prod.mk.sizeOf_spec] at hlt
    rw [Datum.object.sizeOf_spec]
    dsimp only
    omega
  | _ => cases h

namespace Heap

variable {heap : Heap} {v w : Value} {d d' : Datum}

/-! ## Paths and cycles -/

/-- What is reached from a value by a path. Each number of the path picks one of the values held. -/
def follow (heap : Heap) (v : Value) : List Nat → Option Value
  | [] => some v
  | i :: path => (heap.held v)[i]?.bind fun w => heap.follow w path

/-- An array or object that contains itself: a path leads back to it. -/
def OnCycle (heap : Heap) (v : Value) : Prop := ∃ path, path ≠ [] ∧ heap.follow v path = some v

def ReachesCycle (heap : Heap) (v : Value) : Prop :=
  ∃ path w, heap.follow v path = some w ∧ heap.OnCycle w

/-- A path goes on where another one ends. -/
theorem follow_append (path path' : List Nat) :
    heap.follow v (path ++ path') = (heap.follow v path).bind fun w => heap.follow w path' := by
  induction path generalizing v with
  | nil => rfl
  | cons i path ih =>
    rw [List.cons_append, follow, follow, Option.bind_assoc]
    exact Option.bind_congr fun w _ => ih

theorem follow_cons_of_getElem? {i : Nat} (h : (heap.held v)[i]? = some w) (path : List Nat) :
    heap.follow v (i :: path) = heap.follow w path := by
  rw [follow, h, Option.bind_some]

/-- What a value holds is one step away. -/
theorem exists_follow_of_mem_held (h : w ∈ heap.held v) : ∃ i, heap.follow v [i] = some w := by
  obtain ⟨i, hi⟩ := List.mem_iff_getElem?.mp h
  exact ⟨i, follow_cons_of_getElem? hi []⟩

/-! ## Unfoldings -/

/-- The data is all that the value holds, in its order and under its keys, down to the values that
hold nothing. -/
inductive Unfolds (heap : Heap) : Value → Datum → Prop
  | scalar {v : Value} {d : Datum} : v.datum? = some d → Unfolds heap v d
  | array {handle : Nat} {items : List Datum} :
      (heap.elements handle).size = items.length →
      (∀ v d, (v, d) ∈ (heap.elements handle).toList.zip items → Unfolds heap v d) →
      Unfolds heap (.array handle) (.array items)
  | object {handle : Nat} {entries : List (String × Datum)} :
      heap.keys handle = entries.map Prod.fst →
      (∀ v d, (v, d) ∈ ((heap.entries handle).map Prod.snd).zip (entries.map Prod.snd) →
        Unfolds heap v d) →
      Unfolds heap (.object handle) (.object entries)

theorem length_held_object {handle : Nat} {entries : List (String × Datum)}
    (hkeys : heap.keys handle = entries.map Prod.fst) :
    ((heap.entries handle).map Prod.snd).length = (entries.map Prod.snd).length := by
  have hlength := congrArg List.length hkeys
  unfold keys Entries.keys at hlength
  rwa [List.length_map, List.length_map] at hlength ⊢

namespace Unfolds

/-- What a value holds unfolds one by one to what its data holds. -/
theorem held (h : heap.Unfolds v d) : List.Forall₂ heap.Unfolds (heap.held v) d.held := by
  cases h with
  | scalar hscalar =>
    cases v with
    | array handle | object handle => cases hscalar
    | _ =>
      rcases Option.some.inj hscalar with rfl
      exact .nil
  | array hsize hitems =>
    rw [← Array.length_toList] at hsize
    exact List.forall₂_iff_zip.mpr ⟨hsize, fun hmem => hitems _ _ hmem⟩
  | object hkeys hvalues =>
    exact List.forall₂_iff_zip.mpr ⟨length_held_object hkeys, fun hmem => hvalues _ _ hmem⟩

theorem eq_of_forall₂ {values : List Value} {data data' : List Datum}
    (h : List.Forall₂ (fun v d => ∀ d', heap.Unfolds v d' → d = d') values data)
    (h' : List.Forall₂ heap.Unfolds values data') : data = data' := by
  induction h generalizing data' with
  | nil =>
    cases h'
    rfl
  | cons hfirst _ ih =>
    cases h' with
    | cons hfirst' hrest' => rw [hfirst _ hfirst', ih hrest']

/-- A value has one unfolding at most. -/
theorem unique (h : heap.Unfolds v d) (h' : heap.Unfolds v d') : d = d' := by
  induction h generalizing d' with
  | scalar hscalar =>
    cases h' with
    | scalar hscalar' => exact Option.some.inj (hscalar.symm.trans hscalar')
    | array | object => cases hscalar
  | @array handle items hsize _ ih =>
    have hheld := h'.held
    cases h' with
    | scalar hscalar' => cases hscalar'
    | array =>
      rw [← Array.length_toList] at hsize
      exact congrArg Datum.array
        (eq_of_forall₂ (List.forall₂_iff_zip.mpr ⟨hsize, fun hmem d' => ih _ _ hmem⟩) hheld)
  | @object handle entries hkeys _ ih =>
    have hheld := h'.held
    cases h' with
    | scalar hscalar' => cases hscalar'
    | @object _ entries' hkeys' _ =>
      -- The keys agree by the heap, the values by induction, and the entries are the two put together.
      have hvalues := eq_of_forall₂ (List.forall₂_iff_zip.mpr
        ⟨length_held_object hkeys, fun hmem d' => ih _ _ hmem⟩) hheld
      have hentries := List.zip_of_prod (rfl : entries.map Prod.fst = _) rfl
      have hentries' := List.zip_of_prod (hkeys'.symm.trans hkeys) hvalues.symm
      exact congrArg Datum.object (hentries.trans hentries'.symm)

/-- What is reached unfolds too, to data that is smaller by the way there. -/
theorem exists_of_follow (h : heap.Unfolds v d) {path : List Nat}
    (hpath : heap.follow v path = some w) :
    ∃ d', heap.Unfolds w d' ∧ sizeOf d' + path.length ≤ sizeOf d := by
  induction path generalizing v d with
  | nil =>
    rcases Option.some.inj hpath with rfl
    exact ⟨d, h, Nat.le_refl _⟩
  | cons i path ih =>
    obtain ⟨x, hx, hpath⟩ := Option.bind_eq_some_iff.mp hpath
    obtain ⟨inner, hinner, hunfolds⟩ := exists_mem_of_forall₂ h.held (List.mem_of_getElem? hx)
    have hlt := Datum.sizeOf_lt_of_mem_held hinner
    obtain ⟨d', hd', hle⟩ := ih hunfolds hpath
    refine ⟨d', hd', ?_⟩
    rw [List.length_cons]
    omega

/-- On a cycle, the data would have to be smaller than itself. -/
theorem not_onCycle (h : heap.Unfolds v d) : ¬ heap.OnCycle v := by
  rintro ⟨path, hpath, hback⟩
  obtain ⟨d', hd', hle⟩ := h.exists_of_follow hback
  have hpos := List.length_pos_iff.mpr hpath
  rw [h.unique hd'] at hle
  omega

theorem not_reachesCycle (h : heap.Unfolds v d) : ¬ heap.ReachesCycle v := by
  rintro ⟨path, w, hpath, hcycle⟩
  obtain ⟨d', hd', _⟩ := h.exists_of_follow hpath
  exact hd'.not_onCycle hcycle

end Unfolds

/-! ## Copying out, step by step -/

/-- The data of an array or object, out of the data of what it holds. -/
def assemble (heap : Heap) : Value → List Datum → Datum
  | .object handle, copies => .object ((heap.keys handle).zip copies)
  | _, copies => .array copies

/-- Unfoldings of what is held make up that of the whole. -/
theorem Unfolds.assemble {copies : List Datum} (hv : v.isContainer = true)
    (h : List.Forall₂ heap.Unfolds (heap.held v) copies) :
    heap.Unfolds v (heap.assemble v copies) := by
  obtain ⟨hlength, hcopies⟩ := List.forall₂_iff_zip.mp h
  cases v with
  | array handle => exact .array (by rwa [← Array.length_toList]) fun w d hmem => hcopies hmem
  | object handle =>
    have hkeys : (heap.keys handle).length = copies.length := by
      unfold Heap.held at hlength
      unfold keys Entries.keys
      rwa [List.length_map] at hlength ⊢
    refine .object (List.map_fst_zip (Nat.le_of_eq hkeys)).symm fun w d hmem => ?_
    rw [List.map_snd_zip (Nat.le_of_eq hkeys.symm)] at hmem
    exact hcopies hmem
  | _ => cases hv

variable {level bound : Nat} {around : Surroundings}

/-- A value that holds nothing is copied at once. -/
theorem exportAt?_of_datum? (h : v.datum? = some d) :
    heap.exportAt? level bound around v = .ok d := by
  unfold exportAt?
  cases v with
  | array handle | object handle => cases h
  | _ =>
    cases h
    rfl

/-- An array or object inside itself is refused. -/
theorem exportAt?_of_not_admits (hv : v.isContainer = true) (h : ¬ around.admits v = true) :
    heap.exportAt? level bound around v = .error v.cycleFault := by
  unfold exportAt?
  cases v with
  | array handle =>
    exact if_pos (Decidable.not_not.mp (mt Surroundings.admits_array.mpr h))
  | object handle =>
    exact if_pos (Decidable.not_not.mp (mt Surroundings.admits_object.mpr h))
  | _ => cases hv

/-- With no bound left, nothing of what is held is copied. -/
theorem exportAt?_zero_of_admits (h : around.admits v = true) :
    heap.exportAt? level 0 around v = .ok (heap.assemble v []) := by
  unfold exportAt?
  cases v with
  | array handle => exact if_neg (Surroundings.admits_array.mp h)
  | object handle =>
    unfold assemble
    dsimp only
    rw [List.zip_nil_right, if_neg (Surroundings.admits_object.mp h)]
  | _ => cases h

theorem mapM_entries {α β ε : Type} (f : α → Except ε β) (entries : List (String × α)) :
    (entries.mapM fun entry => do return (entry.1, ← f entry.2)) =
      (entries.map Prod.snd).mapM f >>= fun values => pure ((entries.map Prod.fst).zip values) := by
  induction entries with
  | nil => rfl
  | cons entry rest ih =>
    rw [List.mapM_cons, List.map_cons, List.mapM_cons, ih]
    cases f entry.2 with
    | error e => rfl
    | ok value =>
      cases (rest.map Prod.snd).mapM f with
      | error e => rfl
      | ok values => rfl

/-- What is held is copied, one after the other, with the whole among the surroundings. -/
theorem exportAt?_of_admits (h : around.admits v = true) :
    heap.exportAt? level (bound + 1) around v =
      (heap.held v).mapM (heap.exportAt? (level + 1) bound (around.enter v)) >>= fun copies =>
        pure (heap.assemble v copies) := by
  rw [exportAt?.eq_def]
  cases v with
  | array handle =>
    dsimp only
    rw [if_neg (Surroundings.admits_array.mp h), deepen_eq]
    rfl
  | object handle =>
    dsimp only
    rw [if_neg (Surroundings.admits_object.mp h), deepen_eq, mapM_entries, bind_assoc]
    rfl
  | _ => cases h

/-! ## Copying out gives the unfolding -/

/-- A list fails with the failure of a member. -/
theorem exists_of_mapM_error {α β ε : Type} {f : α → Except ε β} {l : List α} {e : ε}
    (h : l.mapM f = .error e) : ∃ a ∈ l, f a = .error e := by
  -- a member in front may have failed before the others are looked at
  induction l with
  | nil => cases h
  | cons a rest ih =>
    rw [List.mapM_cons] at h
    cases ha : f a with
    | error e' =>
      rw [ha] at h
      cases h
      exact ⟨a, List.mem_cons_self, ha⟩
    | ok b =>
      rw [ha] at h
      cases hrest : rest.mapM f with
      | error e' =>
        rw [hrest] at h
        cases h
        obtain ⟨a', ha', he⟩ := ih hrest
        exact ⟨a', List.mem_cons_of_mem a ha', he⟩
      | ok bs =>
        rw [hrest] at h
        cases h

/-- How many arrays and objects are not around. -/
def unvisited (heap : Heap) (around : Surroundings) : Nat :=
  unseen (fun _ => 1) around.arrays.contains heap.arrays.size +
    unseen (fun _ => 1) around.objects.contains heap.objects.size

theorem has_of_holds (hw : w ∈ heap.held v) : heap.Has v := by
  cases v with
  | array handle =>
    by_contra hnot
    have hnone := elements_of_size_le (Nat.le_of_not_lt hnot)
    rw [held, hnone] at hw
    exact absurd hw List.not_mem_nil
  | object handle =>
    by_contra hnot
    have hnone := entries_of_size_le (Nat.le_of_not_lt hnot)
    rw [held, hnone] at hw
    exact absurd hw List.not_mem_nil
  | _ => trivial

/-- Inside an array or object there is one less that was not visited. -/
theorem unvisited_enter_lt (h : around.admits v = true) (hw : w ∈ heap.held v) :
    heap.unvisited (around.enter v) < heap.unvisited around := by
  have hthere := has_of_holds hw
  cases v with
  | array handle =>
    have hless := unseen_insert_add_le (fun _ => 1) hthere (Surroundings.admits_array.mp h)
    unfold unvisited
    change unseen _ (around.arrays.insert handle).contains _ + unseen _ around.objects.contains _ < _
    omega
  | object handle =>
    have hless := unseen_insert_add_le (fun _ => 1) hthere (Surroundings.admits_object.mp h)
    unfold unvisited
    change unseen _ around.arrays.contains _ + unseen _ (around.objects.insert handle).contains _ < _
    omega
  | _ => cases h

theorem unvisited_empty_le (heap : Heap) :
    heap.unvisited {} ≤ heap.arrays.size + heap.objects.size := by
  have hone : ∀ seen n, unseen (fun _ => 1) seen n ≤ n := fun seen n =>
    Nat.le_trans (unseen_le _ seen n) (Nat.le_of_eq (sumBelow_one n))
  exact Nat.add_le_add (hone _ _) (hone _ _)

/-- An array or object that is not around is copied by copying what it holds. If nothing is left to be
visited, it holds nothing. -/
theorem exportAt?_eq_mapM (hbound : heap.unvisited around ≤ bound) (h : around.admits v = true) :
    heap.exportAt? level bound around v =
      (heap.held v).mapM (heap.exportAt? (level + 1) (bound - 1) (around.enter v)) >>= fun copies =>
        pure (heap.assemble v copies) := by
  cases bound with
  | zero =>
    have hnone : heap.held v = [] := by
      refine List.eq_nil_iff_forall_not_mem.mpr fun w hw => ?_
      have hlt := unvisited_enter_lt h hw
      omega
    rw [exportAt?_zero_of_admits h, hnone]
    rfl
  | succ bound => exact exportAt?_of_admits h

/-- The copy of a value is its unfolding, whatever is around it. -/
theorem unfolds_of_exportAt? (hbound : heap.unvisited around ≤ bound)
    (h : heap.exportAt? level bound around v = .ok d) : heap.Unfolds v d := by
  -- what holds something was not visited, so that the bound lasts for one more level
  induction bound using Nat.strongRecOn generalizing level around v d with
  | ind bound ih =>
    cases hscalar : v.datum? with
    | some d' =>
      rw [exportAt?_of_datum? hscalar] at h
      cases h
      exact .scalar hscalar
    | none =>
      have hv := Value.isContainer_of_datum?_eq_none hscalar
      by_cases hadmits : around.admits v = true
      · rw [exportAt?_eq_mapM hbound hadmits] at h
        cases hcopies : (heap.held v).mapM
            (heap.exportAt? (level + 1) (bound - 1) (around.enter v)) with
        | error fault =>
          rw [hcopies] at h
          cases h
        | ok copies =>
          rw [hcopies] at h
          cases h
          refine .assemble hv (forall₂_of_mapM hcopies fun w hw d' hd' => ?_)
          have hlt := unvisited_enter_lt hadmits hw
          exact ih (bound - 1) (by omega) (by omega) hd'
      · rw [exportAt?_of_not_admits hv hadmits] at h
        cases h

/-! ## Copying out fails on a cycle -/

/-- The value is reached from each array and object around it. -/
def Encloses (heap : Heap) (around : Surroundings) (v : Value) : Prop :=
  ∀ w, w.isContainer = true → ¬ around.admits w = true →
    ∃ path, path ≠ [] ∧ heap.follow w path = some v

/-- Around the outermost value there is nothing. -/
theorem encloses_empty (heap : Heap) (v : Value) : heap.Encloses {} v := by
  intro w hw hadmits
  refine absurd ?_ hadmits
  cases w with
  | array handle | object handle => rfl
  | _ => cases hw

/-- What is refused inside is the value just entered, or was refused before. -/
theorem Surroundings.eq_or_not_admits_of_enter {around : Surroundings} (hw : w.isContainer = true)
    (h : ¬ (around.enter v).admits w = true) : v = w ∨ ¬ around.admits w = true := by
  have hinsert : ∀ {seen : Std.TreeSet Nat} {k k' : Nat}, (seen.insert k).contains k' = true →
      k = k' ∨ seen.contains k' = true := by
    intro seen k k' hcontains
    rw [Std.TreeSet.contains_insert, Bool.or_eq_true, beq_iff_eq, Std.compare_eq_iff_eq] at hcontains
    exact hcontains
  cases w with
  | array handle =>
    rw [admits_array, Decidable.not_not] at h ⊢
    -- arrays and objects have handles of their own, so only one of the two lists has grown
    cases v with
    | array handle' => exact (hinsert h).imp_left (congrArg Value.array)
    | _ => exact .inr h
  | object handle =>
    rw [admits_object, Decidable.not_not] at h ⊢
    cases v with
    | object handle' => exact (hinsert h).imp_left (congrArg Value.object)
    | _ => exact .inr h
  | _ => cases hw

/-- The surroundings of what is held reach it through the value that holds it. -/
theorem Encloses.enter {x : Value} (h : heap.Encloses around v) (hx : x ∈ heap.held v) :
    heap.Encloses (around.enter v) x := by
  intro w hw hadmits
  obtain ⟨i, hi⟩ := exists_follow_of_mem_held hx
  rcases Surroundings.eq_or_not_admits_of_enter hw hadmits with rfl | haround
  · exact ⟨[i], List.cons_ne_nil i [], hi⟩
  · obtain ⟨path, _, hpath⟩ := h w hw haround
    refine ⟨path ++ [i], List.append_ne_nil_of_right_ne_nil path (List.cons_ne_nil i []), ?_⟩
    rw [follow_append, hpath, Option.bind_some, hi]

/-- A copy fails at an array or object that contains itself, and says which of the two it is. -/
theorem exists_onCycle_of_exportAt? {fault : RangeFault} (hbound : heap.unvisited around ≤ bound)
    (haround : heap.Encloses around v) (h : heap.exportAt? level bound around v = .error fault) :
    ∃ path w, heap.follow v path = some w ∧ heap.OnCycle w ∧ fault = w.cycleFault := by
  induction bound using Nat.strongRecOn generalizing level around v with
  | ind bound ih =>
    cases hscalar : v.datum? with
    | some d' =>
      rw [exportAt?_of_datum? hscalar] at h
      cases h
    | none =>
      have hv := Value.isContainer_of_datum?_eq_none hscalar
      by_cases hadmits : around.admits v = true
      · rw [exportAt?_eq_mapM hbound hadmits] at h
        cases hcopies : (heap.held v).mapM
            (heap.exportAt? (level + 1) (bound - 1) (around.enter v)) with
        | ok copies =>
          rw [hcopies] at h
          cases h
        | error e =>
          rw [hcopies] at h
          cases h
          obtain ⟨x, hx, hfault⟩ := exists_of_mapM_error hcopies
          have hlt := unvisited_enter_lt hadmits hx
          obtain ⟨path, w, hpath, hcycle⟩ :=
            ih (bound - 1) (by omega) (by omega) (haround.enter hx) hfault
          obtain ⟨i, hi⟩ := List.mem_iff_getElem?.mp hx
          exact ⟨i :: path, w, (follow_cons_of_getElem? hi path).trans hpath, hcycle⟩
      · rw [exportAt?_of_not_admits hv hadmits] at h
        cases h
        -- the value is around itself, and it is reached from all that is around it
        exact ⟨[], v, rfl, haround v hv hadmits, rfl⟩

theorem unfolds_of_exportDatum? (h : heap.exportDatum? v = .ok d) : heap.Unfolds v d := by
  rw [exportDatum?_eq] at h
  exact unfolds_of_exportAt? heap.unvisited_empty_le h

/-- A refusal names what lies on a cycle. -/
theorem exists_onCycle_of_exportDatum? {fault : RangeFault}
    (h : heap.exportDatum? v = .error fault) :
    ∃ path w, heap.follow v path = some w ∧ heap.OnCycle w ∧ fault = w.cycleFault := by
  rw [exportDatum?_eq] at h
  exact exists_onCycle_of_exportAt? heap.unvisited_empty_le (heap.encloses_empty v) h

/-- Copying a value gives its unfolding, and all of it. -/
theorem exportDatum?_eq_ok_iff : heap.exportDatum? v = .ok d ↔ heap.Unfolds v d := by
  constructor
  · exact unfolds_of_exportDatum?
  · intro h
    cases hexport : heap.exportDatum? v with
    | ok d' => rw [h.unique (unfolds_of_exportDatum? hexport)]
    | error fault =>
      obtain ⟨path, w, hpath, hcycle, _⟩ := exists_onCycle_of_exportDatum? hexport
      exact absurd ⟨path, w, hpath, hcycle⟩ h.not_reachesCycle

end Heap

/-! ## Copying out at a place in the source -/

namespace Run

variable {v : Value} {s : State}

/-- A copy at a place in the source changes nothing. -/
theorem exportDatum_of_ok (span : Span) {d : Datum} (h : s.heap.exportDatum? v = .ok d) :
    exportDatum v span s = .ok d s := by
  have hread : exportDatum? v s = .ok (.ok d) s := congrArg (EStateM.Result.ok · s) h
  unfold exportDatum
  rw [bind_of_ok hread]
  rfl

theorem exportDatum_of_error (span : Span) {fault : RangeFault}
    (h : s.heap.exportDatum? v = .error fault) :
    exportDatum v span s = .error (.failed (.range fault span)) s := by
  have hread : exportDatum? v s = .ok (.error fault) s := congrArg (EStateM.Result.ok · s) h
  unfold exportDatum
  rw [bind_of_ok hread]
  rfl

/-- Copying succeeds with the unfolding, and with nothing else. -/
theorem exportDatum_eq_ok_iff (span : Span) {d : Datum} :
    exportDatum v span s = .ok d s ↔ s.heap.Unfolds v d := by
  rw [← Heap.exportDatum?_eq_ok_iff]
  exact ⟨fun h => (eq_ok_of_exportDatum h).1, exportDatum_of_ok span⟩

/-- Copying a value out succeeds with its unfolding if no array or object that it reaches lies on a
cycle, however often it reaches each of them. Otherwise the error stands at the place given and it is
about an array or object on a cycle that the value reaches. -/
theorem exportDatum_detects_cycles (v : Value) (span : Span) (s : State) :
    (∀ d, exportDatum v span s = .ok d s ↔ s.heap.Unfolds v d) ∧
    ((∃ d, exportDatum v span s = .ok d s) ↔ ¬ s.heap.ReachesCycle v) ∧
    (s.heap.ReachesCycle v → ∃ path w, s.heap.follow v path = some w ∧ s.heap.OnCycle w ∧
      exportDatum v span s = .error (.failed (.range w.cycleFault span)) s) := by
  have hacyclic : ∀ {d}, exportDatum v span s = .ok d s → ¬ s.heap.ReachesCycle v := fun h =>
    ((exportDatum_eq_ok_iff span).mp h).not_reachesCycle
  refine ⟨fun d => exportDatum_eq_ok_iff span, ?_⟩
  cases hexport : s.heap.exportDatum? v with
  | ok d =>
    have hok := exportDatum_of_ok span hexport
    exact ⟨⟨fun _ => hacyclic hok, fun _ => ⟨d, hok⟩⟩, fun hcycle => absurd hcycle (hacyclic hok)⟩
  | error fault =>
    -- A fault names a container on a cycle, so a value that reaches none is exported.
    obtain ⟨path, w, hpath, hcycle, rfl⟩ := Heap.exists_onCycle_of_exportDatum? hexport
    have hreaches : s.heap.ReachesCycle v := ⟨path, w, hpath, hcycle⟩
    refine ⟨⟨?_, fun h => absurd hreaches h⟩, fun _ => ⟨path, w, hpath, hcycle, ?_⟩⟩
    · rintro ⟨d, hok⟩
      exact hacyclic hok
    · exact exportDatum_of_error span hexport

end Run

end MeteredScript
