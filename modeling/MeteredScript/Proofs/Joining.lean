import MeteredScript.Proofs.Unfolding

namespace MeteredScript

/-! # Texts of values

The text of a value is that of its data: the texts of elements joined by commas, all the way down
(`Datum.joined`). An array that contains itself has no data, but its unfolding can be cut where an array
comes again inside of itself (`Heap.CutsTo`). Main statement: the text of a value is that of its
unfolding, or of the cut of it. So the text does not show which values are shared.
-/

/-! ## Texts of data -/

namespace Datum

mutual

/-- The text of data. Arrays join the texts of their items with commas, objects all look alike. -/
def joined : Datum → String
  | number value => value.text
  | nan => "NaN"
  | string value => value
  | boolean value => if value then "true" else "false"
  | null => "null"
  | undefined => "undefined"
  | object _ => "[object Object]"
  | array items => ",".intercalate (itemTexts items)

def itemTexts : List Datum → List String
  | [] => []
  | null :: rest | undefined :: rest => "" :: itemTexts rest
  | item :: rest => item.joined :: itemTexts rest

end

def itemText : Datum → String
  | null | undefined => ""
  | item => item.joined

theorem itemTexts_eq_map (items : List Datum) : itemTexts items = items.map itemText := by
  induction items with
  | nil => rfl
  | cons item rest ih =>
    rw [List.map_cons, ← ih]
    cases item with
    | _ => rfl

theorem joined_array (items : List Datum) :
    (array items).joined = ",".intercalate (items.map itemText) := by
  rw [joined, itemTexts_eq_map]

end Datum

namespace Heap

variable {heap : Heap} {v : Value} {d : Datum}

/-! ## Cut unfoldings -/

/-- The data is what the value unfolds to inside of some arrays, with an empty text for any of them that
comes again. It may have anything for what is inside of objects. -/
inductive CutsTo (heap : Heap) : List Nat → Value → Datum → Prop
  | scalar {around : List Nat} {v : Value} {d : Datum} : v.datum? = some d → CutsTo heap around v d
  | object {around : List Nat} (handle : Nat) (entries : List (String × Datum)) :
      CutsTo heap around (.object handle) (.object entries)
  | again {around : List Nat} {handle : Nat} : handle ∈ around →
      CutsTo heap around (.array handle) (.string "")
  | array {around : List Nat} {handle : Nat} {items : List Datum} : handle ∉ around →
      (heap.elements handle).size = items.length →
      (∀ v d, (v, d) ∈ (heap.elements handle).toList.zip items →
        CutsTo heap (handle :: around) v d) →
      CutsTo heap around (.array handle) (.array items)

theorem exists_forall₂ {α β : Type} {R : α → β → Prop} {l : List α} (h : ∀ a ∈ l, ∃ b, R a b) :
    ∃ l', List.Forall₂ R l l' := by
  induction l with
  | nil => exact ⟨[], .nil⟩
  | cons a rest ih =>
    have h := List.forall_mem_cons.mp h
    obtain ⟨b, hb⟩ := h.1
    obtain ⟨rest', hrest⟩ := ih h.2
    exact ⟨b :: rest', .cons hb hrest⟩

/-- Every value can be cut, since fewer arrays are left to come again at each level. -/
theorem exists_cutsTo (heap : Heap) (around : List Nat) (v : Value) : ∃ d, heap.CutsTo around v d := by
  induction hleft : unseen (fun _ => 1) around.contains heap.arrays.size
    using Nat.strongRecOn generalizing around v with
  | ind left ih =>
    cases v with
    | object handle => exact ⟨_, .object handle []⟩
    | array handle =>
      by_cases hin : handle ∈ around
      · exact ⟨_, .again hin⟩
      · have hitems : ∀ w ∈ (heap.elements handle).toList, ∃ d, heap.CutsTo (handle :: around) w d := by
          intro w hw
          have hthere : heap.Has (.array handle) := has_of_holds hw
          have hseen : ∀ k, around.contains k = true → (handle :: around).contains k = true :=
            fun k hk => List.contains_iff_mem.mpr
              (List.mem_cons_of_mem handle (List.contains_iff_mem.mp hk))
          -- The array is there and was not on the path, so fewer are left to be entered.
          have hless := unseen_add_le (fun _ => 1) hseen hthere (mt List.contains_iff_mem.mp hin)
            (List.contains_iff_mem.mpr List.mem_cons_self)
          exact ih _ (by omega) _ w rfl
        obtain ⟨items, hitems⟩ := exists_forall₂ hitems
        obtain ⟨hlength, hitems⟩ := List.forall₂_iff_zip.mp hitems
        rw [Array.length_toList] at hlength
        exact ⟨_, .array hin hlength fun w d hmem => hitems hmem⟩
    | _ => exact ⟨_, .scalar rfl⟩

/-- What does not contain itself unfolds without a cut. -/
theorem Unfolds.cutsTo (h : heap.Unfolds v d) {around : List Nat}
    (haround : ∀ k ∈ around, ∀ path, heap.follow v path ≠ some (.array k)) :
    heap.CutsTo around v d := by
  induction h generalizing around with
  | scalar hscalar => exact .scalar hscalar
  | object => exact .object _ _
  | @array handle items hsize hitems ih =>
    refine .array (fun hin => haround handle hin [] rfl) hsize fun w d hmem => ?_
    obtain ⟨i, hi⟩ := List.mem_iff_getElem?.mp (List.of_mem_zip hmem).1
    have hstep : ∀ path, heap.follow (.array handle) (i :: path) = heap.follow w path :=
      follow_cons_of_getElem? hi
    refine ih w d hmem fun k hk path hpath => ?_
    rcases List.mem_cons.mp hk with rfl | hk
    · -- the way on from the element would close a cycle
      have hback : heap.OnCycle (.array k) :=
        ⟨i :: path, List.cons_ne_nil i path, (hstep path).trans hpath⟩
      exact Unfolds.not_onCycle (.array hsize hitems) hback
    · exact haround k hk (i :: path) ((hstep path).trans hpath)

/-! ## Writing a value -/

/-- Elements are written by joining their texts. -/
theorem writeElements_eq {write : String → Value → String} {values : List Value} {items : List Datum}
    (h : List.Forall₂ (fun v d => ∀ out, writeElements.writeElement write out v = out ++ d.itemText)
      values items) (out : String) :
    writeElements write out values = out ++ ",".intercalate (items.map Datum.itemText) := by
  induction h generalizing out with
  | nil => exact (String.append_empty).symm
  | @cons v d values items hfirst hrest ih =>
    cases hrest with
    | nil =>
      rw [List.map_cons, List.map_nil, String.intercalate_singleton]
      exact hfirst out
    | cons _ _ =>
      rw [writeElements, hfirst, ih, List.map_cons, List.map_cons, List.map_cons,
        String.intercalate_cons_cons, String.append_assoc, String.append_assoc, String.append_assoc]
      rintro ⟨⟩

theorem CutsTo.writeElement_eq {around : List Nat} (h : heap.CutsTo around v d)
    {write : String → Value → String} (hwrite : ∀ out, write out v = out ++ d.joined) (out : String) :
    writeElements.writeElement write out v = out ++ d.itemText := by
  cases h with
  | scalar hscalar =>
    cases v with
    | array handle | object handle => cases hscalar
    | null | undefined =>
      cases hscalar
      exact String.append_empty.symm
    | _ =>
      cases hscalar
      exact hwrite out
  | _ => exact hwrite out

/-- An array that is not being written yet is written by writing its elements. If no other array is
left, it has none. -/
theorem writeAt_array {handle bound : Nat} {active : Std.TreeSet Nat}
    (hnot : ¬ active.contains handle = true)
    (hbound : unseen (fun _ => 1) active.contains heap.arrays.size ≤ bound) (level : Nat)
    (out : String) : heap.writeAt level bound active out (.array handle) =
      writeElements (heap.writeAt (level + 1) (bound - 1) (active.insert handle)) out
        (heap.elements handle).toList := by
  rw [writeAt.eq_def]
  dsimp only
  rw [if_neg hnot]
  cases bound with
  | zero =>
    -- With no bound left no unseen array holds anything.
    have hnone : (heap.elements handle).toList = [] := by
      refine List.eq_nil_iff_forall_not_mem.mpr fun w hw => ?_
      have hthere : heap.Has (.array handle) := has_of_holds hw
      have hless := unseen_insert_add_le (fun _ => 1) hthere hnot
      omega
    rw [hnone]
    rfl
  | succ bound => exact deepen_eq ..

/-- What is written for a value is the text of its cut unfolding. -/
theorem CutsTo.writeAt_eq {around : List Nat} (h : heap.CutsTo around v d) {bound : Nat}
    {active : Std.TreeSet Nat} (hactive : ∀ k, active.contains k = true ↔ k ∈ around)
    (hbound : unseen (fun _ => 1) active.contains heap.arrays.size ≤ bound) (level : Nat)
    (out : String) : heap.writeAt level bound active out v = out ++ d.joined := by
  induction h generalizing bound active level out with
  | @scalar around v d hscalar =>
    rw [writeAt.eq_def]
    cases v with
    | array handle | object handle => cases hscalar
    | _ =>
      cases hscalar
      rfl
  | object handle entries =>
    rw [writeAt.eq_def]
    rfl
  | again hin =>
    rw [writeAt.eq_def]
    dsimp only
    rw [if_pos ((hactive _).mpr hin)]
    exact String.append_empty.symm
  | @array around handle items hin hsize hcuts ih =>
    have hnot := mt (hactive handle).mp hin
    rw [writeAt_array hnot hbound, Datum.joined_array]
    rw [← Array.length_toList] at hsize
    refine writeElements_eq (List.forall₂_iff_zip.mpr ⟨hsize, fun {w d} hmem out => ?_⟩) out
    refine (hcuts w d hmem).writeElement_eq (fun out => ?_) out
    have hthere : heap.Has (.array handle) := has_of_holds (List.of_mem_zip hmem).1
    have hless := unseen_insert_add_le (fun _ => 1) hthere hnot
    -- inside of the array it is active, and it is one of those around
    refine ih w d hmem (fun k => ?_) (by omega) (level + 1) out
    rw [Std.TreeSet.contains_insert, Bool.or_eq_true, beq_iff_eq, Std.compare_eq_iff_eq, hactive,
      List.mem_cons, eq_comm]

theorem CutsTo.display_eq (h : heap.CutsTo [] v d) : heap.display v = d.joined := by
  have hactive : ∀ k, (∅ : Std.TreeSet Nat).contains k = true ↔ k ∈ [] := fun k =>
    ⟨fun hk => absurd hk Bool.false_ne_true, fun hk => absurd hk List.not_mem_nil⟩
  have hbound := Nat.le_trans (unseen_le (fun _ => 1) (∅ : Std.TreeSet Nat).contains heap.arrays.size)
    (Nat.le_of_eq (sumBelow_one _))
  have hwritten := h.writeAt_eq hactive hbound 0 ""
  rw [Heap.display_eq]
  rwa [String.empty_append] at hwritten

/-- The text of a value depends on its data only: it is the text of the data if the value has any. The
other values have a text as well, that of their unfolding cut where an array comes again inside of
itself. -/
theorem display_eq_joined (heap : Heap) (v : Value) :
    (∀ d, heap.exportDatum? v = .ok d → heap.display v = d.joined) ∧
    (∃ d, heap.CutsTo [] v d) ∧ ∀ d, heap.CutsTo [] v d → heap.display v = d.joined := by
  refine ⟨fun d hexport => ?_, heap.exists_cutsTo [] v, fun d => CutsTo.display_eq⟩
  have hunfolds := exportDatum?_eq_ok_iff.mp hexport
  exact (hunfolds.cutsTo fun k hk => absurd hk List.not_mem_nil).display_eq

end Heap

end MeteredScript
