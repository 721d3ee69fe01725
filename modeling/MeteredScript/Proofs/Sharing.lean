import Mathlib.Data.List.Forall2
import MeteredScript.Proofs.HeapGrowth

namespace MeteredScript

/-! # The size of results

A result is copied off the heap without being paid for, and an array or object that it reaches in two
ways is copied twice. So the budget used bounds the heap that a result comes from, and not the size of
the result (`doublings`). Main statement: a result has one array or object for each visit of the copy
to the heap (`Heap.visits`). If nothing is visited twice, these are at most the budget used, and in
any case they are fewer than two to the power of it.
-/

/-! ## Visits -/

namespace Heap

def held (heap : Heap) : Value → List Value
  | .array handle => (heap.elements handle).toList
  | .object handle => (heap.entries handle).map Prod.snd
  | _ => []

namespace Surroundings

def admits (around : Surroundings) : Value → Bool
  | .array handle => !around.arrays.contains handle
  | .object handle => !around.objects.contains handle
  | _ => false

def enter (around : Surroundings) : Value → Surroundings
  | .array handle => { around with arrays := around.arrays.insert handle }
  | .object handle => { around with objects := around.objects.insert handle }
  | _ => around

theorem admits_array {around : Surroundings} {handle : Nat} :
    around.admits (.array handle) = true ↔ ¬ around.arrays.contains handle = true := by
  rw [admits, Bool.not_eq_true', Bool.not_eq_true]

theorem admits_object {around : Surroundings} {handle : Nat} :
    around.admits (.object handle) = true ↔ ¬ around.objects.contains handle = true := by
  rw [admits, Bool.not_eq_true', Bool.not_eq_true]

end Surroundings

/-- The arrays and objects that are visited when a value is copied, given what is around it: itself
and then what is visited for each value that it holds. -/
def visitsAt (heap : Heap) (bound : Nat) (around : Surroundings) (v : Value) : List Value :=
  if around.admits v then
    match bound with
    | 0 => [v]
    | bound + 1 => v :: (heap.held v).flatMap (visitsAt heap bound (around.enter v))
  else []

/-- The arrays and objects that are visited when a value is copied, in order. One that the value
reaches in several ways is visited several times. -/
def visits (heap : Heap) (v : Value) : List Value :=
  heap.visitsAt (heap.arrays.size + heap.objects.size) {} v

theorem visitsAt_of_admits {heap : Heap} {bound : Nat} {around : Surroundings} {v : Value}
    (h : around.admits v = true) : heap.visitsAt (bound + 1) around v =
      v :: (heap.held v).flatMap (heap.visitsAt bound (around.enter v)) := by
  rw [visitsAt, if_pos h]

/-- What is around itself, or holds nothing, is not visited. -/
theorem visitsAt_of_not_admits {heap : Heap} {bound : Nat} {around : Surroundings} {v : Value}
    (h : ¬ around.admits v = true) : heap.visitsAt bound around v = [] := by
  cases bound with
  | zero => rw [visitsAt, if_neg h]
  | succ bound => rw [visitsAt, if_neg h]

end Heap

/-! ## A copy has the size of its visits -/

variable {α β : Type} {l : List α}

theorem length_flatMap_eq_total (f : α → List β) (l : List α) :
    (l.flatMap f).length = total (l.map fun a => (f a).length) := by
  induction l with
  | nil => rfl
  | cons a rest ih => rw [List.flatMap_cons, List.length_append, ih, List.map_cons, total_cons]

/-- The results of a list stand in a relation to their origins. -/
theorem forall₂_of_mapM {ε : Type} {f : α → Except ε β} {results : List β}
    (h : l.mapM f = .ok results) {R : α → β → Prop} (hf : ∀ a ∈ l, ∀ b, f a = .ok b → R a b) :
    List.Forall₂ R l results := by
  induction l generalizing results with
  | nil =>
    cases h
    exact .nil
  | cons a rest ih =>
    have hf := List.forall_mem_cons.mp hf
    rw [List.mapM_cons] at h
    cases ha : f a with
    | error e =>
      rw [ha] at h
      cases h
    | ok b =>
      rw [ha] at h
      cases hrest : rest.mapM f with
      | error e =>
        rw [hrest] at h
        cases h
      | ok bs =>
        rw [hrest] at h
        cases h
        exact .cons (hf.1 b ha) (ih hrest hf.2)

theorem exists_mem_of_forall₂ {R : α → β → Prop} {l' : List β} (h : List.Forall₂ R l l') {a : α}
    (ha : a ∈ l) : ∃ b ∈ l', R a b := by
  induction h with
  | nil => cases ha
  | cons hfirst _ ih =>
    rcases List.mem_cons.mp ha with rfl | ha
    · exact ⟨_, List.mem_cons_self, hfirst⟩
    · obtain ⟨b, hb, hab⟩ := ih ha
      exact ⟨b, List.mem_cons_of_mem _ hb, hab⟩

theorem total_of_mapM {ε : Type} {f : α → Except ε β} {results : List β}
    (h : l.mapM f = .ok results) {amount : β → Nat} {amount' : α → Nat}
    (hf : ∀ a ∈ l, ∀ b, f a = .ok b → amount b = amount' a) :
    total (results.map amount) = total (l.map amount') := by
  have hpairs : List.Forall₂ (fun a b => amount b = amount' a) l results := forall₂_of_mapM h hf
  clear h hf
  induction hpairs with
  | nil => rfl
  | cons hfirst _ ih => rw [List.map_cons, List.map_cons, total_cons, total_cons, hfirst, ih]

namespace Heap

variable {d : Datum} {heap : Heap} {level bound : Nat} {around : Surroundings} {v : Value}

/-- What is no array or object, or is one that is around, adds nothing to a copy. -/
theorem size_eq_zero_of_exportAt? (hadmits : ¬ around.admits v = true)
    (h : heap.exportAt? level bound around v = .ok d) : d.size = 0 := by
  unfold exportAt? at h
  cases v with
  | array handle =>
    -- A container that is being exported already makes the export fail.
    have haround := Decidable.not_not.mp (mt Surroundings.admits_array.mpr hadmits)
    dsimp only at h
    rw [if_pos haround] at h
    cases h
  | object handle =>
    have haround := Decidable.not_not.mp (mt Surroundings.admits_object.mpr hadmits)
    dsimp only at h
    rw [if_pos haround] at h
    cases h
  | _ =>
    cases h
    exact Datum.size_of_not_isContainer rfl

/-- The copy of an array has the copies of its elements, as seen from inside. -/
theorem exists_of_exportAt?_array {handle : Nat}
    (h : heap.exportAt? level (bound + 1) around (.array handle) = .ok d)
    (hadmits : around.admits (.array handle) = true) :
    ∃ items, d = .array items ∧ (heap.elements handle).toList.mapM
      (heap.exportAt? (level + 1) bound (around.enter (.array handle))) = .ok items := by
  unfold exportAt? at h
  dsimp only at h
  rw [if_neg (Surroundings.admits_array.mp hadmits), deepen_eq] at h
  -- the surroundings inside are those with this array
  change ((heap.elements handle).toList.mapM
    (heap.exportAt? (level + 1) bound (around.enter (.array handle))) >>= fun items =>
      pure (Datum.array items)) = .ok d at h
  cases hitems : (heap.elements handle).toList.mapM
      (heap.exportAt? (level + 1) bound (around.enter (.array handle))) with
  | error fault =>
    rw [hitems] at h
    cases h
  | ok items =>
    rw [hitems] at h
    cases h
    exact ⟨items, rfl, rfl⟩

/-- The copy of an object has copies of its entries. -/
theorem exists_of_exportAt?_object {handle : Nat}
    (h : heap.exportAt? level (bound + 1) around (.object handle) = .ok d)
    (hadmits : around.admits (.object handle) = true) :
    ∃ entries, d = .object entries ∧ (heap.entries handle).mapM (fun entry => do
      return (entry.1, ← heap.exportAt? (level + 1) bound (around.enter (.object handle)) entry.2)) =
        .ok entries := by
  unfold exportAt? at h
  dsimp only at h
  rw [if_neg (Surroundings.admits_object.mp hadmits), deepen_eq] at h
  change ((heap.entries handle).mapM (fun entry => do
    return (entry.1, ← heap.exportAt? (level + 1) bound (around.enter (.object handle)) entry.2)) >>=
      fun entries => pure (Datum.object entries)) = .ok d at h
  -- The export of the entries is the only step that can fail.
  cases hentries : (heap.entries handle).mapM (fun entry => do
      return (entry.1, ← heap.exportAt? (level + 1) bound (around.enter (.object handle)) entry.2)) with
  | error fault =>
    rw [hentries] at h
    cases h
  | ok entries =>
    rw [hentries] at h
    cases h
    exact ⟨entries, rfl, rfl⟩

/-- A copy has an array or object for each visit. -/
theorem size_of_exportAt? (h : heap.exportAt? level bound around v = .ok d) :
    d.size = (heap.visitsAt bound around v).length := by
  induction bound generalizing level around v d with
  -- where the bound is used up, the copy is empty and counts as one visit
  | zero =>
    by_cases hadmits : around.admits v = true
    · rw [visitsAt, if_pos hadmits]
      unfold exportAt? at h
      cases v with
      | array handle =>
        dsimp only at h
        rw [if_neg (Surroundings.admits_array.mp hadmits)] at h
        cases h
        exact Datum.size_array []
      | object handle =>
        dsimp only at h
        rw [if_neg (Surroundings.admits_object.mp hadmits)] at h
        cases h
        exact Datum.size_object []
      | _ => cases hadmits
    · rw [size_eq_zero_of_exportAt? hadmits h, visitsAt_of_not_admits hadmits]
      rfl
  | succ bound ih =>
    by_cases hadmits : around.admits v = true
    · rw [visitsAt_of_admits hadmits, List.length_cons, length_flatMap_eq_total, Nat.add_comm]
      cases v with
      | array handle =>
        obtain ⟨items, rfl, hitems⟩ := exists_of_exportAt?_array h hadmits
        rw [Datum.size_array, total_of_mapM hitems fun _ _ _ hw => ih hw]
        rfl
      | object handle =>
        obtain ⟨entries, rfl, hentries⟩ := exists_of_exportAt?_object h hadmits
        rw [Datum.size_object, total_of_mapM hentries (fun entry _ copy hcopy => ?_)]
        · unfold held
          rw [List.map_map]
        -- an entry is copied with its name, and only the value counts
        · cases hvalue : heap.exportAt? (level + 1) bound (around.enter (.object handle)) entry.2 with
          | error fault =>
            rw [hvalue] at hcopy
            cases hcopy
          | ok value =>
            rw [hvalue] at hcopy
            cases hcopy
            exact ih hvalue
      | _ => cases hadmits
    · rw [size_eq_zero_of_exportAt? hadmits h, visitsAt_of_not_admits hadmits]
      rfl

/-! ## How many visits there can be -/

theorem has_of_mem_held (h : heap.Sound) {w : Value} (hw : w ∈ heap.held v) : heap.Has w := by
  cases v with
  | array handle => exact h.elements handle w (Array.mem_toList_iff.mp hw)
  | object handle =>
    obtain ⟨entry, hentry, rfl⟩ := List.mem_map.mp hw
    exact h.properties handle entry hentry
  | _ => exact absurd hw List.not_mem_nil

/-- Arrays and objects are visited only, and those that are visited are there. -/
theorem has_of_mem_visitsAt (h : heap.Sound) {w : Value} (hv : heap.Has v)
    (hw : w ∈ heap.visitsAt bound around v) : heap.Has w ∧ w.isContainer = true := by
  -- only arrays and objects are visited
  have hself : ∀ {around : Surroundings} {v : Value}, around.admits v = true →
      v.isContainer = true := by
    intro around v hadmits
    cases v with
    | array handle | object handle => rfl
    | _ => cases hadmits
  induction bound generalizing around v with
  | zero =>
    by_cases hadmits : around.admits v = true
    · rw [visitsAt, if_pos hadmits] at hw
      rcases List.mem_singleton.mp hw with rfl
      exact ⟨hv, hself hadmits⟩
    · rw [visitsAt_of_not_admits hadmits] at hw
      cases hw
  | succ bound ih =>
    by_cases hadmits : around.admits v = true
    · rw [visitsAt_of_admits hadmits] at hw
      rcases List.mem_cons.mp hw with rfl | hinside
      · exact ⟨hv, hself hadmits⟩
      · obtain ⟨x, hx, hw⟩ := List.mem_flatMap.mp hinside
        exact ih (has_of_mem_held h hx) hw
    · rw [visitsAt_of_not_admits hadmits] at hw
      cases hw

/-- Arrays and objects that are there and are all different. -/
theorem length_le_of_nodup {visited : List Value} (hnodup : visited.Nodup)
    (hvisited : ∀ v ∈ visited, heap.Has v ∧ v.isContainer = true) :
    visited.length ≤ heap.arrays.size + heap.objects.size := by
  -- what was visited and what was not add up to what is there
  have hcount : unseen (fun _ => 1) (fun handle => visited.contains (.array handle)) heap.arrays.size +
      unseen (fun _ => 1) (fun handle => visited.contains (.object handle)) heap.objects.size +
        visited.length ≤ heap.arrays.size + heap.objects.size := by
    induction visited with
    | nil =>
      have hone : ∀ n, unseen (fun _ => 1) (fun _ => false) n ≤ n := fun n =>
        Nat.le_trans (unseen_le _ _ n) (Nat.le_of_eq (sumBelow_one n))
      rw [List.length_nil, Nat.add_zero]
      exact Nat.add_le_add (hone _) (hone _)
    | cons v rest ih =>
      obtain ⟨hnew, hrest⟩ := List.nodup_cons.mp hnodup
      have hvisited := List.forall_mem_cons.mp hvisited
      have ih := ih hrest hvisited.2
      have hseen : ∀ w, rest.contains w = true → (v :: rest).contains w = true := fun w hw =>
        List.contains_iff_mem.mpr (List.mem_cons_of_mem v (List.contains_iff_mem.mp hw))
      have hnew : ¬ rest.contains v = true := fun h => hnew (List.contains_iff_mem.mp h)
      have hnow : (v :: rest).contains v = true := List.contains_iff_mem.mpr List.mem_cons_self
      have harrays := unseen_le_unseen (fun _ => 1) (fun handle => hseen (.array handle))
        heap.arrays.size
      have hobjects := unseen_le_unseen (fun _ => 1) (fun handle => hseen (.object handle))
        heap.objects.size
      rw [List.length_cons]
      cases v with
      | array handle =>
        have hless := unseen_add_le (fun _ => 1) (fun handle => hseen (.array handle))
          hvisited.1.1 hnew hnow
        omega
      | object handle =>
        have hless := unseen_add_le (fun _ => 1) (fun handle => hseen (.object handle))
          hvisited.1.1 hnew hnow
        omega
      | _ => cases hvisited.1.2
  omega

/-- All that is on the heap, apart from the arrays and objects around and what they hold. -/
def room (heap : Heap) (around : Surroundings) : Nat :=
  unseen (fun handle => (heap.elements handle).size + 1) around.arrays.contains heap.arrays.size +
    unseen (fun handle => (heap.entries handle).length + 1) around.objects.contains heap.objects.size

theorem room_empty_le (heap : Heap) : heap.room {} ≤ heap.size := by
  have harrays := unseen_le (fun handle => (heap.elements handle).size + 1)
    ({} : Surroundings).arrays.contains heap.arrays.size
  have hobjects := unseen_le (fun handle => (heap.entries handle).length + 1)
    ({} : Surroundings).objects.contains heap.objects.size
  rw [sumBelow_add_one] at harrays hobjects
  unfold room size
  omega

/-- Entering an array or object takes the room of it and of what it holds. -/
theorem room_enter_add_le (hv : heap.Has v) (hadmits : around.admits v = true) :
    heap.room (around.enter v) + ((heap.held v).length + 1) ≤ heap.room around := by
  cases v with
  | array handle =>
    have hless := unseen_insert_add_le (fun handle => (heap.elements handle).size + 1) hv
      (Surroundings.admits_array.mp hadmits)
    unfold room held
    rw [Array.length_toList]
    -- the handle is new to its own set, and the other set is as before
    change unseen _ (around.arrays.insert handle).contains _ + unseen _ around.objects.contains _ + _ ≤ _
    omega
  | object handle =>
    have hless := unseen_insert_add_le (fun handle => (heap.entries handle).length + 1) hv
      (Surroundings.admits_object.mp hadmits)
    unfold room held
    rw [List.length_map]
    change unseen _ around.arrays.contains _ + unseen _ (around.objects.insert handle).contains _ + _ ≤ _
    omega
  | _ => cases hadmits

/-- Lists that are all shorter than a bound, in a row. -/
theorem length_flatMap_add_le {f : Value → List Value} {most : Nat} {values : List Value}
    (h : ∀ v ∈ values, (f v).length + 1 ≤ most) :
    (values.flatMap f).length + values.length ≤ values.length * most := by
  induction values with
  | nil => exact Nat.zero_le _
  | cons v rest ih =>
    have h := List.forall_mem_cons.mp h
    have hrest := ih h.2
    rw [List.flatMap_cons, List.length_append, List.length_cons, Nat.succ_mul]
    omega

theorem add_two_mul_le_two_pow (k : Nat) {m n : Nat} (h : m + (k + 1) ≤ n) :
    k * Nat.pow 2 m + 2 * Nat.pow 2 m ≤ Nat.pow 2 n := by
  have hk : k + 2 ≤ Nat.pow 2 (k + 1) := Nat.lt_two_pow_self
  calc k * Nat.pow 2 m + 2 * Nat.pow 2 m
      = (k + 2) * Nat.pow 2 m := (Nat.add_mul k 2 _).symm
    _ ≤ Nat.pow 2 (k + 1) * Nat.pow 2 m := Nat.mul_le_mul_right _ hk
    _ = Nat.pow 2 m * Nat.pow 2 (k + 1) := Nat.mul_comm _ _
    _ = Nat.pow 2 (m + (k + 1)) := (Nat.pow_add 2 m (k + 1)).symm
    _ ≤ Nat.pow 2 n := Nat.pow_le_pow_right (Nat.le_succ 1) h

/-- Each array or object at most multiplies the visits by the number of values it holds, which is less
than two to the power of its size. -/
theorem length_visitsAt_lt (h : heap.Sound) (hv : heap.Has v) :
    (heap.visitsAt bound around v).length < Nat.pow 2 (heap.room around) := by
  induction bound generalizing around v with
  | zero =>
    by_cases hadmits : around.admits v = true
    · have hroom := room_enter_add_le hv hadmits
      have hpow : Nat.pow 2 1 ≤ Nat.pow 2 (heap.room around) :=
        Nat.pow_le_pow_right (Nat.le_succ 1) (by omega)
      rw [visitsAt, if_pos hadmits]
      exact hpow
    · rw [visitsAt_of_not_admits hadmits]
      exact Nat.two_pow_pos _
  | succ bound ih =>
    by_cases hadmits : around.admits v = true
    · have hroom := room_enter_add_le hv hadmits
      -- the visits inside, one more for each value held
      have hinside : ((heap.held v).flatMap (heap.visitsAt bound (around.enter v))).length +
          (heap.held v).length ≤ (heap.held v).length * Nat.pow 2 (heap.room (around.enter v)) :=
        length_flatMap_add_le fun w hw => ih (has_of_mem_held h hw)
      have hholds := add_two_mul_le_two_pow (heap.held v).length hroom
      have hpos : 1 ≤ Nat.pow 2 (heap.room (around.enter v)) := Nat.two_pow_pos _
      rw [visitsAt_of_admits hadmits, List.length_cons]
      omega
    · rw [visitsAt_of_not_admits hadmits]
      exact Nat.two_pow_pos _

/-- A copy has as many arrays and objects as there were visits. -/
theorem size_of_exportDatum? (h : heap.exportDatum? v = .ok d) :
    d.size = (heap.visits v).length := by
  rw [exportDatum?_eq] at h
  exact size_of_exportAt? h

/-- A copy that visits nothing twice is no larger than the heap. -/
theorem size_le_of_unshared (h : heap.Sound) (hv : heap.Has v)
    (hexport : heap.exportDatum? v = .ok d) (hnodup : (heap.visits v).Nodup) :
    d.size ≤ heap.size := by
  have hsize := size_of_exportDatum? hexport
  have hvisited := length_le_of_nodup hnodup fun w hw => has_of_mem_visitsAt h hv hw
  have hcontainers : heap.arrays.size + heap.objects.size ≤ heap.size := Nat.le_add_right _ _
  omega

/-- A copy is smaller than two to the power of the heap. -/
theorem size_lt_two_pow (h : heap.Sound) (hv : heap.Has v) (hexport : heap.exportDatum? v = .ok d) :
    d.size < Nat.pow 2 heap.size := by
  have hsize := size_of_exportDatum? hexport
  have hvisits : (heap.visits v).length < Nat.pow 2 (heap.room {}) := length_visitsAt_lt h hv
  rw [hsize]
  exact Nat.lt_of_lt_of_le hvisits (Nat.pow_le_pow_right (Nat.le_succ 1) heap.room_empty_le)

end Heap

/-! ## Results -/

/-- What a run without data from outside results in is the copy of what the call of its entry function
came to, from the heap that the call left. -/
theorem Program.exists_call_of_result {program : Program} {context : RunContext} {limits : Limits}
    {collaborators : Collaborators} {d : Datum} {last : State} (hidentifiers : context.identifiers = [])
    (hargs : context.args = [])
    (h : (program.steps context limits collaborators).run (program.env limits collaborators)
      limits.start = .ok d last) :
    ∃ f v, program.entry context.start = .ok f ∧
      (evaluators (program.env limits collaborators) 0 (limits.stepBudget + 1)).call f []
        limits.start = .ok v last ∧
      last.heap.exportDatum? v = .ok d := by
  rw [Program.steps, Steps.run_program, Run.program, Run.programBy, hidentifiers, hargs] at h
  cases hentry : program.entry context.start with
  | error e =>
    rw [hentry] at h
    cases h
  -- nothing is bound and nothing taken in, so the call is all that happens before the copy
  | ok f =>
    rw [hentry] at h
    change ((evaluators (program.env limits collaborators) 0 (limits.stepBudget + 1)).call f [] >>=
      fun v => Run.exportDatum v f.span) limits.start = .ok d last at h
    cases hcall : (evaluators (program.env limits collaborators) 0 (limits.stepBudget + 1)).call f []
        limits.start with
    | error halt t =>
      rw [Run.bind_of_error hcall] at h
      cases h
    | ok v t =>
      rw [Run.bind_of_ok hcall] at h
      obtain ⟨hcopied, rfl⟩ := Run.eq_ok_of_exportDatum h
      exact ⟨f, v, rfl, hcall, hcopied⟩

theorem Program.has_of_call {program : Program} {limits : Limits} {collaborators : Collaborators}
    {levels : Nat} {f : Function} {v : Value} {last : State}
    (h : (evaluators (program.env limits collaborators) 0 levels).call f [] limits.start =
      .ok v last) : last.heap.Has v := by
  have hkept := Regime.handles_kept (program.env limits collaborators)
  have hcall := (hkept.evaluators (Regime.handles_covers _) levels).call (f := f) trivial
    (State.sound_start limits) (Regime.FitsAll.nil _)
  rw [← Steps.run_evaluators] at h
  exact hcall.result h

/-- The size of a result. With no data in the context and no collaborators, a result is the copy of
the value `v` that the call of the entry function comes to, off the last heap of the run, and it has
an array or object for each visit of the copy. That heap, with the elements and properties on it, is
at most the budget used. So the result is no larger than the budget used if nothing is visited twice,
and in any case it is smaller than two to the power of that. The bounds hold unless the meter reaches
the maximum that it can show, which takes a budget as large. -/
theorem Program.result_size_le_of_unshared (program : Program) {context : RunContext} (limits : Limits)
    (hidentifiers : context.identifiers = []) (hargs : context.args = []) {d : Datum}
    (hresult : (program.run context limits {}).result = .ok d) :
    ∃ f last v, program.entry context.start = .ok f ∧
      (evaluators (program.env limits {}) 0 (limits.stepBudget + 1)).call f [] limits.start =
        .ok v last ∧
      Linked limits.start (program.events context limits {}) last ∧
      (program.run context limits {}).used = last.meter.used ∧
      last.heap.exportDatum? v = .ok d ∧ d.size = (last.heap.visits v).length ∧
      (limits.stepBudget < maxUnits ∨ last.meter.used < maxUnits →
        last.heap.size ≤ last.meter.used ∧
        ((last.heap.visits v).Nodup → d.size ≤ last.meter.used) ∧
        d.size < Nat.pow 2 last.meter.used) := by
  obtain ⟨last, hending, hused⟩ := Program.steps_eq_of_result hresult
  obtain ⟨f, v, hentry, hcall, hexport⟩ := Program.exists_call_of_result hidentifiers hargs hending
  have hkeeps := Regime.handles_program program context limits {}
  have hlinked := program.linked_steps context limits {}
  have hsound := hkeeps.sound
  rw [hending] at hlinked hsound
  have hv : last.heap.Has v := Program.has_of_call hcall
  refine ⟨f, last, v, hentry, hcall, hlinked, hused, hexport, Heap.size_of_exportDatum? hexport,
    fun hmeter => ?_⟩
  have hheap : last.heap.Sound := State.Sound.heap hsound
  -- everything on the heap was paid for, as nothing came from outside
  have hpaid := Program.heap_size_le_of_alone hidentifiers hargs hlinked hmeter
  refine ⟨hpaid, fun hnodup => ?_, ?_⟩
  · exact Nat.le_trans (Heap.size_le_of_unshared hheap hv hexport hnodup) hpaid
  · have hsize := Heap.size_lt_two_pow hheap hv hexport
    exact Nat.lt_of_lt_of_le hsize (Nat.pow_le_pow_right (Nat.le_succ 1) hpaid)

/-- An empty array, put twice into a new array, that one twice into the next, and so on, five times. -/
def doublings : Program :=
  ⟨[.function ⟨"f", [],
    .declare [⟨"a", some (.array [] {})⟩] {} ::
      (List.replicate 5 (.expression (.assign .plain (.ident "a" {})
        (.array [.place (.ident "a" {}), .place (.ident "a" {})] {}) {}) {}) ++
      [.returnValue (some (.place (.ident "a" {}))) {}]), {}, {}⟩], {}⟩

theorem doublings_used : (doublings.run {} ⟨100, 0⟩ {}).used = 47 := by decide +kernel

theorem exists_doublings_result :
    ∃ d, (doublings.run {} ⟨100, 0⟩ {}).result = .ok d ∧ d.size = 63 := by
  have hsize : (doublings.run {} ⟨100, 0⟩ {}).result.toOption.map Datum.size = some 63 := by
    decide +kernel
  cases hresult : (doublings.run {} ⟨100, 0⟩ {}).result with
  | error halt =>
    rw [hresult] at hsize
    cases hsize
  | ok d =>
    rw [hresult] at hsize
    exact ⟨d, rfl, Option.some.inj hsize⟩

/-- From a heap of size at most forty-seven comes a result of sixty-three arrays, since the copy visits
some of those on the heap more than once. -/
theorem doublings_result_size :
    ∃ (d : Datum) (last : State) (v : Value),
      (doublings.run {} ⟨100, 0⟩ {}).result = .ok d ∧ last.heap.exportDatum? v = .ok d ∧
      d.size = 63 ∧ (last.heap.visits v).length = 63 ∧ last.heap.size ≤ 47 ∧
      ¬ (last.heap.visits v).Nodup := by
  obtain ⟨d, hresult, hsize⟩ := exists_doublings_result
  obtain ⟨-, last, v, -, -, -, hused, hexport, hvisits, hbounds⟩ :=
    doublings.result_size_le_of_unshared ⟨100, 0⟩ rfl rfl hresult
  rw [doublings_used] at hused
  obtain ⟨hheap, hunshared, _⟩ := hbounds (.inl (by decide))
  rw [← hused] at hheap hunshared
  refine ⟨d, last, v, hresult, hexport, hsize, hvisits.symm.trans hsize, hheap, fun hnodup => ?_⟩
  have hle := hunshared hnodup
  omega

/-- A result can be larger than the budget used. -/
theorem result_outgrows_budget :
    ¬ ∀ (program : Program) (limits : Limits) (d : Datum),
      (program.run {} limits {}).result = .ok d → d.size ≤ (program.run {} limits {}).used := by
  intro h
  obtain ⟨d, hresult, hsize⟩ := exists_doublings_result
  have hle := h doublings ⟨100, 0⟩ d hresult
  rw [hsize, doublings_used] at hle
  exact absurd hle (by decide)

end MeteredScript
