import MeteredScript.Proofs.HeapAccess
import MeteredScript.Proofs.Spending

namespace MeteredScript

/-! # Heap growth is paid for

An array or object costs a unit, and so does each element and each property that a program puts
there. What is copied in from outside costs a unit for each array and object only; the elements and
properties in it come free, so they are counted apart (`Event.imported`). Main statement: throughout
a run, the size of the heap is at most the budget used and what was imported, taken together.
-/

/-! ## The size of the heap -/

/-- The arrays and objects on a heap, and the elements and properties they hold, counted together. -/
def Heap.size (heap : Heap) : Nat :=
  heap.arrays.size + heap.objects.size +
    (sumBelow (fun handle => (heap.elements handle).size) heap.arrays.size +
      sumBelow (fun handle => (heap.entries handle).length) heap.objects.size)

/-- A key that is there already adds nothing. -/
theorem Entries.length_put {α : Type} (entries : Entries α) (key : String) (value : α) :
    (entries.put key value).length =
      entries.length + if (entries.get? key).isSome then 0 else 1 := by
  have hlength : ∀ entries : Entries α, entries.length = entries.keys.length := fun _ =>
    (List.length_map _).symm
  rw [hlength, hlength, keys_put]
  by_cases hkey : key ∈ entries.keys
  · rw [if_pos hkey, if_pos (isSome_get?_iff.mpr hkey), Nat.add_zero]
  · rw [if_neg hkey, if_neg (fun h => hkey (isSome_get?_iff.mp h)), List.length_append]
    rfl

/-- Putting adds at most one entry. -/
theorem Entries.length_put_le {α : Type} (entries : Entries α) (key : String) (value : α) :
    (entries.put key value).length ≤ entries.length + 1 := by
  rw [length_put]
  split
  · exact Nat.le_succ _
  · exact Nat.le_refl _

/-- Entries with the same key are counted once. -/
theorem Entries.length_ofList_le {α : Type} (entries : List (String × α)) :
    (Entries.ofList entries).length ≤ entries.length := by
  have hfold : ∀ (l : List (String × α)) (known : Entries α),
      (l.foldl (fun known entry => put entry.1 entry.2 known) known).length ≤
        known.length + l.length := by
    intro l
    induction l with
    | nil => exact fun known => Nat.le_refl _
    | cons first rest ih =>
      intro known
      have hrest := ih (put first.1 first.2 known)
      have hput := length_put_le known first.1 first.2
      rw [List.foldl_cons, List.length_cons]
      omega
  exact Nat.le_trans (hfold entries []) (Nat.le_of_eq (Nat.zero_add _))

namespace Heap

/-- At most one array got longer, and there may be new ones. -/
theorem size_le_of_elements {heap heap' : Heap} (handle : Nat) {new extra : Nat}
    (harrays : heap'.arrays.size = heap.arrays.size + new) (hobjects : heap'.objects = heap.objects)
    (hother : ∀ at', at' ≠ handle → heap'.elements at' = heap.elements at')
    (hhandle : (heap'.elements handle).size ≤ (heap.elements handle).size + extra) :
    heap'.size ≤ heap.size + (new + extra) := by
  have hsum := sumBelow_le_add (fun at' hat => Nat.le_of_eq (congrArg Array.size (hother at' hat)))
    hhandle (heap.arrays.size + new)
  -- the places of new arrays were empty
  have hempty := sumBelow_add_of_zero (f := fun at' => (heap.elements at').size)
    (fun at' hat => congrArg Array.size (elements_of_size_le hat)) new
  have hentries : heap'.entries = heap.entries := by
    funext at'
    unfold entries
    rw [hobjects]
  unfold size
  rw [harrays, hobjects, hentries]
  omega

/-- At most one object got more properties, and there may be new ones. -/
theorem size_le_of_entries {heap heap' : Heap} (handle : Nat) {new extra : Nat}
    (hobjects : heap'.objects.size = heap.objects.size + new) (harrays : heap'.arrays = heap.arrays)
    (hother : ∀ at', at' ≠ handle → heap'.entries at' = heap.entries at')
    (hhandle : (heap'.entries handle).length ≤ (heap.entries handle).length + extra) :
    heap'.size ≤ heap.size + (new + extra) := by
  have hsum := sumBelow_le_add (fun at' hat => Nat.le_of_eq (congrArg List.length (hother at' hat)))
    hhandle (heap.objects.size + new)
  have hempty := sumBelow_add_of_zero (f := fun at' => (heap.entries at').length)
    (fun at' hat => congrArg List.length (entries_of_size_le hat)) new
  have helements : heap'.elements = heap.elements := by
    funext at'
    unfold elements
    rw [harrays]
  unfold size
  rw [hobjects, harrays, helements]
  omega

/-- A new array counts itself and its elements. -/
theorem size_addArray_le (heap : Heap) (elements : List Value) :
    (heap.addArray elements).1.size ≤ heap.size + (1 + elements.length) := by
  refine size_le_of_elements heap.arrays.size (Array.size_push _) rfl
    (fun at' hat => ?_) ?_
  · rw [elements_addArray, if_neg hat]
  · rw [elements_addArray, if_pos rfl]
    exact Nat.le_add_left _ _

/-- A new object counts itself and its entries, those with the same key once. -/
theorem size_addObject_le (heap : Heap) (entries : List (String × Value)) :
    (heap.addObject entries).1.size ≤ heap.size + (1 + entries.length) := by
  refine size_le_of_entries heap.objects.size (Array.size_push _) rfl
    (fun at' hat => ?_) ?_
  · rw [entries_addObject, if_neg hat]
  · rw [entries_addObject, if_pos rfl]
    exact Nat.le_trans (Entries.length_ofList_le entries) (Nat.le_add_left _ _)

/-- Writing an element adds nothing. -/
theorem size_setElement_le (heap : Heap) (handle index : Nat) (value : Value) :
    (heap.setElement handle index value).size ≤ heap.size := by
  have hsize : (heap.setElement handle index value).size ≤ heap.size + (0 + 0) := by
    refine size_le_of_elements handle Array.size_modify rfl (fun at' hat => ?_) ?_
    · rw [elements_setElement, if_neg (Ne.symm hat)]
    · rw [elements_setElement, if_pos rfl]
      exact Nat.le_of_eq Array.size_setIfInBounds
  exact hsize

theorem size_appendElements_le (heap : Heap) (handle : Nat) (values : List Value) :
    (heap.appendElements handle values).size ≤ heap.size + values.length := by
  rw [← Nat.zero_add values.length]
  refine size_le_of_elements handle Array.size_modify rfl (fun at' hat => ?_) ?_
  · rw [elements_appendElements, if_neg (fun h => hat h.1.symm)]
  · have hlength : (heap.elements handle ++ values).size =
        (heap.elements handle).size + values.length := by
      rw [← Array.length_toList, ← Array.length_toList, Array.toList_appendList, List.length_append]
    rw [elements_appendElements]
    split
    · exact Nat.le_of_eq hlength
    · exact Nat.le_add_right _ _

/-- Writing a property adds one if it is new. -/
theorem size_setProperty_le (heap : Heap) (handle : Nat) (key : String) (value : Value) :
    (heap.setProperty handle key value).size ≤
      heap.size + if (heap.property? handle key).isSome then 0 else 1 := by
  rw [← Nat.zero_add (if (heap.property? handle key).isSome then 0 else 1)]
  refine size_le_of_entries handle Array.size_modify rfl (fun at' hat => ?_) ?_
  · rw [entries_setProperty, if_neg (fun h => hat h.1.symm)]
  · rw [entries_setProperty]
    split
    · exact Nat.le_of_eq (Entries.length_put _ _ _)
    · exact Nat.le_add_right _ _

end Heap

/-! ## Data from outside -/

namespace Datum

mutual

/-- How many elements and properties there are in a piece of data. -/
def contents : Datum → Nat
  | array items => items.length + contentsOfItems items
  | object entries => entries.length + contentsOfEntries entries
  | _ => 0

def contentsOfItems : List Datum → Nat
  | [] => 0
  | item :: rest => contents item + contentsOfItems rest

/-- What is in the values of entries, added up. -/
def contentsOfEntries : List (String × Datum) → Nat
  | [] => 0
  | (_, value) :: rest => contents value + contentsOfEntries rest

end

/-! The loop counts what a recursion over the data would: an array or an object, and what is in it. -/

/-- What is on top of the pile is counted, and what it holds is put on the pile. -/
theorem sizeOfPile_cons (count : Nat) (d : Datum) (pile : List Datum) :
    sizeOfPile count (d :: pile) =
      if d.isContainer then sizeOfPile (count + 1) (d.held.reverse ++ pile)
      else sizeOfPile count pile := by
  rw [sizeOfPile]

theorem sizeOfPile_add (count more : Nat) (pile : List Datum) :
    sizeOfPile (count + more) pile = sizeOfPile count pile + more := by
  induction count, pile using sizeOfPile.induct with
  | case1 count => rw [sizeOfPile, sizeOfPile]
  | case2 count d pile hcontainer ih =>
    rw [sizeOfPile_cons, sizeOfPile_cons, if_pos hcontainer, if_pos hcontainer, ← ih,
      Nat.add_right_comm]
  | case3 count d pile hcontainer ih =>
    rw [sizeOfPile_cons, sizeOfPile_cons, if_neg hcontainer, if_neg hcontainer, ih]

theorem sizeOfPile_append (count : Nat) (top below : List Datum) :
    sizeOfPile count (top ++ below) = sizeOfPile (sizeOfPile count top) below := by
  induction count, top using sizeOfPile.induct with
  | case1 count => rw [sizeOfPile, List.nil_append]
  | case2 count d top hcontainer ih =>
    rw [List.cons_append, sizeOfPile_cons, if_pos hcontainer, ← List.append_assoc, ih,
      sizeOfPile_cons count d top, if_pos hcontainer]
  | case3 count d top hcontainer ih =>
    rw [List.cons_append, sizeOfPile_cons, if_neg hcontainer, ih, sizeOfPile_cons count d top,
      if_neg hcontainer]

/-- A pile is counted by its members, in whatever order. -/
theorem sizeOfPile_eq_total (count : Nat) (pile : List Datum) :
    sizeOfPile count pile = count + total (pile.map size) := by
  induction pile generalizing count with
  | nil => rw [sizeOfPile]; rfl
  | cons d pile ih =>
    have hfirst : sizeOfPile count [d] = d.size + count := by
      rw [size, ← sizeOfPile_add, Nat.zero_add]
    rw [← List.singleton_append, sizeOfPile_append, hfirst, ih, List.singleton_append, List.map_cons,
      total_cons]
    omega

/-- An array or object counts itself and what it holds. -/
theorem size_of_isContainer {d : Datum} (h : d.isContainer = true) :
    d.size = 1 + total (d.held.map size) := by
  rw [size, sizeOfPile_cons, if_pos h, List.append_nil, sizeOfPile_eq_total, List.map_reverse,
    total_reverse]

theorem size_of_not_isContainer {d : Datum} (h : d.isContainer = false) : d.size = 0 := by
  rw [size, sizeOfPile_cons, h, sizeOfPile]
  rfl

theorem size_array (items : List Datum) : (array items).size = 1 + total (items.map size) :=
  size_of_isContainer rfl

theorem size_object (entries : List (String × Datum)) :
    (object entries).size = 1 + total (entries.map fun entry => entry.2.size) := by
  rw [size_of_isContainer rfl, held, List.map_map]
  rfl

end Datum

namespace Heap

/-! What is copied in adds a place for each array and object in it and for all that they hold. -/

mutual

/-- Copying in adds the arrays and objects that are paid for, and what they hold. -/
theorem size_importAt_le (level : Nat) (heap : Heap) (d : Datum) :
    (importAt level heap d).1.size ≤ heap.size + (d.size + d.contents) := by
  cases d with
  | array items =>
    have hitems := size_importItems_le (level + 1) heap [] items
    have hadd := size_addArray_le (importItems (level + 1) heap [] items).1
      (importItems (level + 1) heap [] items).2
    rw [importAt, Datum.size_array, Datum.contents, deepen_eq]
    rw [hitems.2, List.length_nil] at hadd
    have hsize := hitems.1
    dsimp only
    omega
  | object entries =>
    have hentries := size_importEntries_le (level + 1) heap [] entries
    have hadd := size_addObject_le (importEntries (level + 1) heap [] entries).1
      (importEntries (level + 1) heap [] entries).2
    rw [importAt, Datum.size_object, Datum.contents, deepen_eq]
    rw [hentries.2, List.length_nil] at hadd
    have hsize := hentries.1
    dsimp only
    omega
  | _ => exact Nat.le_add_right _ _

theorem size_importItems_le (level : Nat) (heap : Heap) (done : List Value) (items : List Datum) :
    (importItems level heap done items).1.size ≤
        heap.size + (total (items.map Datum.size) + Datum.contentsOfItems items) ∧
      (importItems level heap done items).2.length = done.length + items.length := by
  cases items with
  | nil => exact ⟨Nat.le_add_right _ _, List.length_reverse⟩
  | cons item rest =>
    have hitem := size_importAt_le level heap item
    obtain ⟨hsize, hlength⟩ := size_importItems_le level (importAt level heap item).1
      ((importAt level heap item).2 :: done) rest
    unfold importItems Datum.contentsOfItems
    dsimp only
    rw [hlength, List.length_cons, List.length_cons, List.map_cons, total_cons]
    constructor
    · omega
    · omega

theorem size_importEntries_le (level : Nat) (heap : Heap) (done : List (String × Value))
    (entries : List (String × Datum)) :
    (importEntries level heap done entries).1.size ≤ heap.size +
        (total (entries.map fun entry => entry.2.size) + Datum.contentsOfEntries entries) ∧
      (importEntries level heap done entries).2.length = done.length + entries.length := by
  cases entries with
  | nil => exact ⟨Nat.le_add_right _ _, List.length_reverse⟩
  | cons entry rest =>
    have hvalue := size_importAt_le level heap entry.2
    obtain ⟨hsize, hlength⟩ := size_importEntries_le level (importAt level heap entry.2).1
      ((entry.1, (importAt level heap entry.2).2) :: done) rest
    unfold importEntries Datum.contentsOfEntries
    dsimp only
    rw [hlength, List.length_cons, List.length_cons, List.map_cons, total_cons]
    constructor
    · omega
    · omega

end

end Heap

/-- A change makes the heap larger by what is paid for it, and by what is in the data it copies in. -/
theorem Change.size_onHeap_le (change : Change) (heap : Heap) :
    (change.onHeap heap).size ≤
      heap.size + (change.price heap + total (change.data.map Datum.contents)) := by
  cases change with
  | none | define _ _ | bindGlobal _ _ => exact Nat.le_add_right _ _
  | addArray elements => exact heap.size_addArray_le elements
  | addObject entries => exact heap.size_addObject_le entries
  | addDatum d =>
    -- Of imported data the price pays for the containers; their contents are paid for by the datum.
    have hsize : (heap.importDatum d).1.size ≤ heap.size + (d.size + d.contents) :=
      Heap.size_importAt_le 0 heap d
    have hdata : total ((Change.addDatum d).data.map Datum.contents) = d.contents :=
      Nat.add_zero _
    rw [hdata]
    change (heap.importDatum d).1.size ≤ heap.size + (1 + d.size + d.contents)
    omega
  | setElement handle index value => exact heap.size_setElement_le handle index value
  | appendElements handle values => exact heap.size_appendElements_le handle values
  | setProperty handle key value => exact heap.size_setProperty_le handle key value

/-! ## Along a run -/

/-- How many elements and properties an operation copied in; one that fails copies nothing. -/
def Event.imported (event : Event) : Nat :=
  match event.result with
  | .ok _ _ => total (event.operation.taken.map Datum.contents)
  | .error _ _ => 0

/-- How many elements and properties were copied in altogether. -/
def imported (events : List Event) : Nat := total (events.map Event.imported)

/-- A state whose heap is paid for, but for what came from outside. -/
def State.PaidUp (fromOutside : Nat) (s : State) : Prop :=
  s.heap.size ≤ s.meter.used + fromOutside

theorem State.PaidUp.of_sameStore {fromOutside : Nat} {s t : State} (hs : s.PaidUp fromOutside)
    (h : s.SameStore t) : t.PaidUp fromOutside := by
  unfold PaidUp
  rw [h.heap, h.meter]
  exact hs

/-- The data of a change is among what the operation was given, which is one piece at most. -/
theorem Change.From.total_data_le {α : Type} {op : Operation α} {change : Change}
    (h : change.From op) : total (change.data.map Datum.contents) ≤
      total (op.taken.map Datum.contents) := by
  cases change with
  | addDatum d =>
    have hd : d ∈ op.taken := h.data d List.mem_cons_self
    cases op with
    | takeIn d' =>
      rcases List.mem_singleton.mp hd with rfl
      exact Nat.le_refl _
    | _ => exact absurd hd List.not_mem_nil
  | _ => exact Nat.zero_le _

/-- An operation that succeeds leaves the heap paid for, unless the meter got to its maximum; one that
fails leaves the heap alone. -/
theorem Event.paidUp_after {event : Event} {env : Env}
    (hresult : event.result = event.operation.perform env event.before) {fromOutside : Nat}
    (hbefore : event.before.PaidUp fromOutside) (hused : event.before.meter.used < maxUnits)
    (hafter : event.Succeeded → event.after.meter.used < maxUnits) :
    event.after.PaidUp (fromOutside + event.imported) := by
  obtain ⟨op, before, result⟩ := event
  change result = op.perform env before at hresult
  change before.heap.size ≤ before.meter.used + fromOutside at hbefore
  change before.meter.used < maxUnits at hused
  have hmakes := op.makes env before
  cases result with
  | ok a t =>
    obtain ⟨change, hfrom, hdone⟩ := hmakes.ok hresult.symm
    have hbelow : t.meter.used < maxUnits := hafter ⟨a, t, rfl⟩
    have hpaid := hdone.paid
    have hsize := change.size_onHeap_le before.heap
    have hdata := hfrom.total_data_le
    change t.heap.size ≤ t.meter.used + (fromOutside + total (op.taken.map Datum.contents))
    rw [hdone.heap]
    -- below the maximum nothing was cut off
    unfold saturate at hpaid
    omega
  | error halt t =>
    have hstop := hmakes.error hresult.symm
    have hpaid := hstop.paid
    change t.heap.size ≤ t.meter.used + (fromOutside + 0)
    rw [hstop.heap]
    unfold saturate at hpaid
    omega

/-- What every operation keeps, given all that came before it, holds all along. -/
theorem Linked.forall_prefix {P : List Event → State → Prop} {s t : State} {events : List Event}
    (h : Linked s events t)
    (hstore : ∀ {past : List Event} {s s' : State}, s.SameStore s' → P past s → P past s')
    (hstep : ∀ past, ∀ event ∈ events, P past event.before → P (past ++ [event]) event.after)
    (earlier : List Event) (hs : P earlier s) :
    (∀ past event rest, events = past ++ event :: rest →
      P (earlier ++ past) event.before ∧ P (earlier ++ past ++ [event]) event.after) ∧
    P (earlier ++ events) t := by
  induction events generalizing s earlier with
  -- No event can be split off an empty list; the end has the store of the start.
  | nil =>
    refine ⟨fun past event rest hsplit => ?_, ?_⟩
    · exact absurd hsplit.symm (List.append_ne_nil_of_right_ne_nil past (List.cons_ne_nil event rest))
    · rw [List.append_nil]
      exact hstore h hs
  | cons first later ih =>
    obtain ⟨hbefore, hlater⟩ := h
    have hfirst : P earlier first.before := hstore hbefore hs
    have hnext := hstep earlier first List.mem_cons_self hfirst
    -- The first event has joined the past, so the induction is on the later ones with a longer past.
    obtain ⟨hsplits, hend⟩ :=
      ih hlater (fun past event hevent => hstep past event (List.mem_cons_of_mem _ hevent)) _ hnext
    constructor
    · intro past event rest hsplit
      cases past with
      | nil =>
        cases hsplit
        rw [List.append_nil]
        exact ⟨hfirst, hnext⟩
      | cons head past =>
        cases hsplit
        have hfound := hsplits past event rest rfl
        rwa [List.append_assoc earlier [first] past] at hfound
    · rwa [List.append_assoc] at hend

/-! ## Runs that are given nothing -/

/-- Nothing comes in. -/
def Regime.alone : Regime where
  Sound := fun _ => True
  Fits := fun _ _ => True
  Grows := fun _ _ => True
  Admits := fun _ => False
  Issues := fun _ _ => True

/-- Without collaborators there is no answer that could come in. -/
theorem Regime.alone_kept {env : Env} (hcollaborators : env.collaborators = {}) :
    Regime.alone.Kept env where
  refl := fun _ => trivial
  trans := fun _ _ => trivial
  fits_of_grows := fun _ _ => trivial
  simple := fun _ => trivial
  typeName := fun _ _ => trivial
  push := fun _ => trivial
  pop := fun _ => trivial
  sound := fun _ => trivial
  grows := fun _ => trivial
  values := fun _ _ _ _ => trivial
  issued := fun _ _ _ _ => trivial
  -- Only an answer puts a condition, and without collaborators every question fails.
  answered := by
    intro α op s t a _ hperform d hd
    cases op with
    | askToken id args =>
      change Run.askToken env.collaborators id args s = .ok a t at hperform
      rw [hcollaborators] at hperform
      cases hperform
    | askContract address signature returnType args =>
      change Run.askContract env.collaborators address signature returnType args s = .ok a t at hperform
      rw [hcollaborators] at hperform
      cases hperform
    | _ => exact absurd hd List.not_mem_nil

/-- A run that is given nothing, and asks nobody, imports nothing. -/
theorem Program.imported_eq_zero (program : Program) {context : RunContext} (limits : Limits)
    (hidentifiers : context.identifiers = []) (hargs : context.args = []) {past : List Event}
    (hpast : past <+: program.events context limits {}) : imported past = 0 := by
  have hcovers : Regime.alone.Covers (program.env limits {}) fun _ => True :=
    ⟨fun _ _ _ _ => trivial, fun _ => trivial, fun _ _ => trivial⟩
  have hkeeps : Regime.alone.Keeps (program.env limits {}) (program.steps context limits {})
      limits.start fun _ _ => True := by
    refine (Regime.alone_kept rfl).program hcovers (fun _ _ => trivial) ?_ ?_ trivial
    · intro identifier hidentifier
      rw [hidentifiers] at hidentifier
      cases hidentifier
    · intro d hd
      rw [hargs] at hd
      cases hd
  -- under this regime no operation takes anything in
  have hnone : ∀ event ∈ program.events context limits {}, event.imported = 0 := by
    intro event hevent
    have htaken : event.operation.taken = [] :=
      List.eq_nil_iff_forall_not_mem.mpr (hkeeps.events event hevent).taken
    unfold Event.imported
    rw [htaken]
    split
    · rfl
    · rfl
  have htotal : ∀ events : List Event, (∀ event ∈ events, event.imported = 0) →
      imported events = 0 := by
    intro events hevents
    induction events with
    | nil => rfl
    | cons event rest ih =>
      have hevents := List.forall_mem_cons.mp hevents
      unfold imported
      rw [List.map_cons, total_cons, hevents.1, Nat.zero_add]
      exact ih hevents.2
  exact htotal past fun event hevent => hnone event (hpast.subset hevent)

/-! ## Whole runs -/

/-- A state is paid up, if the meter was not cut off on the way there: it was not if the budget is
below the maximum of the meter, or if the meter is. -/
def State.PaidUpWithin (budget fromOutside : Nat) (s : State) : Prop :=
  budget < maxUnits ∨ s.meter.used < maxUnits → s.PaidUp fromOutside

/-- Throughout a run heap and budget are in step, event by event. -/
theorem Program.paidUp_along (program : Program) (context : RunContext) (limits : Limits)
    (collaborators : Collaborators) {s t : State}
    (hlinked : Linked s (program.events context limits collaborators) t)
    (hs : s.PaidUpWithin limits.stepBudget 0) :
    (∀ past event rest, program.events context limits collaborators = past ++ event :: rest →
      event.before.PaidUpWithin limits.stepBudget (imported past) ∧
        event.after.PaidUpWithin limits.stepBudget (imported (past ++ [event]))) ∧
    t.PaidUpWithin limits.stepBudget (imported (program.events context limits collaborators)) := by
  refine hlinked.forall_prefix (P := fun past s => s.PaidUpWithin limits.stepBudget (imported past))
    ?_ ?_ [] hs
  · intro past s s' hstore hs hmeter
    rw [hstore.meter] at hmeter
    exact (hs hmeter).of_sameStore hstore
  · intro past event hevent hbefore hmeter
    have hresult := Steps.result_of_mem_events hevent
    have hwithin := withinBudget_of_mem_events hevent
    -- the meter does not go back, so it was below its maximum before
    have hused : event.before.meter.used < maxUnits := by
      rcases hmeter with hbudget | hafter
      · exact Nat.lt_of_le_of_lt hwithin.used hbudget
      · obtain ⟨change, _, hdone⟩ := event.operation.exists_change
          (program.env limits collaborators) event.before
        have hpaid := hdone.paid
        rw [← hresult] at hpaid
        change saturate _ ≤ event.after.meter.used at hpaid
        unfold saturate at hpaid
        omega
    have hsucceeded : event.Succeeded → event.after.meter.used < maxUnits := by
      intro hok
      rcases hmeter with hbudget | hafter
      · exact Nat.lt_of_le_of_lt (withinBudget_of_succeeded hevent hok hwithin).used hbudget
      · exact hafter
    have hnext := Event.paidUp_after hresult (hbefore (.inr hused)) hused hsucceeded
    have htotal : imported (past ++ [event]) = imported past + event.imported := by
      unfold imported
      rw [List.map_append, total_append]
      rfl
    rw [htotal]
    exact hnext

/-- At the end of a run that is given nothing, the whole heap is paid for. -/
theorem Program.heap_size_le_of_alone {program : Program} {context : RunContext} {limits : Limits}
    (hidentifiers : context.identifiers = []) (hargs : context.args = []) {last : State}
    (hlinked : Linked limits.start (program.events context limits {}) last)
    (hmeter : limits.stepBudget < maxUnits ∨ last.meter.used < maxUnits) :
    last.heap.size ≤ last.meter.used := by
  have hstart : limits.start.PaidUpWithin limits.stepBudget 0 := fun _ => Nat.le_refl 0
  have hlast := (program.paidUp_along context limits {} hlinked hstart).2 hmeter
  rwa [program.imported_eq_zero limits hidentifiers hargs List.prefix_rfl] at hlast

/-- Heap growth is paid for. The run ends as its steps do, which take it from the start to its last
state by operations that find the heap as the one before left it. Before and after each of them, and
in the last state, also if the run fails, the arrays and objects on the heap together with the elements
and properties they hold are at most the budget used and the elements and properties imported so far.
With no data in the context and no collaborators nothing is imported.

The side condition in `State.PaidUpWithin` is there because the meter counts up to `maxUnits` and stays
there. A smaller budget is exceeded before the meter gets so far, and the run fails; a run with the
largest budget of all does not fail then, and what it adds to the heap from there on is paid for but no
longer shown by the meter. -/
theorem Program.heap_growth_is_paid_for (program : Program) (context : RunContext) (limits : Limits)
    (collaborators : Collaborators) :
    ∃ ending, program.run context limits collaborators = .ofResult ending ∧
      Linked limits.start (program.events context limits collaborators) (Run.final ending) ∧
      (∀ past event rest, program.events context limits collaborators = past ++ event :: rest →
        event.before.PaidUpWithin limits.stepBudget (imported past) ∧
          event.after.PaidUpWithin limits.stepBudget (imported (past ++ [event]))) ∧
      (Run.final ending).PaidUpWithin limits.stepBudget
        (imported (program.events context limits collaborators)) ∧
      (context.identifiers = [] → context.args = [] → collaborators = {} →
        ∀ past, past <+: program.events context limits collaborators → imported past = 0) := by
  obtain ⟨ending, hrun, hlinked⟩ := program.linked_events context limits collaborators
  have hstart : limits.start.PaidUpWithin limits.stepBudget 0 := fun _ => Nat.le_refl 0
  obtain ⟨hsplits, hend⟩ := program.paidUp_along context limits collaborators hlinked hstart
  refine ⟨ending, hrun, hlinked, hsplits, hend, ?_⟩
  rintro hidentifiers hargs rfl past hpast
  exact program.imported_eq_zero limits hidentifiers hargs hpast

end MeteredScript
