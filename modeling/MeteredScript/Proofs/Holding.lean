import MeteredScript.Proofs.Effects

namespace MeteredScript

/-! # What memory holds

A property of values holds throughout memory if whatever names are bound to has it, in every frame
and from outside, and so has every element and every property (`State.Hold`). A change keeps this if
what it puts into memory has the property, and what is read has it, too.
-/

/-! ## Entries -/

namespace Entries

variable {α : Type}

/-- What is looked up is one of the entries. -/
theorem mem_of_get? {entries : Entries α} {key : String} {v : α} (h : entries.get? key = some v) :
    (key, v) ∈ entries := by
  induction entries with
  | nil => cases h
  | cons entry rest ih =>
    unfold get? at h
    split at h
    · rename_i hkey
      cases h
      rw [← hkey]
      exact List.mem_cons_self
    · exact List.mem_cons_of_mem _ (ih h)

/-- After an entry is put, the entries are the old ones and the one with the new value. -/
theorem mem_put {entries : Entries α} {key : String} {value : α} {entry : String × α}
    (h : entry ∈ entries.put key value) : entry ∈ entries ∨ entry.2 = value := by
  induction entries with
  | nil =>
    rcases List.mem_singleton.mp h with rfl
    exact .inr rfl
  | cons first rest ih =>
    unfold put at h
    split at h
    · rcases List.mem_cons.mp h with rfl | hrest
      · exact .inr rfl
      · exact .inl (List.mem_cons_of_mem _ hrest)
    · rcases List.mem_cons.mp h with rfl | hrest
      · exact .inl List.mem_cons_self
      · rcases ih hrest with hold | hnew
        · exact .inl (List.mem_cons_of_mem _ hold)
        · exact .inr hnew

/-- The values of entries that are made of a list are values of the list. -/
theorem snd_mem_of_mem_ofList {entries : List (String × α)} {entry : String × α}
    (h : entry ∈ ofList entries) : entry.2 ∈ entries.map Prod.snd := by
  have hfold : ∀ (l : List (String × α)) (known : Entries α),
      (∀ entry ∈ known, entry.2 ∈ entries.map Prod.snd) → (∀ entry ∈ l, entry ∈ entries) →
      ∀ entry ∈ l.foldl (fun known entry => put entry.1 entry.2 known) known,
        entry.2 ∈ entries.map Prod.snd := by
    intro l
    induction l with
    | nil => exact fun known hknown _ => hknown
    | cons first rest ih =>
      intro known hknown hl
      have hl := List.forall_mem_cons.mp hl
      refine ih _ (fun entry hentry => ?_) hl.2
      rcases mem_put hentry with hold | hnew
      · exact hknown entry hold
      · exact hnew ▸ List.mem_map_of_mem hl.1
  exact hfold entries [] (fun _ h => absurd h List.not_mem_nil) (fun _ h => h) entry h

end Entries

/-! ## The heap -/

namespace Heap

/-! ### What changes do to arrays and objects -/

theorem elements_addArray (heap : Heap) (elements : List Value) (handle : Nat) :
    (heap.addArray elements).1.elements handle =
      if handle = heap.arrays.size then elements.toArray else heap.elements handle := by
  unfold addArray Heap.elements
  dsimp only
  rw [Array.getElem?_push]
  split
  · rfl
  · rfl

theorem entries_addObject (heap : Heap) (entries : List (String × Value)) (handle : Nat) :
    (heap.addObject entries).1.entries handle =
      if handle = heap.objects.size then Entries.ofList entries else heap.entries handle := by
  unfold addObject Heap.entries
  dsimp only
  rw [Array.getElem?_push]
  split
  · rfl
  · rfl

/-- One element of one array is written. -/
theorem elements_setElement (heap : Heap) (at' index : Nat) (value : Value) (handle : Nat) :
    (heap.setElement at' index value).elements handle =
      if at' = handle then (heap.elements handle).setIfInBounds index value
      else heap.elements handle := by
  unfold setElement Heap.elements
  dsimp only
  rw [Array.getElem?_modify]
  split
  · cases heap.arrays[handle]? with
    | some elements => rfl
    | none => rfl
  · rfl

/-- Only what is there is changed by a change in place. -/
theorem getD_getElem?_modify {α : Type} (xs : Array α) (f : α → α) (other : α) (at' handle : Nat) :
    ((xs.modify at' f)[handle]?).getD other =
      if at' = handle ∧ handle < xs.size then f (xs[handle]?.getD other)
      else xs[handle]?.getD other := by
  rw [Array.getElem?_modify]
  by_cases hat : at' = handle
  · by_cases hlt : handle < xs.size
    · rw [if_pos hat, if_pos ⟨hat, hlt⟩, Array.getElem?_eq_getElem hlt]
      rfl
    · rw [if_pos hat, if_neg (fun h => hlt h.2), Array.getElem?_eq_none (Nat.le_of_not_lt hlt)]
      rfl
  · rw [if_neg hat, if_neg (fun h => hat h.1)]

theorem elements_appendElements (heap : Heap) (at' : Nat) (values : List Value) (handle : Nat) :
    (heap.appendElements at' values).elements handle =
      if at' = handle ∧ handle < heap.arrays.size then heap.elements handle ++ values
      else heap.elements handle :=
  getD_getElem?_modify heap.arrays _ #[] at' handle

theorem entries_setProperty (heap : Heap) (at' : Nat) (key : String) (value : Value) (handle : Nat) :
    (heap.setProperty at' key value).entries handle =
      if at' = handle ∧ handle < heap.objects.size then (heap.entries handle).put key value
      else heap.entries handle :=
  getD_getElem?_modify heap.objects _ [] at' handle

/-- Whatever arrays and objects hold has a property. -/
structure Hold (heap : Heap) (P : Value → Prop) : Prop where
  elements (handle : Nat) : ∀ v ∈ heap.elements handle, P v
  properties (handle : Nat) : ∀ entry ∈ heap.entries handle, P entry.2

namespace Hold

variable {heap : Heap} {P : Value → Prop}

theorem empty (P : Value → Prop) : ({} : Heap).Hold P := by
  constructor
  · intro handle v hv
    exact absurd hv (Array.not_mem_empty v)
  · intro handle entry hentry
    exact absurd hentry List.not_mem_nil

theorem mono {P' : Value → Prop} (h : heap.Hold P) (hP : ∀ v, P v → P' v) : heap.Hold P' :=
  ⟨fun handle v hv => hP v (h.elements handle v hv),
    fun handle entry hentry => hP entry.2 (h.properties handle entry hentry)⟩

/-- A new array of what has the property. -/
theorem addArray (h : heap.Hold P) {elements : List Value} (helements : ∀ v ∈ elements, P v) :
    (heap.addArray elements).1.Hold P := by
  refine ⟨fun handle v hv => ?_, h.properties⟩
  rw [elements_addArray] at hv
  split at hv
  · exact helements v (List.mem_toArray.mp hv)
  · exact h.elements handle v hv

/-- A new object of what has the property. -/
theorem addObject (h : heap.Hold P) {entries : List (String × Value)}
    (hentries : ∀ v ∈ entries.map Prod.snd, P v) : (heap.addObject entries).1.Hold P := by
  refine ⟨h.elements, fun handle entry hentry => ?_⟩
  rw [entries_addObject] at hentry
  split at hentry
  · exact hentries _ (Entries.snd_mem_of_mem_ofList hentry)
  · exact h.properties handle entry hentry

/-- Writing an element that has the property. -/
theorem setElement (h : heap.Hold P) (at' index : Nat) {value : Value} (hvalue : P value) :
    (heap.setElement at' index value).Hold P := by
  refine ⟨fun handle v hv => ?_, h.properties⟩
  rw [elements_setElement] at hv
  split at hv
  · rcases Array.mem_or_eq_of_mem_setIfInBounds hv with hold | hnew
    · exact h.elements handle v hold
    · exact hnew ▸ hvalue
  · exact h.elements handle v hv

theorem appendElements (h : heap.Hold P) (at' : Nat) {values : List Value}
    (hvalues : ∀ v ∈ values, P v) : (heap.appendElements at' values).Hold P := by
  refine ⟨fun handle v hv => ?_, h.properties⟩
  rw [elements_appendElements] at hv
  split at hv
  · rw [← Array.mem_toList_iff, Array.toList_appendList] at hv
    rcases List.mem_append.mp hv with hold | hnew
    · exact h.elements handle v (Array.mem_toList_iff.mp hold)
    · exact hvalues v hnew
  · exact h.elements handle v hv

theorem setProperty (h : heap.Hold P) (at' : Nat) (key : String) {value : Value}
    (hvalue : P value) : (heap.setProperty at' key value).Hold P := by
  refine ⟨h.elements, fun handle entry hentry => ?_⟩
  rw [entries_setProperty] at hentry
  split at hentry
  · rcases Entries.mem_put hentry with hold | hnew
    · exact h.properties handle entry hold
    · exact hnew ▸ hvalue
  · exact h.properties handle entry hentry

end Hold

end Heap

/-- A change keeps what memory holds, if what it puts there has the property. -/
theorem Change.hold_onHeap (change : Change) {heap : Heap} {P : Value → Prop} (h : heap.Hold P)
    (hvalues : ∀ v ∈ change.values, P v)
    (hdata : ∀ d ∈ change.data, (heap.importDatum d).1.Hold P) : (change.onHeap heap).Hold P := by
  cases change with
  | none | define _ _ | bindGlobal _ _ => exact h
  | addArray elements => exact h.addArray hvalues
  | addObject entries => exact h.addObject hvalues
  | addDatum d => exact hdata d List.mem_cons_self
  | setElement handle index value =>
    exact h.setElement handle index (hvalues value List.mem_cons_self)
  | appendElements handle values => exact h.appendElements handle hvalues
  | setProperty handle key value =>
    exact h.setProperty handle key (hvalues value List.mem_cons_self)

/-! ## Frames -/

/-- Whatever a name is bound to, in a frame or from outside, has a property. -/
structure Frames.Hold (frames : Frames) (P : Value → Prop) : Prop where
  stack : ∀ frame ∈ frames.stack, ∀ (name : String) (v : Value), frame[name]? = some v → P v
  globals (name : String) (v : Value) : frames.globals[name]? = some v → P v

namespace Frames.Hold

variable {frames : Frames} {P : Value → Prop}

theorem mono {P' : Value → Prop} (h : frames.Hold P) (hP : ∀ v, P v → P' v) : frames.Hold P' :=
  ⟨fun frame hframe name v hv => hP v (h.stack frame hframe name v hv),
    fun name v hv => hP v (h.globals name v hv)⟩

/-- A new frame binds nothing. -/
theorem push (h : frames.Hold P) : frames.push.Hold P := by
  refine ⟨fun frame hframe name v hv => ?_, h.globals⟩
  rcases List.mem_cons.mp hframe with rfl | hbelow
  · rw [Std.TreeMap.getElem?_emptyc] at hv
    cases hv
  · exact h.stack frame hbelow name v hv

theorem pop (h : frames.Hold P) : frames.pop.Hold P :=
  ⟨fun frame hframe => h.stack frame (List.mem_of_mem_tail hframe), h.globals⟩

theorem of_insert {frame : Frame} {name : String} {value : Value}
    (h : ∀ (name : String) (v : Value), frame[name]? = some v → P v) (hvalue : P value)
    (name' : String) (v : Value) (hv : (frame.insert name value)[name']? = some v) : P v := by
  rw [Std.TreeMap.getElem?_insert] at hv
  split at hv
  · cases hv
    exact hvalue
  · exact h name' v hv

/-- Binding a name to what has the property, in whichever frame is the latest. -/
theorem define (h : frames.Hold P) (name : String) {value : Value} (hvalue : P value) :
    (frames.define name value).Hold P := by
  unfold Frames.define
  split
  · exact h
  · rename_i frame rest hstack
    have hstack' := h.stack
    rw [hstack] at hstack'
    refine ⟨fun frame' hframe' => ?_, h.globals⟩
    rcases List.mem_cons.mp hframe' with rfl | hbelow
    · exact of_insert (hstack' frame List.mem_cons_self) hvalue
    · exact hstack' frame' (List.mem_cons_of_mem _ hbelow)

theorem defineGlobal (h : frames.Hold P) (name : String) {value : Value} (hvalue : P value) :
    (frames.defineGlobal name value).Hold P :=
  ⟨h.stack, of_insert h.globals hvalue⟩

/-- What a name is bound to has the property. -/
theorem get? (h : frames.Hold P) {name : String} {v : Value} (hv : frames.get? name = some v) :
    P v := by
  unfold Frames.get? at hv
  split at hv
  · exact h.globals name v hv
  · rename_i frame rest hstack
    rcases Option.or_eq_some_iff.mp hv with hlocal | hglobal
    · exact h.stack frame (hstack ▸ List.mem_cons_self) name v hlocal
    · exact h.globals name v hglobal.2

end Frames.Hold

/-- A change keeps the property in the frames if its values have it. -/
theorem Change.hold_onFrames (change : Change) {frames : Frames} {P : Value → Prop}
    (h : frames.Hold P) (hvalues : ∀ v ∈ change.values, P v) : (change.onFrames frames).Hold P := by
  cases change with
  | define name value => exact h.define name (hvalues value List.mem_cons_self)
  | bindGlobal name value => exact h.defineGlobal name (hvalues value List.mem_cons_self)
  | _ => exact h

/-! ## States -/

/-- Whatever memory holds has a property. -/
structure State.Hold (s : State) (P : Value → Prop) : Prop where
  heap : s.heap.Hold P
  frames : s.frames.Hold P

/-- At the start memory is empty. -/
theorem State.hold_start (limits : Limits) (P : Value → Prop) : limits.start.Hold P := by
  refine ⟨.empty P, ?_, ?_⟩
  · intro frame hframe
    exact absurd hframe List.not_mem_nil
  · intro name v hv
    change (∅ : Frame)[name]? = some v at hv
    rw [Std.TreeMap.getElem?_emptyc] at hv
    cases hv

/-- What is read has the property of all that memory holds, if simple values have it. -/
theorem Run.readLocation_hold {P : Value → Prop} (hsimple : ∀ v, v.isSimple = true → P v)
    {s : State} (hs : s.Hold P) (location : Location) (span : Span) :
    Leads (readLocation location span) s (fun v t => P v ∧ t.heap = s.heap) fun _ => True := by
  cases location with
  | name name =>
    have hlookup : Run.lookup name s = .ok (s.frames.get? name) s := rfl
    refine .congr (bind_of_ok hlookup) ?_
    cases hv : s.frames.get? name with
    | some v => exact .pure ⟨hs.frames.get? hv, rfl⟩
    | none => exact .halt trivial
  -- what a member gives is an element or a property, or else a simple value
  | member object key =>
    unfold readLocation getMember
    cases object with
    | array handle =>
      have hlength : Run.arrayLength handle s = .ok (s.heap.elements handle).size s := rfl
      refine .congr (bind_of_ok hlength) ?_
      split
      · exact .pure ⟨hsimple _ rfl, rfl⟩
      · have hindex := (Quiet.arrayIndex key (s.heap.elements handle).size span s).mono
          (fun _ _ ht => ht) fun _ _ => trivial
        refine hindex.bind fun index t ht => ?_
        have helement : Run.element handle index t =
            .ok ((t.heap.elements handle)[index]?.getD .undefined) t := rfl
        refine .of_ok helement ⟨?_, ht.heap⟩
        rw [ht.heap]
        cases hv : (s.heap.elements handle)[index]? with
        | none => exact hsimple _ rfl
        | some v => exact hs.heap.elements handle v (Array.mem_of_getElem? hv)
    | object handle =>
      have hdisplay : Run.display key s = .ok (s.heap.display key) s := rfl
      refine .congr (bind_of_ok hdisplay) ?_
      have hproperty : Run.property? handle (s.heap.display key) s =
          .ok (s.heap.property? handle (s.heap.display key)) s := rfl
      refine .congr (bind_of_ok hproperty) (.pure ⟨?_, rfl⟩)
      cases hv : s.heap.property? handle (s.heap.display key) with
      | none => exact hsimple _ rfl
      | some v => exact hs.heap.properties handle _ (Entries.mem_of_get? hv)
    | string text =>
      dsimp only
      split
      · exact .pure ⟨hsimple _ rfl, rfl⟩
      · exact .pure ⟨hsimple _ rfl, rfl⟩
    | _ => exact .pure ⟨hsimple _ rfl, rfl⟩

end MeteredScript
