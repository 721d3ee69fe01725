import MeteredScript.Proofs.Holding

namespace MeteredScript

/-! # Handles stay good

Throughout a run, an array or an object that is named by any value at hand is there: by the variables
of all frames, by what is bound from outside, by elements, by properties, and by the values that
expressions and calls come to. The keys of an object are distinct. The heap only grows
(`Heap.Extends`): nothing is removed, no array gets shorter, and the keys of an object stay where they
are. Main statement: this is a regime that every operation keeps (`Regime.handles_kept`).
-/

/-! ## Entries -/

namespace Entries

variable {α : Type}

def keys (entries : Entries α) : List String := entries.map Prod.fst

/-- Looking up succeeds for the keys that are there. -/
theorem isSome_get?_iff {entries : Entries α} {key : String} :
    (entries.get? key).isSome = true ↔ key ∈ entries.keys := by
  induction entries with
  | nil =>
    constructor
    · intro h
      cases h
    · intro h
      cases h
  | cons entry rest ih =>
    unfold get?
    split
    · rename_i hkey
      exact ⟨fun _ => hkey ▸ List.mem_cons_self, fun _ => rfl⟩
    · rename_i hkey
      rw [ih]
      constructor
      · exact List.mem_cons_of_mem _
      · intro hmem
        rcases List.mem_cons.mp hmem with heq | hrest
        · exact absurd heq.symm hkey
        · exact hrest

/-- A key that is there keeps its place, and a new one comes last. -/
theorem keys_put (entries : Entries α) (key : String) (value : α) :
    (entries.put key value).keys =
      if key ∈ entries.keys then entries.keys else entries.keys ++ [key] := by
  induction entries with
  | nil => rfl
  | cons entry rest ih =>
    unfold put
    split
    · rename_i hkey
      rw [if_pos (show key ∈ keys (entry :: rest) from hkey ▸ List.mem_cons_self)]
      rfl
    · rename_i hkey
      change entry.1 :: keys (put key value rest) = _
      rw [ih]
      -- The first key is another one, so only the rest decides whether the key is new.
      by_cases hrest : key ∈ keys rest
      · rw [if_pos hrest, if_pos (show key ∈ keys (entry :: rest) from List.mem_cons_of_mem _ hrest)]
        rfl
      · have hnew : key ∉ keys (entry :: rest) := by
          intro hmem
          rcases List.mem_cons.mp hmem with heq | hmem
          · exact hkey heq.symm
          · exact hrest hmem
        rw [if_neg hrest, if_neg hnew]
        rfl

/-- Putting an entry keeps the keys, and their order. -/
theorem keys_prefix_put (entries : Entries α) (key : String) (value : α) :
    entries.keys <+: (entries.put key value).keys := by
  rw [keys_put]
  split
  · exact List.prefix_rfl
  · exact List.prefix_append _ _

/-- Putting an entry makes no key come twice. -/
theorem nodup_keys_put {entries : Entries α} (h : entries.keys.Nodup) (key : String) (value : α) :
    (entries.put key value).keys.Nodup := by
  rw [keys_put]
  split
  · exact h
  · rename_i hnew
    refine List.nodup_append.mpr ⟨h, List.nodup_cons.mpr ⟨List.not_mem_nil, List.nodup_nil⟩, ?_⟩
    intro k hk k' hk' heq
    rcases List.mem_singleton.mp hk' with rfl
    exact hnew (heq ▸ hk)

theorem nodup_keys_ofList (entries : List (String × α)) : (ofList entries).keys.Nodup := by
  have hfold : ∀ (l : List (String × α)) (known : Entries α), known.keys.Nodup →
      (l.foldl (fun known entry => put entry.1 entry.2 known) known).keys.Nodup := by
    intro l
    induction l with
    | nil => exact fun known hknown => hknown
    | cons first rest ih => exact fun known hknown => ih _ (nodup_keys_put hknown _ _)
  exact hfold entries [] List.nodup_nil

end Entries

/-! ## The heap -/

namespace Heap

/-- A value names nothing, or an array or object that is there. -/
def Has (heap : Heap) : Value → Prop
  | .array handle => handle < heap.arrays.size
  | .object handle => handle < heap.objects.size
  | _ => True

/-- The keys of an object, in order. -/
def keys (heap : Heap) (handle : Nat) : List String := (heap.entries handle).keys

/-- Nothing was removed, no array got shorter, and new keys came behind the others. -/
structure Extends (heap heap' : Heap) : Prop where
  arrays : heap.arrays.size ≤ heap'.arrays.size
  objects : heap.objects.size ≤ heap'.objects.size
  elements (handle : Nat) : (heap.elements handle).size ≤ (heap'.elements handle).size
  keys (handle : Nat) : heap.keys handle <+: heap'.keys handle

/-- Everything on the heap is there, and no key occurs twice. -/
structure Sound (heap : Heap) : Prop where
  elements (handle : Nat) : ∀ v ∈ heap.elements handle, heap.Has v
  properties (handle : Nat) : ∀ entry ∈ heap.entries handle, heap.Has entry.2
  keys (handle : Nat) : (heap.keys handle).Nodup

variable {heap : Heap}

/-- A value without a handle is at hand on every heap. -/
theorem has_of_isSimple {v : Value} (h : v.isSimple = true) : heap.Has v := by
  cases v with
  | array handle | object handle => cases h
  | _ => trivial

namespace Extends

theorem refl (heap : Heap) : heap.Extends heap :=
  ⟨Nat.le_refl _, Nat.le_refl _, fun _ => Nat.le_refl _, fun _ => List.prefix_rfl⟩

theorem trans {heap heap' heap'' : Heap} (h : heap.Extends heap') (h' : heap'.Extends heap'') :
    heap.Extends heap'' :=
  ⟨Nat.le_trans h.arrays h'.arrays, Nat.le_trans h.objects h'.objects,
    fun handle => Nat.le_trans (h.elements handle) (h'.elements handle),
    fun handle => (h.keys handle).trans (h'.keys handle)⟩

/-- What was there stays there. -/
theorem has {heap heap' : Heap} (h : heap.Extends heap') {v : Value} (hv : heap.Has v) :
    heap'.Has v := by
  cases v with
  | array handle => exact Nat.lt_of_lt_of_le hv h.arrays
  | object handle => exact Nat.lt_of_lt_of_le hv h.objects
  | _ => trivial

end Extends

/-- There is nothing at handles to come. -/
theorem elements_of_size_le {handle : Nat} (h : heap.arrays.size ≤ handle) :
    heap.elements handle = #[] := by
  unfold Heap.elements
  rw [Array.getElem?_eq_none h]
  rfl

theorem entries_of_size_le {handle : Nat} (h : heap.objects.size ≤ handle) :
    heap.entries handle = [] := by
  unfold Heap.entries
  rw [Array.getElem?_eq_none h]
  rfl

/-! ### Adding -/

/-- A new array changes nothing that was there. -/
theorem extends_addArray (heap : Heap) (elements : List Value) :
    heap.Extends (heap.addArray elements).1 := by
  refine ⟨?_, Nat.le_refl _, fun handle => ?_, fun _ => List.prefix_rfl⟩
  · exact Nat.le_of_lt (Nat.lt_of_lt_of_eq (Nat.lt_succ_self _) (Array.size_push _).symm)
  · rw [elements_addArray]
    split
    · rename_i heq
      rw [elements_of_size_le (Nat.le_of_eq heq.symm)]
      exact Nat.zero_le _
    · exact Nat.le_refl _

/-- A new object changes nothing that was there. -/
theorem extends_addObject (heap : Heap) (entries : List (String × Value)) :
    heap.Extends (heap.addObject entries).1 := by
  refine ⟨Nat.le_refl _, ?_, fun _ => Nat.le_refl _, fun handle => ?_⟩
  · exact Nat.le_of_lt (Nat.lt_of_lt_of_eq (Nat.lt_succ_self _) (Array.size_push _).symm)
  · unfold Heap.keys
    rw [entries_addObject]
    split
    · rename_i heq
      rw [entries_of_size_le (Nat.le_of_eq heq.symm)]
      exact List.nil_prefix
    · exact List.prefix_rfl

theorem has_addArray (heap : Heap) (elements : List Value) :
    (heap.addArray elements).1.Has (heap.addArray elements).2 :=
  Nat.lt_of_lt_of_eq (Nat.lt_succ_self _) (Array.size_push _).symm

theorem has_addObject (heap : Heap) (entries : List (String × Value)) :
    (heap.addObject entries).1.Has (heap.addObject entries).2 :=
  Nat.lt_of_lt_of_eq (Nat.lt_succ_self _) (Array.size_push _).symm

theorem Sound.hold (h : heap.Sound) : heap.Hold heap.Has := ⟨h.elements, h.properties⟩

theorem Sound.of_hold {heap' : Heap} (h : heap'.Hold heap.Has) (hextends : heap.Extends heap')
    (hkeys : ∀ handle, (heap'.keys handle).Nodup) : heap'.Sound := by
  have hold := h.mono fun _ hv => hextends.has hv
  exact ⟨hold.elements, hold.properties, hkeys⟩

theorem Sound.addArray (h : heap.Sound) {elements : List Value}
    (helements : ∀ v ∈ elements, heap.Has v) : (heap.addArray elements).1.Sound :=
  .of_hold (h.hold.addArray helements) (heap.extends_addArray elements) h.keys

theorem Sound.addObject (h : heap.Sound) {entries : List (String × Value)}
    (hentries : ∀ v ∈ entries.map Prod.snd, heap.Has v) : (heap.addObject entries).1.Sound := by
  refine .of_hold (h.hold.addObject hentries) (heap.extends_addObject entries) fun handle => ?_
  unfold Heap.keys
  rw [entries_addObject]
  split
  · exact Entries.nodup_keys_ofList entries
  · exact h.keys handle

/-! ### Copying in -/

/-- What copying data onto a heap comes to: another heap, and values there. -/
structure Imported (heap heap' : Heap) (values : List Value) : Prop where
  sound : heap'.Sound
  grown : heap.Extends heap'
  has : ∀ v ∈ values, heap'.Has v

mutual

/-- Data is copied into arrays and objects that are there afterwards. -/
theorem imported_importAt (level : Nat) {heap : Heap} (h : heap.Sound) (d : Datum) :
    heap.Imported (importAt level heap d).1 [(importAt level heap d).2] := by
  -- what holds nothing is taken as it is
  cases d with
  | array items =>
    have hitems := imported_importItems (level + 1) h []
      (fun _ hv => absurd hv List.not_mem_nil) items
    unfold importAt
    rw [deepen_eq]
    refine ⟨hitems.sound.addArray hitems.has, hitems.grown.trans (extends_addArray _ _), ?_⟩
    exact List.forall_mem_singleton.mpr (has_addArray _ _)
  | object entries =>
    have hentries := imported_importEntries (level + 1) h []
      (fun _ hv => absurd hv List.not_mem_nil) entries
    unfold importAt
    rw [deepen_eq]
    refine ⟨hentries.sound.addObject hentries.has, hentries.grown.trans (extends_addObject _ _), ?_⟩
    exact List.forall_mem_singleton.mpr (has_addObject _ _)
  | _ => exact ⟨h, .refl heap, List.forall_mem_singleton.mpr trivial⟩

/-- Elements one after the other, those already copied stay there. -/
theorem imported_importItems (level : Nat) {heap : Heap} (h : heap.Sound) (done : List Value)
    (hdone : ∀ v ∈ done, heap.Has v) (items : List Datum) :
    heap.Imported (importItems level heap done items).1 (importItems level heap done items).2 := by
  cases items with
  | nil => exact ⟨h, .refl heap, fun v hv => hdone v (List.mem_reverse.mp hv)⟩
  | cons item rest =>
    have hitem := imported_importAt level h item
    have hdone' := List.forall_mem_cons.mpr
      ⟨hitem.has _ List.mem_cons_self, fun v hv => hitem.grown.has (hdone v hv)⟩
    have hrest := imported_importItems level hitem.sound _ hdone' rest
    exact ⟨hrest.sound, hitem.grown.trans hrest.grown, hrest.has⟩

theorem imported_importEntries (level : Nat) {heap : Heap} (h : heap.Sound)
    (done : List (String × Value)) (hdone : ∀ entry ∈ done, heap.Has entry.2)
    (entries : List (String × Datum)) :
    heap.Imported (importEntries level heap done entries).1
      ((importEntries level heap done entries).2.map Prod.snd) := by
  cases entries with
  | nil =>
    refine ⟨h, .refl heap, fun v hv => ?_⟩
    obtain ⟨entry, hentry, rfl⟩ := List.mem_map.mp hv
    exact hdone entry (List.mem_reverse.mp hentry)
  | cons entry rest =>
    have hvalue := imported_importAt level h entry.2
    -- What was imported before is still there, as the heap only grows.
    have hdone' : ∀ e ∈ (entry.1, (importAt level heap entry.2).2) :: done,
        (importAt level heap entry.2).1.Has e.2 := by
      intro e he
      rcases List.mem_cons.mp he with rfl | hold
      · exact hvalue.has _ List.mem_cons_self
      · exact hvalue.grown.has (hdone e hold)
    have hrest := imported_importEntries level hvalue.sound _ hdone' rest
    exact ⟨hrest.sound, hvalue.grown.trans hrest.grown, hrest.has⟩

end

end Heap

/-! ### Every change -/

namespace Change

variable {heap : Heap}

/-- Every change extends the heap. -/
theorem extends_onHeap (change : Change) (h : heap.Sound) : heap.Extends (change.onHeap heap) := by
  cases change with
  | none | define _ _ | bindGlobal _ _ => exact .refl heap
  | addArray elements => exact heap.extends_addArray elements
  | addObject entries => exact heap.extends_addObject entries
  | addDatum d => exact (Heap.imported_importAt 0 h d).grown
  -- writing an element keeps all sizes
  | setElement handle index value =>
    refine ⟨Nat.le_of_eq (Array.size_modify).symm, Nat.le_refl _, fun at' => ?_,
      fun _ => List.prefix_rfl⟩
    unfold onHeap
    rw [Heap.elements_setElement]
    split
    · exact Nat.le_of_eq Array.size_setIfInBounds.symm
    · exact Nat.le_refl _
  -- appending is the one change that makes an array longer
  | appendElements handle values =>
    refine ⟨Nat.le_of_eq (Array.size_modify).symm, Nat.le_refl _, fun at' => ?_,
      fun _ => List.prefix_rfl⟩
    unfold onHeap
    rw [Heap.elements_appendElements]
    split
    · rw [← Array.length_toList, ← Array.length_toList, Array.toList_appendList, List.length_append]
      exact Nat.le_add_right _ _
    · exact Nat.le_refl _
  | setProperty handle key value =>
    refine ⟨Nat.le_refl _, Nat.le_of_eq (Array.size_modify).symm, fun _ => Nat.le_refl _,
      fun at' => ?_⟩
    unfold onHeap Heap.keys
    rw [Heap.entries_setProperty]
    split
    · exact Entries.keys_prefix_put _ _ _
    · exact List.prefix_rfl

/-- No change makes a key come twice. -/
theorem nodup_keys_onHeap (change : Change) (h : heap.Sound) (handle : Nat) :
    ((change.onHeap heap).keys handle).Nodup := by
  cases change with
  | none | define _ _ | bindGlobal _ _ | addArray _ | setElement _ _ _ | appendElements _ _ =>
    exact h.keys handle
  | addObject entries =>
    unfold onHeap Heap.keys
    rw [Heap.entries_addObject]
    split
    · exact Entries.nodup_keys_ofList entries
    · exact h.keys handle
  | addDatum d => exact (Heap.imported_importAt 0 h d).sound.keys handle
  | setProperty at' key value =>
    unfold onHeap Heap.keys
    rw [Heap.entries_setProperty]
    split
    · exact Entries.nodup_keys_put (h.keys handle) _ _
    · exact h.keys handle

theorem sound_onHeap (change : Change) (h : heap.Sound)
    (hvalues : ∀ v ∈ change.values, heap.Has v) : (change.onHeap heap).Sound := by
  have hextends := change.extends_onHeap h
  have hdata : ∀ d ∈ change.data, (heap.importDatum d).1.Hold (change.onHeap heap).Has := by
    intro d hd
    cases change with
    | addDatum d' =>
      rcases List.mem_singleton.mp hd with rfl
      exact (Heap.imported_importAt 0 h d).sound.hold
    | _ => exact absurd hd List.not_mem_nil
  have hold := change.hold_onHeap (h.hold.mono fun _ hv => hextends.has hv)
    (fun v hv => hextends.has (hvalues v hv)) hdata
  exact ⟨hold.elements, hold.properties, change.nodup_keys_onHeap h⟩

end Change

/-! ## Frames and states -/

/-- A state in which whatever any value names is there. -/
structure State.Sound (s : State) : Prop where
  heap : s.heap.Sound
  frames : s.frames.Hold s.heap.Has

variable {s : State}

theorem State.Sound.hold (h : s.Sound) : s.Hold s.heap.Has := ⟨h.heap.hold, h.frames⟩

/-- At the start nothing is bound, and nothing is on the heap. -/
theorem State.sound_start (limits : Limits) : limits.start.Sound := by
  have hold := State.hold_start limits limits.start.heap.Has
  exact ⟨⟨hold.heap.elements, hold.heap.properties, fun _ => List.nodup_nil⟩, hold.frames⟩

/-! ## Results of operations -/

namespace Run

/-- Whatever a computation gives has a property, from any state on. -/
def Always {α : Type} (P : α → Prop) (x : Run α) : Prop :=
  ∀ s, Leads x s (fun a _ => P a) fun _ => True

namespace Always

variable {α β : Type} {P : β → Prop}

theorem pure {b : β} (hb : P b) : Always P (Pure.pure b) := fun _ => .pure hb

theorem fail (error : Error) : Always P (Run.fail error) := fun _ => .halt trivial

theorem orCrash {read : Except Crash β} (h : ∀ b, read = .ok b → P b) :
    Always P (Run.orCrash read) := by
  cases read with
  | ok b => exact pure (h b rfl)
  | error c => exact fun _ => .halt trivial

/-- What comes of a computation is what comes of its second part. -/
theorem bind {x : Run α} {f : α → Run β} (hf : ∀ a, Always P (f a)) : Always P (x >>= f) := by
  intro s
  have hx : Leads x s (fun _ _ => True) fun _ => True := ⟨fun _ => trivial, fun _ => trivial⟩
  exact hx.bind fun a t _ => hf a t

end Always

/-- An operator on numbers gives a number, or none. -/
theorem always_numeric (price : Decimal → Decimal → Nat) (f : Decimal → Decimal → Option Decimal)
    (left right : Value) : Always (fun v => v.isSimple = true) (numeric price f left right) := by
  refine .bind fun numbers? => ?_
  split
  · exact .bind fun _ => .pure (Value.isSimple_ofNumber? _)
  · exact .pure rfl

theorem always_exponentiate (left right : Value) :
    Always (fun v => v.isSimple = true) (exponentiate left right) := by
  refine .bind fun numbers? => ?_
  split
  · exact .bind fun _ => .pure (Value.isSimple_ofNumber? _)
  · exact .pure rfl

/-- An operator gives something simple, or text that is not too long. -/
theorem always_binary (maxLength : Nat) (op : BinaryOp) (left right : Value) :
    Always (fun v => v.isSimple = true ∨ ∃ text, v = .string text ∧ text.utf8ByteSize ≤ maxLength)
      (binary maxLength op left right) := by
  have hsimple : ∀ {x : Run Value}, Always (fun v => v.isSimple = true) x →
      Always (fun v => v.isSimple = true ∨
        ∃ text, v = .string text ∧ text.utf8ByteSize ≤ maxLength) x := by
    intro x hx s
    exact (hx s).mono (fun v _ hv => .inl hv) fun _ _ => trivial
  cases op with
  | compare op => exact .bind fun _ => .pure (.inl rfl)
  | arith op =>
    cases op with
    -- of all operators only addition gives texts
    | add =>
      unfold binary arith add
      dsimp only
      split
      · exact .pure (.inl rfl)
      · split
        · refine .bind fun l => .bind fun r => ?_
          dsimp only
          split
          · exact .fail _
          · rename_i hlength
            exact .bind fun _ => .pure (.inr ⟨_, rfl, Nat.le_of_not_lt hlength⟩)
        · exact hsimple (always_numeric _ _ left right)
    | sub | mul | div | rem => exact hsimple (always_numeric _ _ left right)
    | exp => exact hsimple (always_exponentiate left right)
    | bitAnd | bitOr | bitXor | shl | shr | ushr =>
      refine .orCrash fun v hv => ?_
      obtain ⟨x, -, hv⟩ := Crash.exists_of_bind_eq_ok hv
      obtain ⟨y, -, hv⟩ := Crash.exists_of_bind_eq_ok hv
      cases hv
      exact .inl rfl

/-- An operator in front of a value gives something simple, or the name of a type. -/
theorem always_unary (op : UnaryOp) (v : Value) :
    Always (fun w => w.isSimple = true ∨ w = .string v.typeName) (unary op v) :=
  .orCrash fun _ => Value.isSimple_or_typeName_of_unary

/-- A step gives a number, or NaN. -/
theorem always_stepLocation (op : UpdateOp) (location : Location) (span : Span) :
    Always (fun stepped => stepped.2.isSimple = true) (stepLocation op location span) :=
  .bind fun _ => .bind fun _ => .bind fun _ => .bind fun _ => .pure (Value.isSimple_ofNumber? _)

theorem always_callMethod (receiver : Value) (method : String) (args : List Value) (span : Span) :
    Always (fun v => v.isSimple = true) (callMethod receiver method args span) := by
  unfold callMethod
  split
  · exact .bind fun _ => .bind fun _ => .bind fun _ => .pure rfl
  · exact .fail _

end Run

/-- Values that an operation gives are there. -/
theorem Operation.has_values (env : Env) {α : Type} (op : Operation α) (hs : s.Sound) :
    Run.Leads (op.perform env) s (fun a t => ∀ v ∈ op.values a, t.heap.Has v) fun _ => True := by
  have hone : ∀ {v : Value} {heap : Heap}, heap.Has v → ∀ w ∈ [v], heap.Has w := fun hv =>
    List.forall_mem_singleton.mpr hv
  have hempty : ∀ {heap : Heap}, ∀ w ∈ ([] : List Value), heap.Has w := fun _ hw =>
    absurd hw List.not_mem_nil
  have hpaid : ∀ units, Run.Leads (Run.charge units) s (fun _ t => s.Paid units t) fun _ => True :=
    fun units => (Run.Leads.charge units).mono (fun _ _ ht => ht) fun _ _ => trivial
  cases op with
  | lookup name =>
    refine .of_ok rfl fun v hv => ?_
    exact hs.frames.get? (Option.mem_toList.mp hv)
  | read location span =>
    have hsimple : ∀ v, v.isSimple = true → s.heap.Has v := fun _ => Heap.has_of_isSimple
    refine (Run.readLocation_hold hsimple hs.hold location span).mono (fun v t hv => hone ?_)
      fun _ _ => trivial
    rw [hv.2]
    exact hv.1
  | step op location span =>
    exact (Run.always_stepLocation op location span s).mono
      (fun _ _ h => hone (Heap.has_of_isSimple h)) fun _ _ => trivial
  | combine op left right =>
    refine (Run.always_binary env.maxStringLength op left right s).mono (fun v t hv => hone ?_)
      fun _ _ => trivial
    rcases hv with hsimple | ⟨text, rfl, _⟩
    · exact Heap.has_of_isSimple hsimple
    · trivial
  | apply op v =>
    refine (Run.always_unary op v s).mono (fun w t hw => hone ?_) fun _ _ => trivial
    rcases hw with hsimple | rfl
    · exact Heap.has_of_isSimple hsimple
    · trivial
  | makeArray elements =>
    exact (hpaid _).bind fun _ t _ => .of_ok rfl (hone (t.heap.has_addArray elements))
  | makeObject entries =>
    exact (hpaid _).bind fun _ t _ => .of_ok rfl (hone (t.heap.has_addObject entries))
  | callMethod receiver method args span =>
    exact (Run.always_callMethod receiver method args span s).mono
      (fun _ _ h => hone (Heap.has_of_isSimple h)) fun _ _ => trivial
  -- the heap in front of the copy is the one in front of the charge
  | takeIn d =>
    refine (hpaid _).bind fun _ t ht => .of_ok rfl (hone ?_)
    have hsound : t.heap.Sound := by
      rw [ht.heap]
      exact hs.heap
    exact (Heap.imported_importAt 0 hsound d).has _ List.mem_cons_self
  | _ => exact ⟨fun _ => hempty, fun _ => trivial⟩

/-- Copying out leaves the state alone. -/
theorem Run.eq_ok_of_exportDatum {v : Value} {span : Span} {t : State} {d : Datum}
    (h : Run.exportDatum v span s = .ok d t) : s.heap.exportDatum? v = .ok d ∧ t = s := by
  have hread : Run.exportDatum? v s = .ok (s.heap.exportDatum? v) s := rfl
  unfold Run.exportDatum at h
  rw [bind_of_ok hread] at h
  cases hexport : s.heap.exportDatum? v with
  | ok d' =>
    rw [hexport] at h
    cases h
    exact ⟨rfl, rfl⟩
  | error fault =>
    rw [hexport] at h
    cases h

/-! ## The regime -/

/-- Handles are good, and stay good because the heap only grows. -/
def Regime.handles : Regime where
  Sound := State.Sound
  Fits := Heap.Has
  Grows := Heap.Extends
  Admits := fun _ => True
  Issues := fun heap d => ∃ v, heap.Has v ∧ heap.exportDatum? v = .ok d

/-- Every operation keeps handles good. -/
theorem Regime.handles_kept (env : Env) : Regime.handles.Kept env where
  refl := .refl
  trans := .trans
  fits_of_grows := fun hgrows hv => Heap.Extends.has hgrows hv
  simple := Heap.has_of_isSimple
  typeName := fun _ _ => trivial
  push := fun hs => ⟨hs.heap, hs.frames.push⟩
  pop := fun hs => ⟨hs.heap, hs.frames.pop⟩
  sound := by
    intro α op s hready
    obtain ⟨change, hfrom, hdone⟩ := op.exists_change env s
    have hs : s.Sound := hready.sound
    -- what a change puts into memory was given to the operation
    have hvalues : ∀ v ∈ change.values, s.heap.Has v := by
      intro v hv
      rcases hfrom.values v hv with hoperand | hsimple
      · exact hready.operands v hoperand
      · exact Heap.has_of_isSimple hsimple
    have hextends := change.extends_onHeap hs.heap
    refine ⟨?_, ?_⟩
    · rw [hdone.heap]
      exact change.sound_onHeap hs.heap hvalues
    · rw [hdone.heap, hdone.frames]
      exact (change.hold_onFrames hs.frames hvalues).mono fun _ hv => hextends.has hv
  grows := by
    intro α op s hready
    obtain ⟨change, _, hdone⟩ := op.exists_change env s
    have hs : s.Sound := hready.sound
    change s.heap.Extends _
    rw [hdone.heap]
    exact change.extends_onHeap hs.heap
  values := fun {_ op _ _ _} hready ha => (op.has_values env hready.sound).ok ha
  answered := fun _ _ _ _ => trivial
  issued := by
    intro α op s t a hready hperform d hd
    cases op with
    | copyOut v span =>
      rcases List.mem_singleton.mp hd with rfl
      obtain ⟨hexport, rfl⟩ := Run.eq_ok_of_exportDatum hperform
      exact ⟨v, hready.operands v List.mem_cons_self, hexport⟩
    | _ => exact absurd hd List.not_mem_nil

end MeteredScript
