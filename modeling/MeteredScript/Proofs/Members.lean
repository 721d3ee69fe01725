import MeteredScript.Proofs.Cuts
import MeteredScript.Proofs.Joining

namespace MeteredScript

/-! # Reading and writing members

Many keys stand for one place: an element has an index, which numbers, truth values and texts can
stand for (`Value.IsIndex`), and a property has the text of its key. `Run.SetsMember` says what
writing a member can do, and `Run.answer_getMember_congr` what reading one depends on. Main statement:
a member that was written is read back by every key that stands for its place, every other member
reads as it did before, and a write that fails leaves all of them as they were. A key of an array that
is a cut text crashes instead of being out of range (`Run.cutsKey`).
-/

/-! ## Keys of arrays -/

/-- A key stands for an index of an array of `length` elements: by a number cut off toward zero that
is in range, where yes and no are one and zero, and a text that is not blank is the number it reads
as. -/
inductive Value.IsIndex (length : Nat) : Value → Nat → Prop
  | number {n : Decimal} {index : Nat} : n.trunc = index → index < length →
      IsIndex length (.number n) index
  | boolean {b : Bool} : b.toNat < length → IsIndex length (.boolean b) b.toNat
  | text {s : String} {n : Decimal} {index : Nat} : ¬ s.all Text.isBlank = true →
      Decimal.parse s = .ok (some n) → n.trunc = index → index < length →
      IsIndex length (.string s) index

namespace Run

section

variable {key : Value} {length index : Nat}

/-- The index of a key is the number it stands for, cut off. -/
theorem isIndex_iff : key.IsIndex length index ↔
    ∃ n, indexNumber key = .ok (some n) ∧ n.trunc = index ∧ index < length := by
  constructor
  · intro h
    cases h with
    | number htrunc hlt => exact ⟨_, rfl, htrunc, hlt⟩
    -- a truth value counts as zero or one
    | @boolean b hlt =>
      refine ⟨_, rfl, ?_, hlt⟩
      cases b <;> decide
    | text hblank hparse htrunc hlt =>
      refine ⟨_, ?_, htrunc, hlt⟩
      unfold indexNumber
      dsimp only
      rw [if_neg hblank, hparse]
  · rintro ⟨n, hn, htrunc, hlt⟩
    cases key with
    | number m =>
      cases hn
      exact .number htrunc hlt
    | boolean b =>
      have hindex : index = b.toNat := by
        cases hn
        cases b
        · exact Int.natCast_inj.mp (htrunc.symm.trans (by decide))
        · exact Int.natCast_inj.mp (htrunc.symm.trans (by decide))
      subst hindex
      exact .boolean hlt
    -- a blank text is no number at all, whatever reading it would give
    | string s =>
      unfold indexNumber at hn
      dsimp only at hn
      split at hn
      · cases hn
      · rename_i hblank
        exact .text hblank hn htrunc hlt
    | _ => cases hn

/-- A key stands for at most one element. -/
theorem isIndex_unique {index' : Nat} (h : key.IsIndex length index)
    (h' : key.IsIndex length index') : index = index' := by
  obtain ⟨n, hn, htrunc, _⟩ := isIndex_iff.mp h
  obtain ⟨n', hn', htrunc', _⟩ := isIndex_iff.mp h'
  cases hn.symm.trans hn'
  exact Int.natCast_inj.mp (htrunc.symm.trans htrunc')

theorem lt_of_isIndex (h : key.IsIndex length index) : index < length := by
  obtain ⟨_, _, _, hlt⟩ := isIndex_iff.mp h
  exact hlt

/-- A key of an array cannot be read just if it is a text that is cut. -/
theorem indexNumber_of_isCut (h : key.isCut = true) :
    indexNumber key = .error .insideCharacter := by
  cases key with
  | string text =>
    have hblank : ¬ text.all Text.isBlank = true := by
      intro hblank
      have hparse : Decimal.parse text = .ok (some .zero) := if_pos hblank
      cases hparse.symm.trans (Decimal.parse_of_isCut h)
    exact (if_neg hblank).trans (Decimal.parse_of_isCut h)
  | _ => cases h

/-- Only a cut text crashes when it is read as an index. -/
theorem exists_indexNumber (h : key.isCut = false) : ∃ read, indexNumber key = .ok read := by
  cases key with
  | string text =>
    unfold indexNumber
    dsimp only
    split
    · exact ⟨none, rfl⟩
    · exact Decimal.exists_parse_eq_ok h
  | _ => exact ⟨_, rfl⟩

/-- A cut text stands for no element. -/
theorem not_isIndex_of_isCut (h : key.isCut = true) : ¬ key.IsIndex length index := by
  intro hindex
  obtain ⟨n, hn, _⟩ := isIndex_iff.mp hindex
  cases (indexNumber_of_isCut h).symm.trans hn

/-- The text by which a key that is no index is reported. -/
def indexText (heap : Heap) (key : Value) : String :=
  match indexNumber key with
  | .ok (some n) => n.text
  | _ => heap.display key

/-- A key that stands for an element is read as its index. -/
theorem arrayIndex_of_isIndex (h : key.IsIndex length index) (span : Span) (s : State) :
    arrayIndex key length span s = .ok index s := by
  obtain ⟨n, hn, htrunc, hlt⟩ := isIndex_iff.mp h
  unfold arrayIndex
  rw [hn]
  refine (bind_of_ok rfl).trans ?_
  dsimp only
  rw [if_pos (by omega), htrunc]
  rfl

/-- A cut text crashes as an index. -/
theorem arrayIndex_of_isCut (h : key.isCut = true) (length : Nat) (span : Span) (s : State) :
    arrayIndex key length span s = .error (.crashed .insideCharacter) s := by
  unfold arrayIndex
  rw [indexNumber_of_isCut h]
  rfl

/-- Any other key is out of range, and the error says so with the text of the key. -/
theorem arrayIndex_of_not_isIndex (hcut : key.isCut = false)
    (h : ∀ index, ¬ key.IsIndex length index) (span : Span) (s : State) :
    arrayIndex key length span s =
      .error (.failed (.range (.index (indexText s.heap key) length) span)) s := by
  obtain ⟨read, hread⟩ := exists_indexNumber hcut
  unfold arrayIndex indexText
  rw [hread]
  cases read with
  | none => rfl
  | some n =>
    refine (bind_of_ok rfl).trans ?_
    dsimp only
    rw [if_neg]
    · rfl
    · rintro ⟨hnonneg, hlt⟩
      refine h n.trunc.toNat (isIndex_iff.mpr ⟨n, hread, ?_, ?_⟩) <;> omega

/-- The text `length` stands for no index. -/
theorem not_isIndex_of_isLength (h : isLength key = true) : ¬ key.IsIndex length index := by
  rw [of_decide_eq_true h]
  have hword : Decimal.parse "length" = .ok none := by
    rw [Decimal.parse_eq]
    decide +kernel
  rintro (_ | _ | ⟨_, hparse, _, _⟩)
  cases hword.symm.trans hparse

/-- A cut text is not the name of the length. -/
theorem not_isLength_of_isCut (h : key.isCut = true) : isLength key = false := by
  cases hlength : isLength key with
  | false => rfl
  | true =>
    rw [of_decide_eq_true hlength] at h
    exact absurd h (by decide +kernel)

end

end Run

/-! ## Texts of scalars, and properties -/

/-- The text of a scalar is the same on every heap. -/
theorem Heap.display_of_not_isContainer {v : Value} (h : v.isContainer = false) (heap heap' : Heap) :
    heap.display v = heap'.display v := by
  cases hv : v.datum? with
  | none =>
    rw [Value.isContainer_of_datum?_eq_none hv] at h
    cases h
  | some d => rw [(CutsTo.scalar hv).display_eq, (CutsTo.scalar hv).display_eq]

/-- What was put under a key is found there, and everything else as before. -/
theorem Entries.get?_put {α : Type} (entries : Entries α) (key key' : String) (value : α) :
    (entries.put key value).get? key' = if key = key' then some value else entries.get? key' := by
  induction entries with
  | nil => rfl
  | cons first rest ih =>
    obtain ⟨k, v⟩ := first
    unfold put
    by_cases hk : k = key
    · subst hk
      rw [if_pos rfl]
      unfold get?
      split
      · rfl
      · rfl
    · rw [if_neg hk]
      unfold get?
      by_cases hk' : k = key'
      · subst hk'
        rw [if_pos rfl, if_neg (Ne.symm hk), if_pos rfl]
      · rw [if_neg hk', if_neg hk', ih]

/-- A property that was set is found in its object, and all others as before. -/
theorem Heap.property?_setProperty {heap : Heap} {handle : Nat} (h : heap.Has (.object handle))
    (key : String) (value : Value) (handle' : Nat) (key' : String) :
    (heap.setProperty handle key value).property? handle' key' =
      if handle = handle' ∧ key = key' then some value else heap.property? handle' key' := by
  unfold property?
  rw [entries_setProperty]
  by_cases hhandle : handle = handle'
  · subst hhandle
    rw [if_pos ⟨rfl, h⟩, Entries.get?_put]
    simp only [true_and]
  · rw [if_neg (fun hboth => hhandle hboth.1), if_neg (fun hboth => hhandle hboth.1)]

namespace Run

variable {s t : State} {object key value : Value} {span : Span} {handle index : Nat}

/-! ## Reading -/

theorem arrayLength_apply (handle : Nat) (s : State) :
    arrayLength handle s = .ok (s.heap.elements handle).size s :=
  rfl

/-- The length of an array is one of its members. -/
theorem getMember_length (h : isLength key = true) :
    getMember (.array handle) key span s = .ok (.ofInt (s.heap.elements handle).size) s := by
  unfold getMember
  rw [h]
  rfl

/-- An index reads an element. -/
theorem getMember_element (h : key.IsIndex (s.heap.elements handle).size index) :
    getMember (.array handle) key span s =
      .ok ((s.heap.elements handle)[index]?.getD .undefined) s := by
  have hlength : isLength key = false := by
    cases hkey : isLength key with
    | true => exact absurd h (not_isIndex_of_isLength hkey)
    | false => rfl
  unfold getMember
  rw [hlength]
  exact (bind_of_ok (arrayLength_apply handle s)).trans (bind_of_ok (arrayIndex_of_isIndex h span s))

/-- A cut text crashes when an array is read with it. -/
theorem getMember_cut (h : key.isCut = true) :
    getMember (.array handle) key span s = .error (.crashed .insideCharacter) s := by
  unfold getMember
  rw [not_isLength_of_isCut h]
  exact (bind_of_ok (arrayLength_apply handle s)).trans (bind_of_error (arrayIndex_of_isCut h _ span s))

/-- Reading an array out of range fails. -/
theorem getMember_beyond (hlength : isLength key = false) (hcut : key.isCut = false)
    (h : ∀ index, ¬ key.IsIndex (s.heap.elements handle).size index) :
    getMember (.array handle) key span s = .error (.failed (.range
      (.index (indexText s.heap key) (s.heap.elements handle).size) span)) s := by
  unfold getMember
  rw [hlength]
  exact (bind_of_ok (arrayLength_apply handle s)).trans
    (bind_of_error (arrayIndex_of_not_isIndex hcut h span s))

/-- An object is read by the text of the key, and a property that is missing is undefined. -/
theorem getMember_property : getMember (.object handle) key span s =
    .ok ((s.heap.property? handle (s.heap.display key)).getD .undefined) s :=
  rfl

/-- What reading a member by a scalar key depends on: the length of the array and the element that the
key stands for, or the property under the key's text. -/
theorem answer_getMember_congr (hkey : key.isContainer = false)
    (harray : ∀ handle, object = .array handle →
      (t.heap.elements handle).size = (s.heap.elements handle).size ∧
        ∀ index, key.IsIndex (s.heap.elements handle).size index →
          (t.heap.elements handle)[index]? = (s.heap.elements handle)[index]?)
    (hobject : ∀ handle, object = .object handle →
      t.heap.property? handle (s.heap.display key) = s.heap.property? handle (s.heap.display key)) :
    answer (getMember object key span t) = answer (getMember object key span s) := by
  have hdisplay := Heap.display_of_not_isContainer hkey t.heap s.heap
  cases object with
  | array handle =>
    obtain ⟨hsize, hsame⟩ := harray handle rfl
    cases hlength : isLength key with
    | true =>
      rw [getMember_length hlength, getMember_length hlength, hsize]
      rfl
    | false =>
      -- the length is no index, so all that is left are elements and keys out of range
      by_cases hindex : ∃ index, key.IsIndex (s.heap.elements handle).size index
      · obtain ⟨index, hindex⟩ := hindex
        have hindex' : key.IsIndex (t.heap.elements handle).size index := hsize ▸ hindex
        rw [getMember_element hindex, getMember_element hindex', hsame index hindex]
        rfl
      · have hnone := not_exists.mp hindex
        have hnone' : ∀ index, ¬ key.IsIndex (t.heap.elements handle).size index := hsize ▸ hnone
        -- also the text of the error is the same, as the key is no container
        have htext : indexText t.heap key = indexText s.heap key := by
          unfold indexText
          rw [hdisplay]
        cases hcut : key.isCut with
        | true =>
          rw [getMember_cut hcut, getMember_cut hcut]
          rfl
        | false =>
          rw [getMember_beyond hlength hcut hnone, getMember_beyond hlength hcut hnone', hsize, htext]
          rfl
  | object handle =>
    rw [getMember_property, getMember_property, hdisplay, hobject handle rfl]
    rfl
  | _ => rfl

/-! ## Writing -/

/-- An index writes an element. -/
theorem setMember_element (h : key.IsIndex (s.heap.elements handle).size index) :
    setMember (.array handle) key value span s =
      .ok () { s with heap := s.heap.setElement handle index value } :=
  (bind_of_ok (arrayLength_apply handle s)).trans (bind_of_ok (arrayIndex_of_isIndex h span s))

/-- A property that is new is paid for before it is set. -/
theorem setMember_property : setMember (.object handle) key value span s =
    (chargeEntry (s.heap.property? handle (s.heap.display key)) >>= fun _ =>
      setProperty handle (s.heap.display key) value) s :=
  rfl

/-- What writing a member can do. -/
inductive SetsMember (s : State) (key value : Value) (span : Span) :
    Value → EStateM.Result Halt State Unit → Prop
  | element {handle index : Nat} : key.IsIndex (s.heap.elements handle).size index →
      SetsMember s key value span (.array handle)
        (.ok () { s with heap := s.heap.setElement handle index value })
  | cut {handle : Nat} : key.isCut = true →
      SetsMember s key value span (.array handle) (.error (.crashed .insideCharacter) s)
  | beyond {handle : Nat} : key.isCut = false →
      (∀ index, ¬ key.IsIndex (s.heap.elements handle).size index) →
      SetsMember s key value span (.array handle) (.error (.failed (.range
        (.index (indexText s.heap key) (s.heap.elements handle).size) span)) s)
  | property {handle : Nat} {meter : Meter} :
      SetsMember s key value span (.object handle) (.ok () { s with
        heap := s.heap.setProperty handle (s.heap.display key) value, meter })
  | exhausted {handle : Nat} {meter : Meter} :
      SetsMember s key value span (.object handle)
        (.error (.failed (.exhausted .budget)) { s with meter })
  | dropped {object : Value} : object.isContainer = false →
      SetsMember s key value span object (.ok () s)

/-- Every write does one of the things that `SetsMember` lists. -/
theorem setsMember_setMember (s : State) (object key value : Value) (span : Span) :
    SetsMember s key value span object (setMember object key value span s) := by
  cases object with
  | array handle =>
    by_cases hindex : ∃ index, key.IsIndex (s.heap.elements handle).size index
    · obtain ⟨index, hindex⟩ := hindex
      rw [setMember_element hindex]
      exact .element hindex
    · have hnone := not_exists.mp hindex
      cases hcut : key.isCut with
      | true =>
        have hset : setMember (.array handle) key value span s = _ :=
          (bind_of_ok (arrayLength_apply handle s)).trans
            (bind_of_error (arrayIndex_of_isCut hcut _ span s))
        rw [hset]
        exact .cut hcut
      | false =>
        have hset : setMember (.array handle) key value span s = _ :=
          (bind_of_ok (arrayLength_apply handle s)).trans
            (bind_of_error (arrayIndex_of_not_isIndex hcut hnone span s))
        rw [hset]
        exact .beyond hcut hnone
  | object handle =>
    rw [setMember_property]
    cases s.heap.property? handle (s.heap.display key) with
    | some old => exact .property
    | none =>
      -- only a property that is new costs a unit, which may not be there
      by_cases hle : saturate (s.meter.used + 1) ≤ s.meter.limit
      · have hpaid : chargeEntry none s = .ok () { s with meter := s.meter.charge 1 } := charge_of_le hle
        rw [bind_of_ok hpaid]
        exact .property
      · have hfailed : chargeEntry none s = .error (.failed (.exhausted .budget))
            { s with meter := s.meter.charge 1 } := charge_of_lt (Nat.lt_of_not_le hle)
        rw [bind_of_error hfailed]
        exact .exhausted
  | _ => exact .dropped rfl

/-! ## Reading what was written -/

/-- Two keys stand for the same place of the same array or object. -/
inductive SameSlot (heap : Heap) : Value → Value → Value → Value → Prop
  | element {handle index : Nat} {key key' : Value} : key.IsIndex (heap.elements handle).size index →
      key'.IsIndex (heap.elements handle).size index →
      SameSlot heap (.array handle) key (.array handle) key'
  | property {handle : Nat} {key key' : Value} : heap.display key = heap.display key' →
      SameSlot heap (.object handle) key (.object handle) key'

section

variable {object' key' : Value} {span' : Span}

/-- Any key for the same place reads back what was written. -/
theorem SetsMember.answer_same (h : SetsMember s key value span object (.ok () t))
    (hthere : s.heap.Has object) (hkey' : key'.isContainer = false)
    (hslot : SameSlot s.heap object key object' key') :
    answer (getMember object' key' span' t) = .ok value := by
  cases hslot with
  | @element handle index _ _ hindex hindex' =>
    cases h with
    | @element _ at' hat =>
      cases isIndex_unique hindex hat
      have helements : (s.heap.setElement handle index value).elements handle = _ :=
        (Heap.elements_setElement ..).trans (if_pos rfl)
      -- the array has kept its length, so the other key still stands for the element
      have hread : key'.IsIndex ((s.heap.setElement handle index value).elements handle).size index := by
        rw [helements, Array.size_setIfInBounds]
        exact hindex'
      have hvalue : getMember (.array handle) key' span'
          { s with heap := s.heap.setElement handle index value } = _ := getMember_element hread
      rw [hvalue]
      dsimp only
      rw [helements, Array.getElem?_setIfInBounds_self_of_lt (lt_of_isIndex hindex)]
      rfl
    | dropped hobject => cases hobject
  | @property handle _ _ htext =>
    cases h with
    | property =>
      have hdisplay : (s.heap.setProperty handle (s.heap.display key) value).display key' =
          s.heap.display key :=
        (Heap.display_of_not_isContainer hkey' _ s.heap).trans htext.symm
      rw [getMember_property]
      dsimp only
      rw [hdisplay, Heap.property?_setProperty hthere, if_pos ⟨rfl, rfl⟩]
      rfl
    | dropped hobject => cases hobject

/-- A key for another place reads what it read before. -/
theorem SetsMember.answer_other (h : SetsMember s key value span object (.ok () t))
    (hthere : s.heap.Has object) (hkey' : key'.isContainer = false)
    (hslot : ¬ SameSlot s.heap object key object' key') :
    answer (getMember object' key' span' t) = answer (getMember object' key' span' s) := by
  cases h with
  | @element handle index hindex =>
    refine answer_getMember_congr hkey' (fun handle' hobject' => ?_) fun _ _ => rfl
    subst hobject'
    dsimp only
    rw [Heap.elements_setElement]
    by_cases hhandle : handle = handle'
    · subst hhandle
      rw [if_pos rfl]
      refine ⟨Array.size_setIfInBounds, fun index' hindex' => ?_⟩
      refine Array.getElem?_setIfInBounds_ne ?_
      -- the same index would be the same place
      rintro rfl
      exact hslot (.element hindex hindex')
    · rw [if_neg hhandle]
      exact ⟨rfl, fun _ _ => rfl⟩
  | @property handle meter =>
    refine answer_getMember_congr hkey' (fun _ _ => ⟨rfl, fun _ _ => rfl⟩) fun handle' hobject' => ?_
    subst hobject'
    dsimp only
    rw [Heap.property?_setProperty hthere, if_neg]
    rintro ⟨rfl, htext⟩
    exact hslot (.property htext)
  | dropped => rfl

end

/-- Whether a key is read as the index of an array, and is cut. -/
def cutsKey (object key : Value) : Bool :=
  match object with
  | .array _ => key.isCut
  | _ => false

/-- Reading a member crashes just if its key is cut. -/
theorem crashesIff_getMember (object key : Value) (span : Span) (s : State) :
    CrashesIff (getMember object key span) s (cutsKey object key = true) := by
  cases object with
  | array handle =>
    cases hcut : key.isCut with
    | true => exact .of_crashed (getMember_cut hcut) hcut
    | false =>
      have hnot : ¬cutsKey (.array handle) key = true := ne_true_of_eq_false hcut
      cases hlength : isLength key with
      | true => exact .of_ok (getMember_length hlength) hnot
      | false =>
        by_cases hindex : ∃ index, key.IsIndex (s.heap.elements handle).size index
        · obtain ⟨index, hindex⟩ := hindex
          exact .of_ok (getMember_element hindex) hnot
        · exact .of_failed (getMember_beyond hlength hcut (not_exists.mp hindex)) hnot
  | _ => exact .of_ok rfl Bool.false_ne_true

/-- Writing a member crashes just if its key is cut. -/
theorem crashesIff_setMember (object key value : Value) (span : Span) (s : State) :
    CrashesIff (setMember object key value span) s (cutsKey object key = true) := by
  have hsets := setsMember_setMember s object key value span
  generalize hset : setMember object key value span s = ending at hsets
  cases hsets with
  | element hindex =>
    exact .of_ok hset fun hcut => not_isIndex_of_isCut hcut hindex
  | cut hcut => exact .of_crashed hset hcut
  | beyond hcut _ => exact .of_failed hset (ne_true_of_eq_false hcut)
  | property => exact .of_ok hset Bool.false_ne_true
  | exhausted => exact .of_failed hset Bool.false_ne_true
  | dropped hobject =>
    refine .of_ok hset ?_
    cases object with
    | array handle => cases hobject
    | _ => exact Bool.false_ne_true

/-- Reads see exactly the writes. Writing a member either fails and leaves frames and heap as they
were; or it succeeds, and then a scalar key reads the new value if it stands for the place that was
written, and reads what it read before, or fails as before, if it does not. Writing to an array
succeeds just if the key stands for an index, and writing to a scalar does nothing. What fails is
out of range or out of budget, unless the key of an array is a cut text: then reading and writing
crash. -/
theorem getMember_of_setMember (s : State) (object key value : Value) (span : Span)
    (hthere : s.heap.Has object) :
    (∀ halt t, setMember object key value span s = .error halt t →
      t.heap = s.heap ∧ t.frames = s.frames ∧
        ((∃ text length, halt = .failed (.range (.index text length) span)) ∨
          halt = .failed (.exhausted .budget) ↔ cutsKey object key = false) ∧
        (halt = .crashed .insideCharacter ↔ cutsKey object key = true)) ∧
    (∀ t, setMember object key value span s = .ok () t →
      ∀ object' key' span', key'.isContainer = false →
        (SameSlot s.heap object key object' key' →
          answer (getMember object' key' span' t) = .ok value) ∧
        (¬ SameSlot s.heap object key object' key' →
          answer (getMember object' key' span' t) = answer (getMember object' key' span' s)) ∧
        (answer (getMember object' key' span' t) = .error (.crashed .insideCharacter) ↔
          cutsKey object' key' = true)) ∧
    (∀ handle, object = .array handle →
      ((∃ t, setMember object key value span s = .ok () t) ↔
        ∃ index, key.IsIndex (s.heap.elements handle).size index)) ∧
    (object.isContainer = false → setMember object key value span s = .ok () s) := by
  have hsets := setsMember_setMember s object key value span
  refine ⟨fun halt t ht => ?_, fun t ht object' key' span' hkey' => ?_, fun handle hobject => ?_,
    fun hobject => ?_⟩
  · rw [ht] at hsets
    -- a write that fails has changed nothing but the meter
    cases hsets with
    | cut hcut =>
      refine ⟨rfl, rfl, iff_of_false ?_ (ne_false_of_eq_true hcut), iff_of_true rfl hcut⟩
      rintro (⟨_, _, h⟩ | h) <;> cases h
    | beyond hcut =>
      refine ⟨rfl, rfl, iff_of_true (.inl ⟨_, _, rfl⟩) hcut, iff_of_false ?_ (ne_true_of_eq_false hcut)⟩
      rintro ⟨⟩
    | exhausted =>
      refine ⟨rfl, rfl, iff_of_true (.inr rfl) rfl, iff_of_false ?_ Bool.false_ne_true⟩
      rintro ⟨⟩
  · rw [ht] at hsets
    exact ⟨hsets.answer_same hthere hkey', hsets.answer_other hthere hkey',
      (crashesIff_getMember object' key' span' t).answer_eq_iff⟩
  · subst hobject
    constructor
    · rintro ⟨t, ht⟩
      rw [ht] at hsets
      cases hsets with
      | element hindex => exact ⟨_, hindex⟩
      | dropped hobject => cases hobject
    · rintro ⟨index, hindex⟩
      cases hset : setMember (.array handle) key value span s with
      | ok a t => exact ⟨t, rfl⟩
      -- it did not fail, as the key is no cut text and in range
      | error halt t =>
        rw [hset] at hsets
        cases hsets with
        | cut hcut => exact absurd hindex (not_isIndex_of_isCut hcut)
        | beyond _ hnone => exact absurd hindex (hnone index)
  · cases object with
    | array handle | object handle => cases hobject
    | _ => rfl

/-- An array of two elements, of which the second is known by `0x1` and by `1.5`, and the first by
`false`. -/
theorem getMember_of_setMember_spellings :
    let s : State := { heap := ⟨#[#[.null, .null]], #[]⟩, meter := { limit := 0 } }
    s.heap.Has (.array 0) ∧
      ∃ t, setMember (.array 0) (.string "0x1") (.boolean true) {} s = .ok () t ∧
        answer (getMember (.array 0) (.number ⟨1500000000000000000⟩) {} t) = .ok (.boolean true) ∧
        answer (getMember (.array 0) (.boolean false) {} t) = .ok .null := by
  intro s
  have hthere : s.heap.Has (.array 0) := Nat.one_pos
  -- The text is read as a number, which is then cut to an index.
  have hparse : Decimal.parse "0x1" = .ok (some .one) := by
    rw [Decimal.parse_eq]
    decide +kernel
  have hblank : ¬ "0x1".all Text.isBlank = true := by
    rw [String.all_bool_eq]
    decide +kernel
  have htext : (Value.string "0x1").IsIndex 2 1 := .text hblank hparse (by decide) (by decide)
  have hfraction : (Value.number ⟨1500000000000000000⟩).IsIndex 2 1 := .number (by decide) (by decide)
  obtain ⟨_, hread, harray, _⟩ :=
    getMember_of_setMember s (.array 0) (.string "0x1") (.boolean true) {} hthere
  obtain ⟨t, ht⟩ := (harray 0 rfl).mpr ⟨1, htext⟩
  refine ⟨hthere, t, ht, (hread t ht _ _ {} rfl).1 (.element htext hfraction), ?_⟩
  refine (hread t ht _ _ {} rfl).2.1 ?_
  rintro (⟨hindex, hindex'⟩ | _)
  cases isIndex_unique hindex htext
  cases isIndex_unique hindex' (.boolean (by decide))

/-- A zero in front of a character beyond ASCII is no number, and yet not reported as out of range. -/
theorem setMember_of_cut_key :
    let s : State := { heap := ⟨#[#[.null]], #[]⟩, meter := { limit := 0 } }
    setMember (.array 0) (.string "0é") .null {} s = .error (.crashed .insideCharacter) s ∧
      getMember (.array 0) (.string "0é") {} s = .error (.crashed .insideCharacter) s := by
  intro s
  have hcut : (Value.string "0é").isCut = true := by decide +kernel
  refine ⟨?_, getMember_cut hcut⟩
  exact (bind_of_ok (arrayLength_apply 0 s)).trans (bind_of_error (arrayIndex_of_isCut hcut _ {} s))

end Run

end MeteredScript
