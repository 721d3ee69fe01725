import MeteredScript.Eval.Operators
import MeteredScript.Proofs.Cuts
import MeteredScript.Proofs.Joining

namespace MeteredScript

/-! # Equality with conversions

`==` converts before it compares: arrays and objects to their texts, and scalars of different kinds to
numbers. `Value.Compares` says so rule by rule, where a conversion leads on to the comparison of other
values and the text of an array is that of its cut unfolding. Main statement: a comparison comes to one
answer, after two conversions at most, whichever way round the values are; and the answer is yes where
`===` says yes. Where a text is cut as it is converted, the answer is a crash, both ways round.
-/

namespace Value

def isAbsent : Value → Bool
  | null | undefined => true
  | _ => false

/-- Whether a value is a number other than NaN, a string or a truth value. -/
def isPlain : Value → Bool
  | number _ | string _ | boolean _ => true
  | _ => false

/-- A value is absent, NaN, a container or plain. -/
theorem cases_kind (v : Value) :
    v.isAbsent = true ∨ v = nan ∨ v.isContainer = true ∨ v.isPlain = true := by
  cases v with
  | null | undefined => exact .inl rfl
  | nan => exact .inr (.inl rfl)
  | array handle | object handle => exact .inr (.inr (.inl rfl))
  | number value | string value | boolean value => exact .inr (.inr (.inr rfl))

theorem isContainer_of_isPlain {v : Value} (h : v.isPlain = true) : v.isContainer = false := by
  cases v with
  | array handle | object handle => cases h
  | _ => rfl

/-! ## Without conversions -/

/-- Only NaN does not equal itself, and nothing equals anything else. -/
theorem strictEquals_eq_true {left right : Value} :
    strictEquals left right = true ↔ left = right ∧ left ≠ nan := by
  cases left with
  | _ =>
    cases right with
    | _ => simp [strictEquals]

theorem strictEquals_comm (left right : Value) : strictEquals left right = strictEquals right left := by
  rw [Bool.eq_iff_iff, strictEquals_eq_true, strictEquals_eq_true]
  constructor
  · rintro ⟨rfl, hne⟩
    exact ⟨rfl, hne⟩
  · rintro ⟨rfl, hne⟩
    exact ⟨rfl, hne⟩

theorem numberEquals_of_isCut {left right : Value} (h : left.isCut = true ∨ right.isCut = true) :
    numberEquals left right = .error .insideCharacter := by
  rw [numberEquals, toNumbers_of_isCut h]
  rfl

theorem numberEquals_comm (left right : Value) : numberEquals left right = numberEquals right left := by
  by_cases hcut : left.isCut = true ∨ right.isCut = true
  · rw [numberEquals_of_isCut hcut, numberEquals_of_isCut hcut.symm]
  · obtain ⟨hleft, hright⟩ := not_or.mp hcut
    rw [Bool.not_eq_true] at hleft hright
    unfold numberEquals
    rw [toNumbers_of_not_isCut hleft hright, toNumbers_of_not_isCut hright hleft]
    unfold toNumbers?
    cases left.toNumber? with
    | none => cases right.toNumber? <;> rfl
    | some a =>
      cases right.toNumber? with
      | none => rfl
      | some b => exact congrArg Except.ok (decide_eq_decide.mpr eq_comm)

/-! ## With conversions, rule by rule -/

/-- A comparison with conversions comes to an answer, with so many other comparisons in between. The
rules exclude each other. -/
inductive Compares (heap : Heap) : Nat → Value → Value → Except Crash Bool → Prop
  /-- Null and undefined equal each other and nothing else. -/
  | absent {left right : Value} : (left.isAbsent || right.isAbsent) = true →
      Compares heap 0 left right (.ok (left.isAbsent && right.isAbsent))
  | nan {left right : Value} : (left.isAbsent || right.isAbsent) = false → left = nan ∨ right = nan →
      Compares heap 0 left right (.ok false)
  | containers {left right : Value} : left.isContainer = true → right.isContainer = true →
      Compares heap 0 left right (.ok (strictEquals left right))
  /-- An array or object compares with a scalar by its text. -/
  | text {left right : Value} {d : Datum} {count : Nat} {answer : Except Crash Bool} :
      left.isContainer = true →
      right.isPlain = true → heap.CutsTo [] left d →
      Compares heap count (string d.joined) right answer → Compares heap (count + 1) left right answer
  | exchange {left right : Value} {count : Nat} {answer : Except Crash Bool} : left.isPlain = true →
      right.isContainer = true → Compares heap count right left answer →
      Compares heap (count + 1) left right answer
  | sameKind {left right : Value} : left.isPlain = true → right.isPlain = true →
      left.kind = right.kind → Compares heap 0 left right (.ok (strictEquals left right))
  | numbers {left right : Value} : left.isPlain = true → right.isPlain = true →
      left.kind ≠ right.kind → Compares heap 0 left right (numberEquals left right)

section

variable {heap : Heap} {left right : Value}

theorem looseEquals_of_isAbsent (h : (left.isAbsent || right.isAbsent) = true) :
    looseEquals heap left right = .ok (left.isAbsent && right.isAbsent) := by
  cases left with
  | null | undefined =>
    cases right with
    | _ => rfl
  | _ =>
    cases right with
    | null | undefined => rfl
    | _ => cases h

theorem looseEquals_of_nan (h : (left.isAbsent || right.isAbsent) = false)
    (hnan : left = nan ∨ right = nan) : looseEquals heap left right = .ok false := by
  rcases hnan with rfl | rfl
  · cases right with
    | null | undefined => cases h
    | _ => rfl
  · cases left with
    | null | undefined => cases h
    | _ => rfl

theorem looseEquals_of_isContainer (hleft : left.isContainer = true)
    (hright : right.isContainer = true) :
    looseEquals heap left right = .ok (strictEquals left right) := by
  unfold looseEquals
  rw [hleft, hright]

/-- Behind the text of an array or object there is nothing left to convert. -/
theorem looseEquals_text (hleft : left.isContainer = true) (hright : right.isPlain = true) :
    looseEquals heap left right = looseEquals heap (string (heap.display left)) right := by
  unfold looseEquals
  rw [hleft, isContainer_of_isPlain hright]
  rfl

theorem looseEquals_exchange (hleft : left.isPlain = true) (hright : right.isContainer = true) :
    looseEquals heap left right = looseEquals heap right left := by
  unfold looseEquals
  rw [hright, isContainer_of_isPlain hleft]

theorem looseEquals_of_isPlain (hleft : left.isPlain = true) (hright : right.isPlain = true) :
    looseEquals heap left right =
      if left.kind = right.kind then .ok (strictEquals left right) else numberEquals left right := by
  unfold looseEquals
  rw [isContainer_of_isPlain hleft, isContainer_of_isPlain hright]
  cases left with
  | number a | string a | boolean a =>
    cases right with
    | number b | string b | boolean b => rfl
    | _ => cases hright
  | _ => cases hleft

/-- The rules come to the answer of the comparison. -/
theorem Compares.eq_looseEquals {count : Nat} {answer : Except Crash Bool}
    (h : Compares heap count left right answer) :
    answer = looseEquals heap left right := by
  induction h with
  | absent habsent => exact (looseEquals_of_isAbsent habsent).symm
  | nan habsent hnan => exact (looseEquals_of_nan habsent hnan).symm
  | containers hleft hright => exact (looseEquals_of_isContainer hleft hright).symm
  | text hleft hright hcuts _ ih =>
    rw [looseEquals_text hleft hright, hcuts.display_eq]
    exact ih
  | exchange hleft hright _ ih =>
    rw [looseEquals_exchange hleft hright]
    exact ih
  | sameKind hleft hright hkind =>
    rw [looseEquals_of_isPlain hleft hright, if_pos hkind]
  | numbers hleft hright hkind =>
    rw [looseEquals_of_isPlain hleft hright, if_neg hkind]

/-- Scalars compare without another comparison. -/
theorem exists_compares_of_isPlain (heap : Heap) (hleft : left.isPlain = true)
    (hright : right.isPlain = true) : ∃ answer, Compares heap 0 left right answer := by
  by_cases hkind : left.kind = right.kind
  · exact ⟨_, .sameKind hleft hright hkind⟩
  · exact ⟨_, .numbers hleft hright hkind⟩

/-- An array or object compares with a scalar by its text, which it has even if it contains itself. -/
theorem exists_compares_of_isContainer (heap : Heap) (hleft : left.isContainer = true)
    (hright : right.isPlain = true) : ∃ answer, Compares heap 1 left right answer := by
  obtain ⟨d, hcuts⟩ := heap.exists_cutsTo [] left
  have htext : (string d.joined).isPlain = true := rfl
  obtain ⟨answer, hanswer⟩ := exists_compares_of_isPlain heap htext hright
  exact ⟨answer, .text hleft hright hcuts hanswer⟩

/-- Every comparison ends. -/
theorem exists_compares (heap : Heap) (left right : Value) :
    ∃ count answer, count ≤ 2 ∧ Compares heap count left right answer := by
  by_cases habsent : (left.isAbsent || right.isAbsent) = true
  · exact ⟨0, _, Nat.zero_le 2, .absent habsent⟩
  · rw [Bool.not_eq_true] at habsent
    obtain ⟨hleft, hright⟩ := Bool.or_eq_false_iff.mp habsent
    rcases left.cases_kind with h | hnan | hleft | hleft
    · exact absurd (hleft.symm.trans h) Bool.false_ne_true
    · exact ⟨0, .ok false, Nat.zero_le 2, .nan habsent (.inl hnan)⟩
    -- A container on the left compares with a plain right side by its text, one comparison further on.
    · rcases right.cases_kind with h | hnan | hright | hright
      · exact absurd (hright.symm.trans h) Bool.false_ne_true
      · exact ⟨0, .ok false, Nat.zero_le 2, .nan habsent (.inr hnan)⟩
      · exact ⟨0, _, Nat.zero_le 2, .containers hleft hright⟩
      · obtain ⟨answer, hanswer⟩ := exists_compares_of_isContainer heap hleft hright
        exact ⟨1, answer, Nat.le_succ 1, hanswer⟩
    -- A container on the right only: the sides change places first.
    · rcases right.cases_kind with h | hnan | hright | hright
      · exact absurd (hright.symm.trans h) Bool.false_ne_true
      · exact ⟨0, .ok false, Nat.zero_le 2, .nan habsent (.inr hnan)⟩
      · obtain ⟨answer, hanswer⟩ := exists_compares_of_isContainer heap hright hleft
        exact ⟨2, answer, Nat.le_refl 2, .exchange hleft hright hanswer⟩
      · obtain ⟨answer, hanswer⟩ := exists_compares_of_isPlain heap hleft hright
        exact ⟨0, answer, Nat.zero_le 2, hanswer⟩

/-- The other way round there is the same answer, with one exchange more or less. -/
theorem Compares.exists_flip {count : Nat} {answer : Except Crash Bool}
    (h : Compares heap count left right answer) :
    ∃ count', Compares heap count' right left answer := by
  cases h with
  | absent habsent =>
    rw [Bool.and_comm]
    exact ⟨0, .absent (by rwa [Bool.or_comm])⟩
  | nan habsent hnan => exact ⟨0, .nan (by rwa [Bool.or_comm]) hnan.symm⟩
  | containers hleft hright =>
    rw [strictEquals_comm]
    exact ⟨0, .containers hright hleft⟩
  | text hleft hright hcuts htext => exact ⟨_, .exchange hright hleft (.text hleft hright hcuts htext)⟩
  | exchange _ _ hflipped => exact ⟨_, hflipped⟩
  | sameKind hleft hright hkind =>
    rw [strictEquals_comm]
    exact ⟨0, .sameKind hright hleft hkind.symm⟩
  | numbers hleft hright hkind =>
    rw [numberEquals_comm]
    exact ⟨0, .numbers hright hleft hkind.symm⟩

/-- `==` gives the same answer both ways round. -/
theorem looseEquals_comm (heap : Heap) (left right : Value) :
    looseEquals heap left right = looseEquals heap right left := by
  obtain ⟨count, answer, _, hanswer⟩ := exists_compares heap left right
  obtain ⟨count', hflipped⟩ := hanswer.exists_flip
  rw [← hanswer.eq_looseEquals, ← hflipped.eq_looseEquals]

/-- Every value but NaN equals itself. -/
theorem looseEquals_self {v : Value} : looseEquals heap v v = .ok true ↔ v ≠ nan := by
  rcases v.cases_kind with habsent | rfl | hcontainer | hplain
  · rw [looseEquals_of_isAbsent (Bool.or_eq_true_iff.mpr (.inl habsent)), Bool.and_self,
      Except.ok.injEq]
    refine iff_of_true habsent ?_
    rintro rfl
    cases habsent
  · exact iff_of_false (fun h => by cases h) (fun h => h rfl)
  · rw [looseEquals_of_isContainer hcontainer hcontainer, Except.ok.injEq, strictEquals_eq_true]
    exact and_iff_right rfl
  · rw [looseEquals_of_isPlain hplain hplain, if_pos rfl, Except.ok.injEq, strictEquals_eq_true]
    exact and_iff_right rfl

end

/-- `==` is a symmetric extension of `===`. It gives the same answer both ways round, and yes where
`===` does; every value but NaN equals itself; and two arrays or objects are equal if they are the
same one only. The rules come to this answer and to no other, with two other comparisons in between at
most, also for arrays that contain themselves. -/
theorem looseEquals_extends_strictEquals (heap : Heap) (left right : Value) :
    satisfies heap .eq left right = satisfies heap .eq right left ∧
    (satisfies heap .strictEq left right = .ok true → satisfies heap .eq left right = .ok true) ∧
    (satisfies heap .eq left left = .ok true ↔ left ≠ nan) ∧
    (left.isContainer = true → right.isContainer = true →
      satisfies heap .eq left right = .ok (decide (left = right))) ∧
    (∃ count ≤ 2, Compares heap count left right (satisfies heap .eq left right)) ∧
    ∀ count answer, Compares heap count left right answer →
      answer = satisfies heap .eq left right := by
  refine ⟨looseEquals_comm heap left right, ?_, looseEquals_self, ?_, ?_, ?_⟩
  · intro hstrict
    -- Strictly equal values are the same value, and it is not NaN.
    obtain ⟨rfl, hnan⟩ := strictEquals_eq_true.mp (Except.ok.inj hstrict)
    exact looseEquals_self.mpr hnan
  · intro hleft hright
    refine (looseEquals_of_isContainer hleft hright).trans (congrArg Except.ok ?_)
    rw [Bool.eq_iff_iff, strictEquals_eq_true, decide_eq_true_eq]
    -- NaN is no container, so the exception does not arise.
    refine and_iff_left_of_imp ?_
    rintro rfl rfl
    cases hleft
  · obtain ⟨count, answer, hcount, hanswer⟩ := exists_compares heap left right
    have hsame : answer = satisfies heap .eq left right := hanswer.eq_looseEquals
    exact ⟨count, hcount, hsame ▸ hanswer⟩
  · intro count answer hanswer
    exact hanswer.eq_looseEquals

/-- An array that holds itself and `true`. -/
example : satisfies ⟨#[#[array 0, boolean true]], #[]⟩ .eq (string ",true") (array 0) = .ok true := by
  decide +kernel

end Value

end MeteredScript
