import MeteredScript.Value

namespace MeteredScript

/-! # Texts that are cut

To read a text as a number, what is behind its first two bytes is taken if it starts with a `0`. Two
bytes need not end with a character. Main statement: reading crashes exactly on the texts that start,
trimmed, with a `0` and a character beyond ASCII (`Decimal.parse_eq_error_iff`), so that it is known of
a value whether it can be used as a number (`Value.toNumber_eq`).
-/

open Text

namespace Decimal

/-- A zero in front of a character beyond ASCII. -/
def isCut : List Char → Bool
  | '0' :: c :: _ => 0x80 ≤ c.toNat
  | _ => false

/-- Characters of one byte are those of ASCII. -/
theorem utf8Size_eq_one_iff_lt {c : Char} : c.utf8Size = 1 ↔ c.toNat < 0x80 := by
  rw [Char.utf8Size_eq_one_iff, UInt32.le_iff_toNat_le]
  exact Nat.lt_succ_iff.symm

/-- Two bytes end inside the character behind a zero, unless it is one of ASCII. -/
theorem dropBytes_two (c : Char) (cs : List Char) :
    dropBytes 2 ('0' :: c :: cs) =
      if 0x80 ≤ c.toNat then .error .insideCharacter else .ok cs := by
  have hdrop : dropBytes 2 ('0' :: c :: cs) =
      if c.utf8Size ≤ 1 then dropBytes (1 - c.utf8Size) cs else .error .insideCharacter := rfl
  have hpos := c.utf8Size_pos
  rw [hdrop]
  by_cases hc : c.toNat < 0x80
  · have hone := utf8Size_eq_one_iff_lt.mpr hc
    rw [if_pos (Nat.le_of_eq hone), if_neg (Nat.not_le.mpr hc), hone, Nat.sub_self, dropBytes]
  · have hne := mt utf8Size_eq_one_iff_lt.mp hc
    rw [if_neg (by omega), if_pos (Nat.not_lt.mp hc)]

variable {cs : List Char} {text : String}

theorem readTrimmed_of_isCut (h : isCut cs = true) : readTrimmed cs = .error .insideCharacter := by
  unfold isCut at h
  split at h
  · rename_i c rest
    rw [readTrimmed, dropBytes_two, if_pos (of_decide_eq_true h)]
    rfl
  · simp at h

/-- Apart from cut texts, reading says what a text stands for, or that it is no number. -/
theorem exists_readTrimmed_eq_ok (h : isCut cs = false) : ∃ read, readTrimmed cs = .ok read := by
  unfold readTrimmed
  split
  · rename_i letter rest
    rw [dropBytes_two, if_neg (of_decide_eq_false h)]
    dsimp only [bind, Except.bind]
    split
    all_goals exact ⟨_, rfl⟩
  · exact ⟨_, rfl⟩

/-- What is not blank is read without the blanks around it. -/
theorem ofChars_of_trim (h : trim cs ≠ []) : ofChars cs = readTrimmed (trim cs) := by
  unfold ofChars
  split
  · exact absurd ‹_› h
  · rfl

/-- A text that is cut once trimmed crashes. -/
theorem parse_of_isCut (h : isCut (trim text.toList) = true) :
    parse text = .error .insideCharacter := by
  have hne : trim text.toList ≠ [] := by
    intro hnil
    rw [hnil] at h
    cases h
  rw [parse_eq, ofChars_of_trim hne, readTrimmed_of_isCut h]

/-- Any other text is read, as a number or as none. -/
theorem exists_parse_eq_ok (h : isCut (trim text.toList) = false) :
    ∃ read, parse text = .ok read := by
  rw [parse_eq]
  by_cases hne : trim text.toList = []
  · exact ⟨some zero, by rw [ofChars, hne]⟩
  · rw [ofChars_of_trim hne]
    exact exists_readTrimmed_eq_ok h

/-- Reading a text as a number crashes exactly if the text is cut. -/
theorem parse_eq_error_iff {c : Crash} :
    parse text = .error c ↔ isCut (trim text.toList) = true ∧ c = .insideCharacter := by
  cases h : isCut (trim text.toList) with
  | true =>
    rw [parse_of_isCut h, Except.error.injEq, eq_comm]
    exact (and_iff_right rfl).symm
  | false =>
    obtain ⟨read, hnumber⟩ := exists_parse_eq_ok h
    rw [hnumber]
    exact iff_of_false (fun h => by cases h) fun h => Bool.false_ne_true h.1

end Decimal

namespace Value

/-- Whether a value is a text that is cut when it is read as a number. -/
def isCut : Value → Bool
  | string text => Decimal.isCut (trim text.toList)
  | _ => false

/-- The number a value stands for, if it is one and can be read. -/
def toNumber? (v : Value) : Option Decimal := v.toNumber.toOption.join

/-- A value can be used as a number unless it is cut. -/
theorem toNumber_eq (v : Value) :
    v.toNumber = if v.isCut then .error .insideCharacter else .ok v.toNumber? := by
  cases v with
  | string text =>
    cases h : (string text).isCut with
    | true => exact Decimal.parse_of_isCut h
    | false =>
      obtain ⟨read, hnumber⟩ := @Decimal.exists_parse_eq_ok text h
      have hread : (string text).toNumber = .ok read := hnumber
      rw [toNumber?, hread]
      rfl
  | _ => rfl

theorem toNumber_of_isCut {v : Value} (h : v.isCut = true) :
    v.toNumber = .error .insideCharacter := by
  rw [toNumber_eq, if_pos h]

theorem toNumber_of_not_isCut {v : Value} (h : v.isCut = false) : v.toNumber = .ok v.toNumber? := by
  rw [toNumber_eq, h, if_neg Bool.false_ne_true]

/-- Two numbers, if both values stand for one. -/
def toNumbers? (left right : Value) : Option (Decimal × Decimal) :=
  match left.toNumber?, right.toNumber? with
  | some a, some b => some (a, b)
  | _, _ => none

/-- Two values crash if one of them does. -/
theorem toNumbers_of_isCut {left right : Value} (h : left.isCut = true ∨ right.isCut = true) :
    left.toNumbers right = .error .insideCharacter := by
  unfold toNumbers
  cases hleft : left.isCut with
  | true => rw [toNumber_of_isCut hleft]; rfl
  | false =>
    have hright : right.isCut = true := h.resolve_left (by rw [hleft]; exact Bool.false_ne_true)
    rw [toNumber_of_not_isCut hleft, toNumber_of_isCut hright]
    rfl

theorem toNumbers_of_not_isCut {left right : Value} (hleft : left.isCut = false)
    (hright : right.isCut = false) : left.toNumbers right = .ok (left.toNumbers? right) := by
  unfold toNumbers toNumbers?
  rw [toNumber_of_not_isCut hleft, toNumber_of_not_isCut hright]
  dsimp only [bind, Except.bind]
  cases left.toNumber? with
  | none => rfl
  | some a =>
    cases right.toNumber? with
    | none => rfl
    | some b => rfl

end Value

/-! ## Readings that crash -/

/-- A reading crashes just under a condition. -/
structure CutIff {α : Type} (read : Except Crash α) (P : Prop) : Prop where
  cut : P → read = .error .insideCharacter
  ok : ¬P → ∃ a, read = .ok a

namespace CutIff

variable {α β : Type} {read : Except Crash α} {f : α → Except Crash β} {P : Prop}

theorem of_ok {a : α} (h : read = .ok a) (hP : ¬P) : CutIff read P :=
  ⟨fun hcut => absurd hcut hP, fun _ => ⟨a, h⟩⟩

theorem iff {Q : Prop} (h : CutIff read P) (hPQ : P ↔ Q) : CutIff read Q :=
  ⟨fun hQ => h.cut (hPQ.mpr hQ), fun hQ => h.ok (mt hPQ.mp hQ)⟩

/-- What is done with what was read crashes under no condition. -/
theorem bind (h : CutIff read P) (hf : ∀ a, ∃ b, f a = .ok b) : CutIff (read >>= f) P := by
  refine ⟨fun hcut => ?_, fun hnot => ?_⟩
  · rw [h.cut hcut]
    rfl
  · obtain ⟨a, ha⟩ := h.ok hnot
    rw [ha]
    exact hf a

/-- What is made of a result does not matter. -/
theorem map (h : CutIff read P) (f : α → β) : CutIff (read.map f) P := by
  refine ⟨fun hcut => ?_, fun hnot => ?_⟩
  · rw [h.cut hcut]
    rfl
  · obtain ⟨a, ha⟩ := h.ok hnot
    rw [ha]
    exact ⟨f a, rfl⟩

theorem toNumber (v : Value) : CutIff v.toNumber (v.isCut = true) :=
  ⟨Value.toNumber_of_isCut, fun h => ⟨_, Value.toNumber_of_not_isCut (Bool.eq_false_iff.mpr h)⟩⟩

theorem toNumbers (left right : Value) :
    CutIff (left.toNumbers right) (left.isCut = true ∨ right.isCut = true) := by
  refine ⟨Value.toNumbers_of_isCut, fun h => ?_⟩
  obtain ⟨hleft, hright⟩ := not_or.mp h
  exact ⟨_, Value.toNumbers_of_not_isCut (Bool.eq_false_iff.mpr hleft) (Bool.eq_false_iff.mpr hright)⟩

end CutIff

end MeteredScript
