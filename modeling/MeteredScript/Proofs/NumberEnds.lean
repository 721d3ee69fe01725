import MeteredScript.Token.Lexer

namespace MeteredScript

/-! # Where a number ends

At each place the lexer takes as much as it can, so how far a number reaches depends on the text
behind it, too. Of the lengths that decide about it two things are shown: what lies behind the
length is not looked at, and white space and slashes are not reached. `NumberForm.longest_append`
puts them together: a number is read again, and reaches as far, wherever its text is broken off.
-/

open Text

/-- The characters at which words, numbers and signs end: white space, and the slash of a
comment. -/
def isBreak (c : Char) : Bool := isLayout c || c = '/'

/-- Whether no break satisfies `p`. There are not many, so that it can be decided. -/
abbrev SparesBreaks (p : Char → Bool) : Prop :=
  [' ', '\t', '\r', '\n', '\x0c', '\x0b', '/'].all (fun c => !p c) = true

variable {p : Char → Bool} {tail : List Char} {f g : List Char → Nat}

/-- Classes that spare white space and slashes spare whatever breaks a text off. -/
theorem SparesBreaks.of_isBreak (hp : SparesBreaks p) {c : Char} (hc : isBreak c = true) :
    p c = false := by
  have hmem : c ∈ [' ', '\t', '\r', '\n', '\x0c', '\x0b', '/'] := by
    simpa [isBreak, isLayout, or_assoc] using hc
  simpa using List.all_eq_true.mp hp c hmem

/-- A text that is empty or starts with one of these characters. -/
def Breaks (tail : List Char) : Prop := ∀ c ∈ tail.head?, isBreak c = true

theorem Breaks.nil : Breaks [] := fun _ h => absurd h (by simp)

/-- Where a text is broken off there is nothing more, or a character that breaks it off. -/
theorem Breaks.cases (h : Breaks tail) :
    tail = [] ∨ ∃ c rest, tail = c :: rest ∧ isBreak c = true := by
  cases tail with
  | nil => exact .inl rfl
  | cons c rest => exact .inr ⟨c, rest, rfl, h c rfl⟩

/-! ## Lengths -/

/-- A length that is read off the front of a text: nothing behind that length is looked at, and the
first break is not reached. -/
structure ReadsFront (length : List Char → Nat) : Prop where
  front (text tail : List Char) :
    length (text ++ tail) ≤ text.length → length (text ++ tail) = length text
  bounded (text : List Char) {tail : List Char} : Breaks tail → length (text ++ tail) ≤ text.length

theorem countWhile_le (p : Char → Bool) (text : List Char) : countWhile p text ≤ text.length :=
  (List.takeWhile_sublist p).length_le

/-- A run of characters goes on into the tail only if it takes all of the text in front. -/
theorem countWhile_append (p : Char → Bool) (text tail : List Char) :
    countWhile p (text ++ tail) =
      if countWhile p text = text.length then text.length + countWhile p tail
      else countWhile p text := by
  unfold countWhile
  rw [List.takeWhile_append]
  split
  · rw [List.length_append]
  · rfl

/-- A run stops at once where the text is broken off. -/
theorem countWhile_of_breaks (hp : SparesBreaks p) (htail : Breaks tail) :
    countWhile p tail = 0 := by
  rcases htail.cases with rfl | ⟨c, rest, rfl, hc⟩
  · rfl
  · simp [countWhile, hp.of_isBreak hc]

theorem takeWhile_append_of_breaks (hp : SparesBreaks p) {text : List Char}
    (htext : ∀ c ∈ text, p c = true) (htail : Breaks tail) : (text ++ tail).takeWhile p = text := by
  have hnil : tail.takeWhile p = [] := List.eq_nil_of_length_eq_zero (countWhile_of_breaks hp htail)
  rw [List.takeWhile_append_of_pos htext, hnil, List.append_nil]

theorem readsFront_countWhile (hp : SparesBreaks p) : ReadsFront (countWhile p) where
  front text tail h := by
    rw [countWhile_append] at h ⊢
    split at h
    · rw [if_pos ‹_›]
      omega
    · rw [if_neg ‹_›]
  bounded text tail htail := by
    have hle := countWhile_le p text
    rw [countWhile_append, countWhile_of_breaks hp htail]
    split <;> omega

theorem readsFront_digits : ReadsFront (countWhile isDigit) := readsFront_countWhile (by decide)

theorem ReadsFront.eq_zero (hf : ReadsFront f) (htail : Breaks tail) : f tail = 0 :=
  Nat.le_zero.mp (hf.bounded [] htail)

theorem readsFront_zero : ReadsFront fun _ => 0 where
  front _ _ _ := rfl
  bounded _ _ _ := Nat.zero_le _

/-- One length behind another, which must not be zero. -/
def followedLength (f g : List Char → Nat) (cs : List Char) : Nat :=
  if f cs = 0 then 0 else f cs + g (cs.drop (f cs))

/-- One length behind another. -/
theorem ReadsFront.followed (hf : ReadsFront f) (hg : ReadsFront g) :
    ReadsFront (followedLength f g) where
  -- whether the second length is reached depends on the first alone
  front text tail h := by
    unfold followedLength at h ⊢
    have hfirst : f (text ++ tail) = f text := by
      refine hf.front text tail ?_
      split at h <;> omega
    rw [hfirst] at h ⊢
    split at h
    · simp [*]
    · have hle : f text ≤ text.length := by omega
      rw [List.drop_append_of_le_length hle] at h ⊢
      rw [hg.front (text.drop (f text)) tail (by rw [List.length_drop]; omega)]
  bounded text tail htail := by
    have hle := hf.bounded text htail
    unfold followedLength
    split
    · exact Nat.zero_le _
    · rw [List.drop_append_of_le_length hle]
      have hrest := hg.bounded (text.drop (f (text ++ tail))) htail
      rw [List.length_drop] at hrest
      omega

/-- One length or another, depending on the first character. -/
def chosenLength (p : Char → Bool) (f g : List Char → Nat) (cs : List Char) : Nat :=
  if cs.head?.any p then f cs else g cs

/-- A choice by the first character: it is made in front, so the tail does not change it. -/
theorem ReadsFront.chosen (hf : ReadsFront f) (hg : ReadsFront g) :
    ReadsFront (chosenLength p f g) where
  front text tail h := by
    cases text with
    | nil =>
      have hnil : chosenLength p f g [] = 0 := hg.eq_zero .nil
      rw [hnil]
      exact Nat.le_zero.mp h
    | cons c text =>
      unfold chosenLength at h ⊢
      rw [List.cons_append, List.head?_cons] at h ⊢
      rw [List.head?_cons]
      split at h
      · rw [if_pos ‹_›, if_pos ‹_›]
        exact hf.front (c :: text) tail h
      · rw [if_neg ‹_›, if_neg ‹_›]
        exact hg.front (c :: text) tail h
  bounded text tail htail := by
    unfold chosenLength
    split
    · exact hf.bounded text htail
    · exact hg.bounded text htail

/-- The first character, if `p` holds of it. -/
def oneLength (p : Char → Bool) (cs : List Char) : Nat :=
  if cs.head?.any p then 1 else 0

/-- A single character is not beyond a text that has one. -/
theorem oneLength_cons_append_le (p : Char → Bool) (c : Char) (text tail : List Char) :
    oneLength p (c :: text ++ tail) ≤ (c :: text).length := by
  unfold oneLength
  rw [List.length_cons]
  split <;> omega

theorem readsFront_one (hp : SparesBreaks p) : ReadsFront (oneLength p) where
  front text tail h := by
    cases text with
    | nil => exact Nat.le_zero.mp h
    | cons c text => rfl
  bounded text tail htail := by
    cases text with
    | nil =>
      rcases htail.cases with rfl | ⟨c, rest, rfl, hc⟩
      · exact Nat.le_refl 0
      · simp [oneLength, hp.of_isBreak hc]
    | cons c text => exact oneLength_cons_append_le p c text tail

/-- One length behind another, of which none must be zero. -/
def bothLength (f g : List Char → Nat) (cs : List Char) : Nat :=
  if f cs = 0 ∨ g (cs.drop (f cs)) = 0 then 0 else f cs + g (cs.drop (f cs))

/-- The first length must not reach beyond the text: the second could be zero only because of
that. -/
theorem ReadsFront.both_front (hf : ReadsFront f) {text : List Char}
    (hfirst : f (text ++ tail) ≤ text.length)
    (hg : f text ≠ 0 → g (text.drop (f text) ++ tail) ≤ (text.drop (f text)).length →
      g (text.drop (f text) ++ tail) = g (text.drop (f text)))
    (h : bothLength f g (text ++ tail) ≤ text.length) :
    bothLength f g (text ++ tail) = bothLength f g text := by
  have hsame := hf.front text tail hfirst
  unfold bothLength at h ⊢
  rw [hsame] at hfirst h ⊢
  rw [List.drop_append_of_le_length hfirst] at h ⊢
  by_cases hzero : f text = 0
  · rw [if_pos (.inl hzero), if_pos (.inl hzero)]
  · have hsecond : g (text.drop (f text) ++ tail) ≤ (text.drop (f text)).length := by
      rw [List.length_drop]
      split at h <;> omega
    rw [hg hzero hsecond]

/-- Two lengths that are there together or not at all end before the tail if the second does. -/
theorem ReadsFront.both_bounded (hf : ReadsFront f) (text : List Char) (htail : Breaks tail)
    (hg : ∀ rest, g (rest ++ tail) ≤ rest.length) :
    bothLength f g (text ++ tail) ≤ text.length := by
  have hfirst := hf.bounded text htail
  have hsecond := hg (text.drop (f (text ++ tail)))
  rw [List.length_drop] at hsecond
  unfold bothLength
  rw [List.drop_append_of_le_length hfirst]
  split <;> omega

/-- One character and, behind it, a length that must not be zero. -/
abbrev markedLength (p : Char → Bool) (g : List Char → Nat) : List Char → Nat :=
  bothLength (oneLength p) g

/-- A mark counts only if something follows it. -/
theorem markedLength_cons (p : Char → Bool) (g : List Char → Nat) (c : Char) (rest : List Char) :
    markedLength p g (c :: rest) = if p c then if g rest = 0 then 0 else 1 + g rest else 0 := by
  unfold markedLength bothLength oneLength
  by_cases hc : p c = true
  · simp [hc]
  · simp [hc]

theorem ReadsFront.marked (hg : ReadsFront g) (hp : SparesBreaks p) :
    ReadsFront (markedLength p g) where
  front text tail h := by
    cases text with
    | nil => exact Nat.le_zero.mp h
    | cons c text =>
      have hfirst := oneLength_cons_append_le p c text tail
      exact (readsFront_one hp).both_front hfirst (fun _ => hg.front _ tail) h
  bounded text _ htail :=
    (readsFront_one hp).both_bounded text htail fun rest => hg.bounded rest htail

namespace NumberForm

abbrev pointLength : List Char → Nat := followedLength (oneLength (· = '.')) (countWhile isDigit)

theorem pointLength_cons (rest : List Char) :
    pointLength ('.' :: rest) = 1 + countWhile isDigit rest :=
  rfl

variable {cs tail : List Char}

theorem pointLength_eq_zero (h : ∀ rest, cs ≠ '.' :: rest) : pointLength cs = 0 := by
  cases cs with
  | nil => rfl
  | cons c rest =>
    have hc : c ≠ '.' := by
      rintro rfl
      exact h rest rfl
    simp [followedLength, oneLength, hc]

theorem readsFront_pointLength : ReadsFront pointLength :=
  (readsFront_one (by decide)).followed readsFront_digits

/-- A point and digits, or digits and perhaps a point with more of them. -/
theorem mantissaLength_eq :
    mantissaLength = chosenLength (· = '.') (markedLength (· = '.') (countWhile isDigit))
      (followedLength (countWhile isDigit) pointLength) := by
  funext cs
  cases cs with
  | nil => rfl
  | cons c rest =>
    unfold chosenLength
    rw [List.head?_cons, Option.any_some]
    -- The first character alone decides which of the two forms is meant.
    by_cases hc : c = '.'
    · subst hc
      rw [if_pos (by decide), markedLength_cons, if_pos (by decide)]
      rfl
    · rw [if_neg (by simp [hc])]
      unfold mantissaLength followedLength
      split
      · rename_i heq
        cases heq
        exact absurd rfl hc
      · dsimp only
        split
        · rfl
        · split
          · rename_i digits heq
            rw [heq, pointLength_cons, Nat.add_assoc]
          · rename_i hne
            rw [pointLength_eq_zero hne, Nat.add_zero]

theorem readsFront_mantissaLength : ReadsFront mantissaLength := by
  rw [mantissaLength_eq]
  have hmarked := readsFront_digits.marked (p := (· = '.')) (by decide)
  exact hmarked.chosen (readsFront_digits.followed readsFront_pointLength)

/-- A mark in front of `k` characters and a nonempty count of `n` more. -/
theorem marked_of_marked (k n : Nat) :
    (if (if n = 0 then 0 else k + n) = 0 then 0 else 1 + if n = 0 then 0 else k + n) =
      if n = 0 then 0 else 1 + k + n := by
  by_cases hn : n = 0
  · simp [hn]
  · simp [hn, Nat.add_assoc]

/-- The length of digits with an optional sign in front of them. -/
def signedLength (cs : List Char) : Nat :=
  let sign := if cs.head? = some '+' ∨ cs.head? = some '-' then 1 else 0
  if countWhile isDigit (cs.drop sign) = 0 then 0 else sign + countWhile isDigit (cs.drop sign)

/-- A sign in front of an exponent is optional, the digits are not. -/
theorem signedLength_eq :
    signedLength = chosenLength (fun c => c = '+' || c = '-')
      (markedLength (fun c => c = '+' || c = '-') (countWhile isDigit)) (countWhile isDigit) := by
  funext cs
  cases cs with
  | nil => rfl
  | cons c rest =>
    unfold signedLength chosenLength
    rw [markedLength_cons]
    by_cases hsign : c = '+' ∨ c = '-'
    · simp [hsign]
    · simp only [List.head?_cons, Option.some.injEq, hsign, if_false, List.drop_zero, Nat.zero_add]
      split <;> simp [*]

theorem readsFront_signedLength : ReadsFront signedLength := by
  rw [signedLength_eq]
  exact (readsFront_digits.marked (by decide)).chosen readsFront_digits

theorem exponentLength_eq :
    exponentLength = markedLength (fun c => c = 'e' || c = 'E') signedLength := by
  funext cs
  cases cs with
  | nil => rfl
  | cons c rest =>
    rw [markedLength_cons]
    simp only [exponentLength, signedLength, Bool.or_eq_true, decide_eq_true_eq]
    by_cases hmark : c = 'e' ∨ c = 'E'
    · rw [if_pos hmark, if_pos hmark]
      exact (marked_of_marked _ _).symm
    · rw [if_neg hmark, if_neg hmark]

theorem readsFront_exponentLength : ReadsFront exponentLength := by
  rw [exponentLength_eq]
  exact readsFront_signedLength.marked (by decide)

/-- A zero, a letter and digits. -/
theorem radixLength_eq (lower upper : Char) (isRadixDigit : Char → Bool) :
    radixLength lower upper isRadixDigit =
      markedLength (· = '0')
        (markedLength (fun c => c = lower || c = upper) (countWhile isRadixDigit)) := by
  funext cs
  cases cs with
  | nil => rfl
  | cons c cs =>
    by_cases hc : c = '0'
    · subst hc
      cases cs with
      | nil => rfl
      | cons letter rest =>
        show (if (letter = lower ∨ letter = upper) ∧ 0 < countWhile isRadixDigit rest then
          2 + countWhile isRadixDigit rest else 0) = _
        rw [markedLength_cons, markedLength_cons]
        -- Without a digit behind the letter both sides are zero, whatever the letter.
        by_cases hdigits : countWhile isRadixDigit rest = 0
        · simp [hdigits]
        · by_cases hletter : letter = lower ∨ letter = upper
          · simp [hletter, hdigits, Nat.pos_of_ne_zero hdigits, ← Nat.add_assoc]
          · simp [hletter]
    · rw [markedLength_cons]
      unfold radixLength
      split
      · rename_i heq
        cases heq
        exact absurd rfl hc
      · simp [hc]

theorem readsFront_radixLength {lower upper : Char} {isRadixDigit : Char → Bool}
    (hdigits : ReadsFront (countWhile isRadixDigit))
    (hletters : SparesBreaks fun c => c = lower || c = upper) :
    ReadsFront (radixLength lower upper isRadixDigit) := by
  rw [radixLength_eq]
  exact (hdigits.marked hletters).marked (by decide)

theorem readsFront_decimal : ReadsFront decimal.length :=
  readsFront_mantissaLength.followed readsFront_exponentLength

/-- Integers that are marked as such end with their mark. -/
theorem length_bigInt_eq :
    bigInt.length = bothLength (countWhile isDigit) (oneLength (· = 'n')) := by
  funext cs
  show (if 0 < countWhile isDigit cs ∧ (cs.drop (countWhile isDigit cs)).head? = some 'n' then
    countWhile isDigit cs + 1 else 0) = _
  unfold bothLength oneLength
  cases (cs.drop (countWhile isDigit cs)).head? with
  | none => simp
  | some c =>
    by_cases hc : c = 'n'
    · simp [hc, Nat.pos_iff_ne_zero]
    · simp [hc]

/-- The mark is behind all the digits, so it may lie in the tail, but never at a break. -/
theorem readsFront_bigInt : ReadsFront bigInt.length := by
  rw [length_bigInt_eq]
  have hletter : ReadsFront (oneLength (· = 'n')) := readsFront_one (by decide)
  refine ⟨fun text tail h => ?_, fun text _ htail => ?_⟩
  · by_cases hfirst : countWhile isDigit (text ++ tail) ≤ text.length
    · exact readsFront_digits.both_front hfirst (fun _ => hletter.front _ tail) h
    · -- all of the text are digits, and the letter would be behind it
      have hall : countWhile isDigit text = text.length := by
        rw [countWhile_append] at hfirst
        split at hfirst
        · assumption
        · exact absurd (countWhile_le isDigit text) hfirst
      have hnone : bothLength (countWhile isDigit) (oneLength (· = 'n')) text = 0 := by
        unfold bothLength
        rw [hall, List.drop_length]
        exact if_pos (.inr rfl)
      rw [hnone]
      unfold bothLength at h ⊢
      split at h
      · rw [if_pos ‹_›]
      · omega
  · exact readsFront_digits.both_bounded text htail fun rest => hletter.bounded rest htail

/-- A word that begins with a digit is a form of its own, to be refused. -/
theorem length_word_eq :
    word.length = chosenLength isDigit (countWhile isWordChar) fun _ => 0 := by
  funext cs
  cases cs <;> rfl

theorem readsFront_word : ReadsFront word.length := by
  rw [length_word_eq]
  exact (readsFront_countWhile (by decide)).chosen readsFront_zero

/-! ### Broken exponents -/

/-- An exponent that runs into a point or an `n`. -/
abbrev overrunLength : List Char → Nat :=
  bothLength exponentLength (oneLength fun c => c = '.' || c = 'n')

/-- An exponent that ends with its sign. -/
abbrev signedStartLength : List Char → Nat :=
  markedLength (fun c => c = 'e' || c = 'E') (oneLength fun c => c = '+' || c = '-')

/-- Where a sign stands behind the mark of an exponent, two characters are taken. -/
theorem signedStartLength_eq (cs : List Char) :
    signedStartLength cs = if startsSignedExponent cs then 2 else 0 := by
  cases cs with
  | nil => rfl
  | cons c cs =>
    unfold signedStartLength
    rw [markedLength_cons]
    cases cs with
    | nil => simp [oneLength, startsSignedExponent]
    | cons s cs =>
      by_cases hc : c = 'e' ∨ c = 'E'
      · by_cases hs : s = '+' ∨ s = '-'
        · simp [oneLength, startsSignedExponent, hc, hs]
        · simp [oneLength, startsSignedExponent, hc, hs]
      · simp [startsSignedExponent, hc]

/-- The length of what breaks an exponent, from the end of the mantissa. -/
def breakLength (atPoint : Bool) (cs : List Char) : Nat :=
  if exponentLength cs = 0 then if atPoint then 0 else signedStartLength cs else overrunLength cs

/-- Without an exponent a number is broken only where one seems to begin with a sign. -/
theorem breakLength_of_zero (atPoint : Bool) (hzero : exponentLength cs = 0) :
    breakLength atPoint cs = if atPoint = false ∧ startsSignedExponent cs = true then 2 else 0 := by
  unfold breakLength
  rw [if_pos hzero, signedStartLength_eq]
  cases atPoint <;> simp

/-- Behind an exponent a number is broken by a point, or by the mark of an integer. -/
theorem breakLength_of_ne_zero (atPoint : Bool) (hpos : exponentLength cs ≠ 0) :
    breakLength atPoint cs =
      if (cs.drop (exponentLength cs)).head?.any (fun c => c = '.' || c = 'n') then
        exponentLength cs + 1 else 0 := by
  unfold breakLength overrunLength bothLength oneLength
  rw [if_neg hpos]
  split <;> simp [hpos]

/-- A number with a broken exponent is a mantissa and what breaks it. -/
theorem brokenExponentLength_eq (cs : List Char) :
    brokenExponentLength cs =
      bothLength mantissaLength (breakLength (cs.head? == some '.')) cs := by
  unfold brokenExponentLength bothLength
  dsimp only
  generalize cs.drop (mantissaLength cs) = tail
  by_cases hmantissa : mantissaLength cs = 0
  · simp [hmantissa]
  -- Without an exponent only its letter with a sign breaks the number; behind one a point or `n` does.
  · by_cases hzero : exponentLength tail = 0
    · rw [breakLength_of_zero _ hzero]
      cases tail with
      | nil => simp [startsSignedExponent]
      | cons c tail =>
        simp only [hmantissa, hzero, List.drop_zero, Nat.lt_irrefl, false_and, if_false, true_and,
          beq_eq_false_iff_ne, false_or]
        split <;> simp
    · rw [breakLength_of_ne_zero _ hzero]
      cases tail.drop (exponentLength tail) with
      | nil => simp [hmantissa]
      | cons c rest =>
        by_cases hc : c = '.' ∨ c = 'n'
        · simp [hmantissa, hc, Nat.pos_of_ne_zero hzero, Nat.add_assoc]
        · simp [hmantissa, hzero, hc]

/-- Nothing behind a broken exponent is looked at, if the exponent itself does not go on there. -/
theorem breakLength_front (atPoint : Bool) (text tail : List Char)
    (hexponent : exponentLength (text ++ tail) ≤ text.length)
    (h : breakLength atPoint (text ++ tail) ≤ text.length) :
    breakLength atPoint (text ++ tail) = breakLength atPoint text := by
  have hmark : ReadsFront (oneLength fun c => c = '.' || c = 'n') := readsFront_one (by decide)
  have hsign : ReadsFront (oneLength fun c => c = '+' || c = '-') := readsFront_one (by decide)
  unfold breakLength at h ⊢
  rw [readsFront_exponentLength.front text tail hexponent] at h ⊢
  by_cases hzero : exponentLength text = 0
  · rw [if_pos hzero] at h ⊢
    rw [if_pos hzero]
    cases atPoint with
    | true => rfl
    | false => exact (hsign.marked (by decide)).front text tail h
  · rw [if_neg hzero] at h ⊢
    rw [if_neg hzero]
    exact readsFront_exponentLength.both_front hexponent (fun _ => hmark.front _ tail) h

/-- What breaks a number is no white space and no slash. -/
theorem breakLength_bounded (atPoint : Bool) (text : List Char) (htail : Breaks tail) :
    breakLength atPoint (text ++ tail) ≤ text.length := by
  have hmark : ReadsFront (oneLength fun c => c = '.' || c = 'n') := readsFront_one (by decide)
  have hsign : ReadsFront (oneLength fun c => c = '+' || c = '-') := readsFront_one (by decide)
  unfold breakLength
  split
  · split
    · exact Nat.zero_le _
    · exact (hsign.marked (by decide)).bounded text htail
  · exact readsFront_exponentLength.both_bounded text htail fun rest => hmark.bounded rest htail

/-- A number that is read to its end is not a broken one because of what is behind it. -/
theorem brokenExponentLength_front (text tail : List Char)
    (hdecimal : decimal.length (text ++ tail) ≤ text.length)
    (h : brokenExponentLength (text ++ tail) ≤ text.length) :
    brokenExponentLength (text ++ tail) = brokenExponentLength text := by
  simp only [length] at hdecimal
  have hmantissa : mantissaLength (text ++ tail) ≤ text.length := by
    split at hdecimal <;> omega
  rw [brokenExponentLength_eq] at h ⊢
  rw [brokenExponentLength_eq]
  cases text with
  | nil => exact Nat.le_zero.mp h
  | cons c text =>
    refine readsFront_mantissaLength.both_front hmantissa (fun hpos hbreak => ?_) h
    refine breakLength_front _ _ tail ?_ hbreak
    -- the exponent is that of the decimal number, which ends in the text
    have hsame := readsFront_mantissaLength.front _ tail hmantissa
    rw [hsame] at hdecimal hmantissa
    rw [if_neg hpos, List.drop_append_of_le_length hmantissa] at hdecimal
    rw [List.length_drop]
    omega

/-- How long a form is depends on the front only, if neither it nor the decimal form goes beyond. -/
theorem length_front (form : NumberForm) (text tail : List Char)
    (hdecimal : decimal.length (text ++ tail) ≤ text.length)
    (h : form.length (text ++ tail) ≤ text.length) :
    form.length (text ++ tail) = form.length text := by
  have hdigits : ReadsFront (countWhile (isDigitOf 16)) := readsFront_countWhile (by decide)
  cases form with
  | brokenExponent => exact brokenExponentLength_front text tail hdecimal h
  | decimal => exact readsFront_decimal.front text tail h
  | hex => exact (readsFront_radixLength hdigits (by decide)).front text tail h
  | octal => exact (readsFront_radixLength readsFront_digits (by decide)).front text tail h
  | binary => exact (readsFront_radixLength readsFront_digits (by decide)).front text tail h
  | bigInt => exact readsFront_bigInt.front text tail h
  | word => exact readsFront_word.front text tail h

/-- No form goes beyond a break. -/
theorem length_bounded (form : NumberForm) (text : List Char) (htail : Breaks tail) :
    form.length (text ++ tail) ≤ text.length := by
  have hdigits : ReadsFront (countWhile (isDigitOf 16)) := readsFront_countWhile (by decide)
  cases form with
  | brokenExponent =>
    show brokenExponentLength (text ++ tail) ≤ text.length
    rw [brokenExponentLength_eq]
    exact readsFront_mantissaLength.both_bounded text htail fun rest =>
      breakLength_bounded _ rest htail
  | decimal => exact readsFront_decimal.bounded text htail
  | hex => exact (readsFront_radixLength hdigits (by decide)).bounded text htail
  | octal => exact (readsFront_radixLength readsFront_digits (by decide)).bounded text htail
  | binary => exact (readsFront_radixLength readsFront_digits (by decide)).bounded text htail
  | bigInt => exact readsFront_bigInt.bounded text htail
  | word => exact readsFront_word.bounded text htail

/-! ### The longest form -/

def longer (cs : List Char) (best : NumberForm × Nat) (form : NumberForm) : NumberForm × Nat :=
  if best.2 < form.length cs then (form, form.length cs) else best

theorem longest_eq (cs : List Char) : longest cs = all.foldl (longer cs) (word, 0) := rfl

/-- The longest form is at least as long as each one that was compared. -/
theorem le_foldl_longer (cs : List Char) (forms : List NumberForm) (best : NumberForm × Nat) :
    best.2 ≤ (forms.foldl (longer cs) best).2 ∧
      ∀ form ∈ forms, form.length cs ≤ (forms.foldl (longer cs) best).2 := by
  induction forms generalizing best with
  | nil => exact ⟨Nat.le_refl _, fun _ h => absurd h List.not_mem_nil⟩
  | cons form forms ih =>
    obtain ⟨hbest, hforms⟩ := ih (longer cs best form)
    have hlonger : best.2 ≤ (longer cs best form).2 ∧ form.length cs ≤ (longer cs best form).2 := by
      unfold longer
      split
      · exact ⟨Nat.le_of_lt ‹_›, Nat.le_refl _⟩
      · exact ⟨Nat.le_refl _, Nat.le_of_not_lt ‹_›⟩
    refine ⟨Nat.le_trans hlonger.1 hbest, fun other hother => ?_⟩
    rcases List.mem_cons.mp hother with rfl | hmem
    · exact Nat.le_trans hlonger.2 hbest
    · exact hforms other hmem

theorem length_le_longest (form : NumberForm) (cs : List Char) :
    form.length cs ≤ (longest cs).2 := by
  rw [longest_eq]
  exact (le_foldl_longer cs all (word, 0)).2 form (by cases form <;> decide)

theorem foldl_longer_le {bound : Nat} (h : ∀ form : NumberForm, form.length cs ≤ bound)
    (forms : List NumberForm) {best : NumberForm × Nat} (hbest : best.2 ≤ bound) :
    (forms.foldl (longer cs) best).2 ≤ bound := by
  induction forms generalizing best with
  | nil => exact hbest
  | cons form forms ih =>
    apply ih
    unfold longer
    split
    · exact h form
    · exact hbest

theorem longest_le (cs : List Char) : (longest cs).2 ≤ cs.length := by
  rw [longest_eq]
  refine foldl_longer_le (fun form => ?_) all (Nat.zero_le _)
  have hle := form.length_bounded cs .nil
  rwa [List.append_nil] at hle

theorem longest_congr {cs' : List Char}
    (h : ∀ form : NumberForm, form.length cs = form.length cs') : longest cs = longest cs' := by
  have hlonger : longer cs = longer cs' := by
    funext best form
    unfold longer
    rw [h form]
  rw [longest_eq, longest_eq, hlonger]

/-- The longest form at the front of a text is the longest one of that front, too, whatever breaks
it off. -/
theorem longest_append {text tail' : List Char} (h : (longest (text ++ tail)).2 ≤ text.length)
    (htail' : Breaks tail') : longest (text ++ tail') = longest (text ++ tail) := by
  apply longest_congr
  intro form
  have hle : ∀ other : NumberForm, other.length (text ++ tail) ≤ text.length :=
    fun other => Nat.le_trans (length_le_longest other _) h
  have hle' : ∀ other : NumberForm, other.length (text ++ tail') ≤ text.length :=
    fun other => other.length_bounded text htail'
  calc form.length (text ++ tail')
      = form.length text := form.length_front text tail' (hle' decimal) (hle' form)
    _ = form.length (text ++ tail) := (form.length_front text tail (hle decimal) (hle form)).symm

end NumberForm

end MeteredScript
