import MeteredScript.Proofs.ErrorRanges
import MeteredScript.Proofs.Numerals

namespace MeteredScript

/-! # Number literals

A text that is a number token as a whole has one of the forms that the lexer tells apart. The
decimal form is that of the unsigned numerals; the others have a radix letter behind a zero
(`NumberForm.RadixForm`). `tokenize_eq_number_iff` says that such a text is read as that one token.
What it spells is said by `spelledBy_numeral_iff` and `spelledBy_radix_iff`.
-/

open Text

variable {p : Char → Bool} {cs : List Char}

/-- A run that takes all of a text goes on behind it. -/
theorem countWhile_append_of_all {text : List Char} (htext : ∀ c ∈ text, p c = true)
    (tail : List Char) : countWhile p (text ++ tail) = text.length + countWhile p tail := by
  unfold countWhile
  rw [List.takeWhile_append_of_pos htext, List.length_append]

theorem countWhile_of_all (hcs : ∀ c ∈ cs, p c = true) : countWhile p cs = cs.length := by
  have hcount := countWhile_append_of_all hcs []
  rwa [List.append_nil] at hcount

/-- A run as long as the text has all of it. -/
theorem all_of_countWhile (h : countWhile p cs = cs.length) : ∀ c ∈ cs, p c = true := by
  have htake : cs.takeWhile p = cs := (List.takeWhile_sublist p).eq_of_length h
  rw [← htake]
  exact List.all_eq_true.mp List.all_takeWhile

/-- What a run takes and what it leaves is all there is. -/
theorem takeWhile_append_drop (p : Char → Bool) (cs : List Char) :
    cs.takeWhile p ++ cs.drop (countWhile p cs) = cs := by
  have htake : cs.take (countWhile p cs) = cs.takeWhile p :=
    (List.prefix_iff_eq_take.mp (List.takeWhile_prefix p)).symm
  rw [← htake, List.take_append_drop]

namespace NumberForm

/-! ## Mantissas -/

/-- A text behind a mantissa: it does not go on with digits or a point. -/
def Stops (tail : List Char) : Prop := ∀ c ∈ tail.head?, isDigit c = false ∧ c ≠ '.'

variable {c : Char} {d : Decimal} {tail cs : List Char} {radix : Nat} {form : NumberForm}

theorem Stops.countWhile (h : Stops tail) : countWhile isDigit tail = 0 := by
  cases tail with
  | nil => rfl
  | cons c tail => simp [MeteredScript.countWhile, (h c rfl).1]

theorem Stops.pointLength (h : Stops tail) : pointLength tail = 0 := by
  refine pointLength_eq_zero ?_
  rintro rest rfl
  exact (h '.' rfl).2 rfl

theorem stops_exponent (e? : Option ExponentPart) : Stops (e?.elim [] ExponentPart.chars) := by
  cases e? with
  | none => exact fun c hc => absurd hc (by simp)
  | some e =>
    intro c hc
    obtain rfl : e.mark = c := by simpa [ExponentPart.chars] using hc
    rcases e.mark_eq with hmark | hmark
    · rw [hmark]
      decide
    · rw [hmark]
      decide

/-- A point without digits in front of it needs some behind it. -/
theorem mantissaLength_point (rest : List Char) :
    mantissaLength ('.' :: rest) =
      if countWhile isDigit rest = 0 then 0 else 1 + countWhile isDigit rest :=
  rfl

theorem mantissaLength_digits {whole : List Char} (hwhole : ∀ c ∈ whole, isDigit c = true)
    (hne : whole ≠ []) (htail : countWhile isDigit tail = 0) :
    mantissaLength (whole ++ tail) = whole.length + pointLength tail := by
  have hcount := countWhile_append_of_all hwhole tail
  rw [htail, Nat.add_zero] at hcount
  have hpoint : (whole ++ tail).head?.any (· = '.') = false := by
    cases whole with
    | nil => exact absurd rfl hne
    | cons c whole => simpa using ne_of_isDigit (hwhole c List.mem_cons_self) (by decide)
  rw [mantissaLength_eq, chosenLength, hpoint]
  unfold followedLength
  rw [hcount, List.drop_left]
  exact if_neg (mt List.eq_nil_of_length_eq_zero hne)

/-- A mantissa is as long as its spelling, if what follows stops it. -/
theorem mantissaLength_chars (m : Mantissa) (htail : Stops tail) :
    mantissaLength (m.chars ++ tail) = m.chars.length := by
  obtain ⟨whole, fraction?, hwhole, hfraction, hne⟩ := m
  unfold Mantissa.chars
  dsimp only
  cases fraction? with
  | none =>
    have hwhole' : whole ≠ [] := by simpa using hne
    rw [Option.elim_none, List.append_nil, mantissaLength_digits hwhole hwhole' htail.countWhile,
      htail.pointLength, Nat.add_zero]
  | some fraction =>
    have hcount := countWhile_append_of_all hfraction tail
    rw [htail.countWhile, Nat.add_zero] at hcount
    rw [Option.elim_some, List.append_assoc, List.cons_append]
    -- A point in front of the digits is read by a rule of its own.
    by_cases hwhole' : whole = []
    · subst hwhole'
      have hpos : fraction.length ≠ 0 := mt List.eq_nil_of_length_eq_zero hne
      rw [List.nil_append, mantissaLength_point]
      simp only [Option.getD_some] at hcount
      rw [hcount, if_neg hpos, List.nil_append, List.length_cons, Nat.add_comm]
    · rw [mantissaLength_digits hwhole hwhole' rfl, pointLength_cons]
      simp only [Option.getD_some] at hcount
      rw [hcount, List.length_append, List.length_cons, Nat.add_comm 1]

/-- The front that is taken for a mantissa is one. -/
theorem exists_of_mantissaLength (h : mantissaLength cs ≠ 0) :
    ∃ m : Mantissa, cs = m.chars ++ cs.drop (mantissaLength cs) := by
  have hdigits (rest : List Char) : ∀ c ∈ rest.takeWhile isDigit, isDigit c = true :=
    List.all_eq_true.mp List.all_takeWhile
  unfold mantissaLength at h ⊢
  split at h
  · rename_i rest
    dsimp only at h ⊢
    split at h
    · exact absurd rfl h
    · rename_i hpos
      have hne : rest.takeWhile isDigit ≠ [] := mt List.length_eq_zero_iff.mpr hpos
      refine ⟨⟨[], some (rest.takeWhile isDigit), by simp, hdigits rest, hne⟩, ?_⟩
      rw [if_neg hpos, Nat.add_comm, List.drop_succ_cons]
      exact congrArg ('.' :: ·) (takeWhile_append_drop isDigit rest).symm
  · dsimp only at h ⊢
    split at h
    · exact absurd rfl h
    · rename_i hpos
      rw [if_neg hpos]
      -- there are digits in front, and perhaps a point behind them
      have hne : cs.takeWhile isDigit ≠ [] := mt List.length_eq_zero_iff.mpr hpos
      have hsplit := takeWhile_append_drop isDigit cs
      split
      · rename_i rest hrest
        refine ⟨⟨cs.takeWhile isDigit, some (rest.takeWhile isDigit), hdigits cs, hdigits rest,
          by simp [hne]⟩, ?_⟩
        rw [hrest] at hsplit
        rw [← List.drop_drop, ← List.drop_drop, hrest, List.drop_one, List.tail_cons]
        simp only [Mantissa.chars, Option.elim_some, List.append_assoc, List.cons_append,
          takeWhile_append_drop]
        exact hsplit.symm
      · refine ⟨⟨cs.takeWhile isDigit, none, hdigits cs, by simp, by simpa using hne⟩, ?_⟩
        simp only [Mantissa.chars, Option.elim_none, List.append_nil]
        exact hsplit.symm

/-! ## Exponents -/

theorem signedLength_chars (s : SignMark) {digits : List Char}
    (hdigits : ∀ c ∈ digits, isDigit c = true) (hne : digits ≠ []) :
    signedLength (s.chars ++ digits) = (s.chars ++ digits).length := by
  have hcount := countWhile_of_all hdigits
  have hpos : digits.length ≠ 0 := mt List.eq_nil_of_length_eq_zero hne
  have hunsigned := unsigned_of_digits hdigits
  unfold signedLength
  cases s with
  | absent => simp [SignMark.chars, hunsigned.1, hunsigned.2, hcount, hpos]
  | plus => simp [SignMark.chars, hcount, hpos, Nat.add_comm]
  | minus => simp [SignMark.chars, hcount, hpos, Nat.add_comm]

theorem exponentLength_chars (e : ExponentPart) : exponentLength e.chars = e.chars.length := by
  have hsigned := signedLength_chars e.sign e.isDigit e.ne_nil
  have hpos : (e.sign.chars ++ e.digits).length ≠ 0 := by simp [e.ne_nil]
  rw [exponentLength_eq, ExponentPart.chars, markedLength_cons, if_pos (by simpa using e.mark_eq),
    hsigned, if_neg hpos, List.length_cons, Nat.add_comm]

/-- What is taken whole as a signed exponent is a sign mark and digits. -/
theorem exists_of_signedLength (hne : cs ≠ []) (h : signedLength cs = cs.length) :
    ∃ (s : SignMark) (digits : List Char), cs = s.chars ++ digits ∧
      (∀ c ∈ digits, isDigit c = true) ∧ digits ≠ [] := by
  -- the digits are what the sign leaves, and all of it is counted
  have hdigits {k : Nat} (hk : k ≤ cs.length)
      (h : (if countWhile isDigit (cs.drop k) = 0 then 0
        else k + countWhile isDigit (cs.drop k)) = cs.length) :
      (∀ c ∈ cs.drop k, isDigit c = true) ∧ cs.drop k ≠ [] := by
    split at h
    · exact absurd (List.eq_nil_of_length_eq_zero h.symm) hne
    · rename_i hpos
      refine ⟨all_of_countWhile (by rw [List.length_drop]; omega), ?_⟩
      intro hnil
      exact hpos (by rw [hnil]; rfl)
  unfold signedLength at h
  dsimp only at h
  cases cs with
  | nil => exact absurd rfl hne
  | cons c rest =>
    split at h
    · rename_i hsign
      have hrest := hdigits (Nat.succ_le_succ (Nat.zero_le _)) h
      rw [List.head?_cons, Option.some.injEq, Option.some.injEq] at hsign
      rcases hsign with rfl | rfl
      · exact ⟨.plus, rest, rfl, hrest⟩
      · exact ⟨.minus, rest, rfl, hrest⟩
    · exact ⟨.absent, c :: rest, rfl, hdigits (Nat.zero_le _) h⟩

/-- What is taken whole as an exponent is one. -/
theorem exists_of_exponentLength (hne : cs ≠ []) (h : exponentLength cs = cs.length) :
    ∃ e : ExponentPart, e.chars = cs := by
  cases cs with
  | nil => exact absurd rfl hne
  | cons mark rest =>
    rw [exponentLength_eq, markedLength_cons] at h
    split at h
    · rename_i hmark
      split at h
      · simp at h
      · rename_i hpos
        -- The mark alone is no exponent.
        have hrest : rest ≠ [] := by
          rintro rfl
          exact hpos rfl
        obtain ⟨s, digits, rfl, hdigits, hdigits'⟩ := exists_of_signedLength hrest
          (by rw [List.length_cons] at h; omega)
        exact ⟨⟨mark, s, digits, by simpa using hmark, hdigits, hdigits'⟩, rfl⟩
    · simp at h

/-! ## Decimals -/

/-- An unsigned numeral is a decimal form from beginning to end. -/
theorem length_decimal_chars (n : Numeral) :
    decimal.length n.unsignedChars = n.unsignedChars.length := by
  have hmantissa := mantissaLength_chars n.mantissa (stops_exponent n.exponent?)
  have hpos : n.mantissa.chars.length ≠ 0 := by
    obtain ⟨c, rest, hchars, -⟩ := n.mantissa.exists_chars_eq_cons
    rw [hchars]
    exact Nat.succ_ne_zero _
  unfold Numeral.unsignedChars
  simp only [length]
  rw [hmantissa, if_neg hpos, List.drop_left, List.length_append]
  cases n.exponent? with
  | none => rfl
  | some e => rw [Option.elim_some, exponentLength_chars]

/-- A decimal form from beginning to end is an unsigned numeral. -/
theorem exists_of_length_decimal (hne : cs ≠ []) (h : decimal.length cs = cs.length) :
    ∃ n : Numeral, n.sign = .absent ∧ n.unsignedChars = cs := by
  simp only [length] at h
  split at h
  · exact absurd (List.eq_nil_of_length_eq_zero h.symm) hne
  · rename_i hpos
    obtain ⟨m, hm⟩ := exists_of_mantissaLength hpos
    by_cases hrest : cs.drop (mantissaLength cs) = []
    · refine ⟨⟨.absent, m, none⟩, rfl, ?_⟩
      rw [hm, hrest]
      rfl
    · obtain ⟨e, he⟩ := exists_of_exponentLength hrest (by rw [List.length_drop]; omega)
      refine ⟨⟨.absent, m, some e⟩, rfl, ?_⟩
      exact (congrArg (m.chars ++ ·) he).trans hm.symm

/-- Nothing is left behind the exponent that could break it. -/
theorem length_brokenExponent_eq_zero (h : decimal.length cs = cs.length) :
    brokenExponent.length cs = 0 := by
  simp only [length] at h ⊢
  unfold brokenExponentLength
  dsimp only
  split
  · rfl
  · rename_i hpos
    rw [if_neg hpos] at h
    have hend : (cs.drop (mantissaLength cs)).drop
        (exponentLength (cs.drop (mantissaLength cs))) = [] := by
      refine List.drop_eq_nil_of_le ?_
      rw [List.length_drop]
      omega
    rw [hend]

/-! ## Radix letters -/

/-- The radix that a letter behind a zero stands for. -/
def radixOf? (letter : Char) : Option Nat :=
  if letter = 'x' ∨ letter = 'X' then some 16
  else if letter = 'o' ∨ letter = 'O' then some 8
  else if letter = 'b' ∨ letter = 'B' then some 2
  else none

/-- A letter that neither a mantissa nor an exponent goes on with. -/
structure IsRadixLetter (letter : Char) : Prop where
  noDigit : isDigit letter = false
  noPoint : letter ≠ '.'
  noMark : ¬(letter = 'e' ∨ letter = 'E')

/-- Letters of a radix are what the other forms are not made of. -/
theorem isRadixLetter_of_radixOf? {letter : Char} (h : radixOf? letter = some radix) :
    IsRadixLetter letter := by
  unfold radixOf? at h
  split at h
  · rename_i hletter
    rcases hletter with rfl | rfl <;> exact ⟨by decide, by decide, by decide⟩
  split at h
  · rename_i hletter
    rcases hletter with rfl | rfl <;> exact ⟨by decide, by decide, by decide⟩
  split at h
  · rename_i hletter
    rcases hletter with rfl | rfl <;> exact ⟨by decide, by decide, by decide⟩
  · simp at h

namespace IsRadixLetter

variable {letter : Char}

theorem mantissaLength_eq_one (h : IsRadixLetter letter) (digits : List Char) :
    mantissaLength ('0' :: letter :: digits) = 1 := by
  have hstops : Stops (letter :: digits) := by
    intro c hc
    obtain rfl : letter = c := by simpa using hc
    exact ⟨h.noDigit, h.noPoint⟩
  have hdigit : ∀ c ∈ ['0'], isDigit c = true := List.all_eq_true.mp rfl
  have hzero := mantissaLength_digits hdigit (by simp) hstops.countWhile
  rwa [hstops.pointLength] at hzero

theorem exponentLength_eq_zero (h : IsRadixLetter letter) (digits : List Char) :
    exponentLength (letter :: digits) = 0 :=
  if_neg h.noMark

/-- A decimal form stops in front of the letter. -/
theorem length_decimal (h : IsRadixLetter letter) (digits : List Char) :
    decimal.length ('0' :: letter :: digits) = 1 := by
  simp only [length]
  rw [h.mantissaLength_eq_one, List.drop_one, List.tail_cons, h.exponentLength_eq_zero]
  rfl

theorem length_brokenExponent (h : IsRadixLetter letter) (digits : List Char) :
    brokenExponent.length ('0' :: letter :: digits) = 0 := by
  have hstart : startsSignedExponent (letter :: digits) = false := by
    unfold startsSignedExponent
    split
    · rename_i heq
      obtain ⟨rfl, -⟩ := List.cons.inj heq
      have hmark : (letter = 'e' || letter = 'E') = false := by simpa using h.noMark
      rw [hmark, Bool.false_and]
    · rfl
  have hbreak := breakLength_of_zero false (h.exponentLength_eq_zero digits)
  simp only [length, brokenExponentLength_eq, bothLength]
  rw [h.mantissaLength_eq_one, List.drop_one, List.tail_cons]
  rw [hstart] at hbreak
  simpa using hbreak

end IsRadixLetter

theorem radixLength_cons (lower upper letter : Char) (isRadixDigit : Char → Bool)
    (digits : List Char) :
    radixLength lower upper isRadixDigit ('0' :: letter :: digits) =
      if (letter = lower ∨ letter = upper) ∧ 0 < countWhile isRadixDigit digits then
        2 + countWhile isRadixDigit digits else 0 :=
  rfl

/-- What is taken whole as a radix form is a zero, a letter and at least one character. -/
theorem exists_of_radixLength {lower upper : Char} {isRadixDigit : Char → Bool} (hne : cs ≠ [])
    (h : radixLength lower upper isRadixDigit cs = cs.length) :
    ∃ letter digits, cs = '0' :: letter :: digits ∧ (letter = lower ∨ letter = upper) ∧
      digits ≠ [] := by
  have hzero : radixLength lower upper isRadixDigit cs ≠ 0 := by
    rw [h]
    exact mt List.eq_nil_of_length_eq_zero hne
  unfold radixLength at hzero
  split at hzero
  · rename_i letter digits
    dsimp only at hzero
    split at hzero
    · rename_i hletter
      refine ⟨letter, digits, rfl, hletter.1, ?_⟩
      rintro rfl
      exact Nat.lt_irrefl 0 hletter.2
    · exact absurd rfl hzero
  · exact absurd rfl hzero

/-! ## The longest form -/

/-- Forms that are shorter do not become the longest. -/
theorem foldl_longer_lt {bound : Nat} {forms : List NumberForm}
    (h : ∀ form ∈ forms, form.length cs < bound) {best : NumberForm × Nat}
    (hbest : best.2 < bound) : (forms.foldl (longer cs) best).2 < bound := by
  induction forms generalizing best with
  | nil => exact hbest
  | cons form forms ih =>
    obtain ⟨hform, hforms⟩ := List.forall_mem_cons.mp h
    apply ih hforms
    unfold longer
    split
    · exact hform
    · exact hbest

/-- What is not shorter than any form stays the longest. -/
theorem foldl_longer_eq (forms : List NumberForm) {best : NumberForm × Nat}
    (h : ∀ form : NumberForm, form.length cs ≤ best.2) : forms.foldl (longer cs) best = best := by
  induction forms with
  | nil => rfl
  | cons form forms ih =>
    have hbest : longer cs best form = best := if_neg (Nat.not_lt.mpr (h form))
    rw [List.foldl_cons, hbest, ih]

/-- A form that the whole text has is the longest, if no earlier one has it all. -/
theorem longest_of_length (hne : cs ≠ []) (hform : form.length cs = cs.length)
    (hearlier : ∀ other ∈ all.takeWhile (· ≠ form), other.length cs < cs.length) :
    longest cs = (form, cs.length) := by
  obtain ⟨later, hall⟩ : ∃ later, all = all.takeWhile (· ≠ form) ++ form :: later := by
    cases form <;> exact ⟨_, rfl⟩
  have hnone : ((word, 0) : NumberForm × Nat).2 < cs.length := List.length_pos_iff.mpr hne
  have hbest := foldl_longer_lt hearlier hnone
  have hlonger (best : NumberForm × Nat) (hbest : best.2 < cs.length) :
      longer cs best form = (form, cs.length) := by
    unfold longer
    rw [hform, if_pos hbest]
  rw [longest_eq, hall, List.foldl_append, List.foldl_cons, hlonger _ hbest]
  refine foldl_longer_eq later fun other => ?_
  have hle := other.length_bounded cs .nil
  rwa [List.append_nil] at hle

/-! ## Forms with a radix letter -/

/-- The forms with a radix letter behind a zero: the letter in both cases, the digits that are
taken, the radix, and what is wrong if they are not all of that radix. -/
inductive RadixForm : NumberForm → Char → Char → (Char → Bool) → Nat → LexFault → Prop
  | hex : RadixForm .hex 'x' 'X' (isDigitOf 16) 16 .unknownChar
  | octal : RadixForm .octal 'o' 'O' isDigit 8 .invalidOctal
  | binary : RadixForm .binary 'b' 'B' isDigit 2 .invalidBinary

namespace RadixForm

variable {form : NumberForm} {lower upper : Char} {isTaken : Char → Bool} {radix : Nat}
  {fault : LexFault}

theorem length_eq (h : RadixForm form lower upper isTaken radix fault) (cs : List Char) :
    form.length cs = radixLength lower upper isTaken cs := by
  cases h <;> rfl

theorem token?_eq (h : RadixForm form lower upper isTaken radix fault) (cs : List Char) :
    form.token? cs = (radixValue? radix fault (cs.drop 2)).map .number := by
  cases h <;> rfl

variable {letter : Char}

theorem radixOf?_eq (h : RadixForm form lower upper isTaken radix fault)
    (hletter : letter = lower ∨ letter = upper) : radixOf? letter = some radix := by
  cases h <;> rcases hletter with rfl | rfl <;> rfl

theorem exists_of_radixOf? (h : radixOf? letter = some radix) :
    ∃ form lower upper isTaken fault, RadixForm form lower upper isTaken radix fault ∧
      (letter = lower ∨ letter = upper) := by
  unfold radixOf? at h
  split at h
  · rcases Option.some.inj h with rfl
    exact ⟨_, _, _, _, _, hex, ‹_›⟩
  split at h
  · rcases Option.some.inj h with rfl
    exact ⟨_, _, _, _, _, octal, ‹_›⟩
  split at h
  · rcases Option.some.inj h with rfl
    exact ⟨_, _, _, _, _, binary, ‹_›⟩
  · simp at h

theorem isTaken_of_isDigitOf (h : RadixForm form lower upper isTaken radix fault) {c : Char}
    (hc : isDigitOf radix c = true) : isTaken c = true := by
  have hsmall (bound : Nat) (hbound : bound ≤ 10) (hc : isDigitOf bound c = true) :
      isDigit c = true := by
    unfold isDigitOf at hc
    split at hc
    · rename_i digit hdigit
      rw [decide_eq_true_eq] at hc
      unfold digitValue? at hdigit
      split at hdigit
      · rename_i hbounds
        simpa [isDigit] using hbounds
      -- letters stand for ten and more
      · split at hdigit
        · have := Option.some.inj hdigit
          omega
        · split at hdigit
          · have := Option.some.inj hdigit
            omega
          · simp at hdigit
    · simp at hc
  cases h with
  | hex => exact hc
  | octal => exact hsmall 8 (by decide) hc
  | binary => exact hsmall 2 (by decide) hc

/-- The forms that come earlier are shorter. -/
theorem length_lt_of_earlier (h : RadixForm form lower upper isTaken radix fault)
    (hletter : letter = lower ∨ letter = upper) {digits : List Char} (hdigits : digits ≠ []) :
    ∀ other ∈ all.takeWhile (· ≠ form),
      other.length ('0' :: letter :: digits) < ('0' :: letter :: digits).length := by
  have hradix := isRadixLetter_of_radixOf? (h.radixOf?_eq hletter)
  -- The forms that are tried before this one: two of them read a part, and the rest nothing.
  have hother : ∀ other ∈ all.takeWhile (· ≠ form), other = brokenExponent ∨ other = decimal ∨
      other.length ('0' :: letter :: digits) = 0 := by
    cases h with
    | hex => simp [all]
    | octal => rcases hletter with rfl | rfl <;> simp [all, length, radixLength_cons]
    | binary => rcases hletter with rfl | rfl <;> simp [all, length, radixLength_cons]
  intro other hmem
  rw [List.length_cons, List.length_cons]
  rcases hother other hmem with rfl | rfl | hzero
  · rw [hradix.length_brokenExponent]
    omega
  · have hpos : 0 < digits.length := List.length_pos_iff.mpr hdigits
    rw [hradix.length_decimal]
    omega
  · rw [hzero]
    omega

/-- A radix form that takes the whole text is the longest, and the first of its length. -/
theorem longest_eq (h : RadixForm form lower upper isTaken radix fault) {cs : List Char}
    (hne : cs ≠ []) (hform : form.length cs = cs.length) : longest cs = (form, cs.length) := by
  obtain ⟨letter, digits, rfl, hletter, hdigits⟩ :=
    exists_of_radixLength hne ((h.length_eq cs).symm.trans hform)
  exact longest_of_length hne hform (h.length_lt_of_earlier hletter hdigits)

end RadixForm

theorem decimal_or_radixForm (h : form.token? cs = .ok (.number d)) :
    form = decimal ∨ ∃ lower upper isTaken radix fault,
      RadixForm form lower upper isTaken radix fault := by
  cases form with
  | brokenExponent | word => simp [token?] at h
  | bigInt =>
    simp only [token?] at h
    split at h <;> simp at h
  | decimal => exact .inl rfl
  | hex => exact .inr ⟨_, _, _, _, _, .hex⟩
  | octal => exact .inr ⟨_, _, _, _, _, .octal⟩
  | binary => exact .inr ⟨_, _, _, _, _, .binary⟩

theorem longest_of_decimal (hne : cs ≠ []) (h : decimal.length cs = cs.length) :
    longest cs = (decimal, cs.length) := by
  refine longest_of_length hne h fun other hother => ?_
  obtain rfl : other = brokenExponent := by simpa [all] using hother
  rw [length_brokenExponent_eq_zero h]
  exact List.length_pos_iff.mpr hne

/-- If a whole text spells a number, then so it is read. -/
theorem longest_of_token? (hne : cs ≠ []) (hform : form.length cs = cs.length)
    (h : form.token? cs = .ok (.number d)) : longest cs = (form, cs.length) := by
  rcases decimal_or_radixForm h with rfl | ⟨_, _, _, _, _, hradix⟩
  · exact longest_of_decimal hne hform
  · exact hradix.longest_eq hne hform

/-! ## Spelled values -/

theorem radixValue?_eq_ok_iff {fault : LexFault} {digits : List Char} :
    radixValue? radix fault digits = .ok d ↔
      (∀ c ∈ digits, isDigitOf radix c = true) ∧ Decimal.ofRadix? radix digits = some d := by
  unfold radixValue?
  rw [← List.all_eq_true]
  split
  · rename_i hdigits
    cases Decimal.ofRadix? radix digits <;> simp [hdigits]
  · simp [*]

theorem map_number_eq_ok_iff {value : Except LexFault Decimal} :
    value.map Token.number = .ok (.number d) ↔ value = .ok d := by
  cases value <;> simp [Except.map]

/-- A text with a radix letter spells a number if all its digits are of that radix. -/
theorem spelledBy_radix_iff {letter : Char} (hletter : radixOf? letter = some radix)
    {body : List Char} :
    Token.SpelledBy (.number d) ('0' :: letter :: body) ↔
      body ≠ [] ∧ (∀ c ∈ body, isDigitOf radix c = true) ∧
        Decimal.ofRadix? radix body = some d := by
  constructor
  · rintro ⟨form, hform, htoken⟩
    -- A decimal form stops in front of the letter; a radix form has the letter's own radix.
    rcases decimal_or_radixForm htoken with rfl | ⟨lower, upper, _, radix', _, hradix⟩
    · rw [(isRadixLetter_of_radixOf? hletter).length_decimal] at hform
      simp at hform
    · obtain ⟨_, _, hcs, hletter', hbody⟩ :=
        exists_of_radixLength (by simp) ((hradix.length_eq _).symm.trans hform)
      rcases hcs with ⟨⟩
      obtain rfl : radix' = radix :=
        Option.some.inj ((hradix.radixOf?_eq hletter').symm.trans hletter)
      rw [hradix.token?_eq, map_number_eq_ok_iff] at htoken
      exact ⟨hbody, radixValue?_eq_ok_iff.mp htoken⟩
  · rintro ⟨hbody, hdigits, hvalue⟩
    obtain ⟨form, lower, upper, isTaken, fault, hradix, hletter'⟩ :=
      RadixForm.exists_of_radixOf? hletter
    refine ⟨form, ?_, ?_⟩
    -- All of the body are digits of the radix, so the form takes the whole text.
    · have hpos : 0 < body.length := List.length_pos_iff.mpr hbody
      have hcount := countWhile_of_all fun c hc => hradix.isTaken_of_isDigitOf (hdigits c hc)
      rw [hradix.length_eq, radixLength_cons, hcount, if_pos ⟨hletter', hpos⟩, List.length_cons,
        List.length_cons]
      omega
    · rw [hradix.token?_eq, map_number_eq_ok_iff]
      exact radixValue?_eq_ok_iff.mpr ⟨hdigits, hvalue⟩

/-- A numeral is read as a decimal literal. -/
theorem spelledBy_numeral_iff (n : Numeral) :
    Token.SpelledBy (.number d) n.unsignedChars ↔ decimalValue? n.unsignedChars = .ok d := by
  have hdecimal := length_decimal_chars n
  constructor
  · rintro ⟨form, hform, htoken⟩
    rcases decimal_or_radixForm htoken with rfl | ⟨_, _, _, _, _, hradix⟩
    · exact map_number_eq_ok_iff.mp htoken
    · have hne : n.unsignedChars ≠ [] := by
        obtain ⟨c, rest, hchars, -⟩ := n.mantissa.exists_chars_eq_cons
        simp [Numeral.unsignedChars, hchars]
      -- there is one longest form only
      have hlongest := (hradix.longest_eq hne hform).symm.trans (longest_of_decimal hne hdecimal)
      obtain ⟨rfl, -⟩ := Prod.mk.inj hlongest
      cases hradix
  · exact fun h => ⟨decimal, hdecimal, map_number_eq_ok_iff.mpr h⟩

/-- A decimal form is read as octal digits if it is one, and as a numeral otherwise. -/
theorem decimalValue?_chars (n : Numeral) :
    (decimalValue? n.unsignedChars).toOption =
      if n.exponent = 0 ∧ Decimal.isLeadingZeroOctal n.mantissa.chars = true then
        some (.ofInt (Nat.ofDigitChars 8 n.mantissa.chars 0))
      else n.word?.bind (Decimal.ofParts? n.mantissa.whole n.mantissa.fraction) := by
  have hexponent : ((n.exponent?.map fun e => e.sign.chars ++ e.digits).getD ['0'] |>
      Decimal.readExponent?) = n.word? := by
    unfold Numeral.word?
    cases n.exponent? with
    | none =>
      exact Decimal.readExponent?_chars
        ⟨'e', .absent, ['0'], .inl rfl, List.forall_mem_singleton.mpr rfl, List.cons_ne_nil _ _⟩
    | some e => exact Decimal.readExponent?_chars e
  unfold decimalValue? Numeral.unsignedChars
  rw [Decimal.splitExponent_chars (Decimal.isNoMark_of_mem_chars n.mantissa)]
  dsimp only
  rw [hexponent]
  cases hword : n.word? with
  | none =>
    -- no word, and so not zero
    have hne : n.exponent ≠ 0 := by
      intro hzero
      rw [Numeral.word?_eq, hzero] at hword
      exact absurd hword (by decide)
    rw [if_neg fun h => hne h.1]
    rfl
  | some exponent =>
    have hzero : exponent = 0 ↔ n.exponent = 0 := by
      rw [← Numeral.toInt_of_word? hword, ← Int64.toInt_inj]
      rfl
    dsimp only
    simp only [hzero]
    split
    · rename_i hoctal
      rw [Decimal.ofRadix?_of_octal (Decimal.isLeadingZeroOctal_iff.mp hoctal.2)]
      rfl
    · rw [Decimal.splitPoint_chars, Option.bind_some]
      dsimp only
      split <;> simp [Except.toOption, *]

theorem isDigit_of_countWhile (h : countWhile isDigit (c :: cs) ≠ 0) : isDigit c = true := by
  by_contra hc
  exact h (congrArg List.length (List.takeWhile_cons_of_neg hc))

/-- A mantissa begins as the lexer expects of numbers. -/
theorem startsNumber_of_mantissaLength {rest : List Char} (h : mantissaLength (c :: rest) ≠ 0) :
    Scan.StartsNumber c rest := by
  by_cases hc : c = '.'
  · subst hc
    rw [mantissaLength_point] at h
    cases rest with
    | nil => exact absurd rfl h
    | cons d rest =>
      have hdigit : countWhile isDigit (d :: rest) ≠ 0 := by
        intro hzero
        exact h (if_pos hzero)
      exact .inr ⟨rfl, isDigit_of_countWhile hdigit⟩
  · have hdigit : countWhile isDigit (c :: rest) ≠ 0 := by
      intro hzero
      apply h
      rw [mantissaLength_eq]
      simp [chosenLength, followedLength, hc, hzero]
    exact .inl (isDigit_of_countWhile hdigit)

theorem startsNumber_of_token? {rest : List Char}
    (hform : form.length (c :: rest) = (c :: rest).length)
    (h : form.token? (c :: rest) = .ok (.number d)) : Scan.StartsNumber c rest := by
  rcases decimal_or_radixForm h with rfl | ⟨_, _, _, _, _, hradix⟩
  · refine startsNumber_of_mantissaLength fun hzero => ?_
    simp [length, hzero] at hform
  · obtain ⟨_, _, hcs, -⟩ :=
      exists_of_radixLength (by simp) ((hradix.length_eq _).symm.trans hform)
    rcases hcs with ⟨⟩
    exact .inl (by decide)

end NumberForm

/-! ## One token -/

/-- Where a number begins the lexer reads a number, whatever came before. -/
theorem Scan.next_number {c : Char} {rest : List Char} (h : StartsNumber c rest)
    (previous : Option Token) : next previous c rest = number (c :: rest) := by
  have hc : isBreak c = false ∧ c ≠ '\'' ∧ c ≠ '"' := by
    rcases h with hdigit | ⟨rfl, -⟩
    · refine ⟨?_, ne_of_isDigit hdigit (by decide), ne_of_isDigit hdigit (by decide)⟩
      by_contra hbreak
      have hspared : SparesBreaks isDigit := by decide
      exact Bool.false_ne_true ((hspared.of_isBreak (by simpa using hbreak)).symm.trans hdigit)
    · decide
  obtain ⟨hlayout, hslash⟩ : isLayout c = false ∧ c ≠ '/' := by simpa [isBreak] using hc.1
  unfold next
  rw [if_neg (by simp [hlayout]), if_neg hslash, if_neg (by simp [hc.2]), if_pos h]

/-- Only the empty text has no bytes. -/
theorem eq_nil_of_byteLength (h : byteLength cs = 0) : cs = [] := by
  cases cs with
  | nil => rfl
  | cons c cs =>
    have hpos := Char.utf8Size_pos c
    rw [byteLength_cons] at h
    omega

theorem tokenize_of_spelledBy {text : String} (hne : text.toList ≠ []) {d : Decimal}
    (h : Token.SpelledBy (.number d) text.toList) :
    tokenize text = .ok [⟨.number d, ⟨0, text.utf8ByteSize⟩, 1⟩] := by
  obtain ⟨form, hform, htoken⟩ := h
  have hlongest := NumberForm.longest_of_token? hne hform htoken
  rw [utf8ByteSize_eq, tokenize]
  cases htext : text.toList with
  | nil => exact absurd htext hne
  | cons c rest =>
    rw [htext] at hform htoken hlongest
    -- The longest form takes the whole text, so nothing is left to scan behind it.
    have hnumber : Scan.number (c :: rest) = .token (.number d) rest.length := by
      unfold Scan.number
      rw [hlongest]
      dsimp only
      rw [List.take_length, htoken, List.length_cons, Nat.add_sub_cancel]
    have hstart := NumberForm.startsNumber_of_token? hform htoken
    have hfront : byteLength [] = ({} : Position).offset := rfl
    have hoffset := Position.offset_behind hfront c rest.length rest
    rw [show byteLength [] = 0 from rfl, Nat.zero_add] at hoffset
    rw [tokenizeFrom, Scan.next_number hstart, hnumber]
    dsimp only
    rw [Position.advance_snd, List.drop_length, tokenizeFrom, hoffset, List.take_length]
    rfl

/-- The whole text is one token, a number, if and only if it spells that number. -/
theorem tokenize_eq_number_iff {text : String} {d : Decimal} :
    tokenize text = .ok [⟨.number d, ⟨0, text.utf8ByteSize⟩, 1⟩] ↔
      text.toList ≠ [] ∧ Token.SpelledBy (.number d) text.toList := by
  constructor
  · intro h
    obtain ⟨behind, hbehind, hparts⟩ := parts_of_tokenizeFrom h [] rfl rfl
    rw [utf8ByteSize_eq] at hbehind
    generalize text.toList = cs at hbehind hparts
    cases hparts with
    | last => simp at hbehind
    | @word _ gap word rest c lexeme lexemes hgap hc hstands hrest =>
      obtain ⟨rfl, rfl⟩ := List.cons.inj hbehind
      -- the gap in front and the text behind take up no bytes
      have hspan := hstands.span
      rw [Span.mk.injEq, List.nil_append] at hspan
      have hlength := byteLength_append gap (c :: word ++ rest)
      rw [byteLength_append (c :: word)] at hlength
      obtain rfl : gap = [] := eq_nil_of_byteLength hspan.1.symm
      obtain rfl : rest = [] := by
        refine eq_nil_of_byteLength ?_
        rw [List.cons_append] at hlength
        omega
      rw [List.append_nil, List.nil_append]
      exact ⟨by simp, hstands.written.spelled⟩
  · exact fun ⟨hne, h⟩ => tokenize_of_spelledBy hne h

end MeteredScript
