import MeteredScript.Proofs.Literals

namespace MeteredScript

/-! # Literals and texts

A number can be a literal of a program, or a string that is used as a number. Both readings follow
rules of their own. Main statement: they agree on a text, or both refuse it, unless the text has a
sign or `_` behind a radix letter, which only strings may have, or is an octal number with an exponent
of zero, which is octal only as a literal.
-/

open Text

/-! ## Texts that stand for numbers -/

namespace Decimal

theorem readTrimmed_radix {letter : Char} {radix : Nat}
    (h : NumberForm.radixOf? letter = some radix) (body : List Char) :
    readTrimmed ('0' :: letter :: body) = .ok (ofRadix? radix body) := by
  obtain ⟨_, _, _, _, _, hradix, hletter⟩ := NumberForm.RadixForm.exists_of_radixOf? h
  rw [readTrimmed, dropBytes_two]
  cases hradix <;> rcases hletter with rfl | rfl <;> rfl

/-- A text that starts like a radix form has a letter and a rest. -/
theorem exists_of_startsRadix {cs : List Char} (h : StartsRadix cs) :
    ∃ letter radix body, cs = '0' :: letter :: body ∧
      NumberForm.radixOf? letter = some radix := by
  obtain ⟨letter, hletter, hcs⟩ := List.any_eq_true.mp h
  obtain ⟨body, rfl⟩ := List.isPrefixOf_iff_prefix.mp hcs
  have hall : ['x', 'X', 'o', 'O', 'b', 'B'].all
      (fun letter => (NumberForm.radixOf? letter).isSome) = true := rfl
  have hradix := List.all_eq_true.mp hall letter hletter
  obtain ⟨radix, hradix⟩ := Option.isSome_iff_exists.mp hradix
  exact ⟨letter, radix, body, rfl, hradix⟩

theorem startsRadix_of_radixOf? {letter : Char} {radix : Nat}
    (h : NumberForm.radixOf? letter = some radix) (body : List Char) :
    StartsRadix ('0' :: letter :: body) := by
  obtain ⟨_, _, _, _, _, hradix, hletter⟩ := NumberForm.RadixForm.exists_of_radixOf? h
  cases hradix <;> rcases hletter with rfl | rfl <;> rfl

theorem not_startsRadix_numeral (n : Numeral) : ¬StartsRadix n.unsignedChars := by
  intro h
  obtain ⟨letter, radix, body, hcs, hradix⟩ := exists_of_startsRadix h
  have hletter := NumberForm.isRadixLetter_of_radixOf? hradix
  have hlength := NumberForm.length_decimal_chars n
  rw [hcs, hletter.length_decimal] at hlength
  simp at hlength

theorem isCut_of_ascii {cs : List Char} (h : ∀ c ∈ cs, c.toNat < 0x80) : isCut cs = false := by
  unfold isCut
  split
  · rename_i c rest
    exact decide_eq_false (Nat.not_le.mpr (h c (by simp)))
  · rfl

theorem toNat_lt_of_isDigit {c : Char} (h : isDigit c = true) : c.toNat < 0x80 := by
  have hlt := digitOf_lt_ten h
  have hzero : '0'.toNat = 48 := rfl
  unfold digitOf at hlt
  omega

/-- Numerals are spelled in ASCII. -/
theorem isCut_numeral (n : Numeral) : isCut n.unsignedChars = false := by
  refine isCut_of_ascii fun c hc => ?_
  -- a mantissa is digits and a point, an exponent its mark, a sign and digits
  rcases List.mem_append.mp hc with hc | hc
  · exact n.mantissa.forall_mem_chars (fun c => toNat_lt_of_isDigit) (by decide) c hc
  · cases he : n.exponent? with
    | none => simp [he] at hc
    | some e =>
      rw [he] at hc
      rcases List.mem_cons.mp hc with rfl | hc
      · rcases e.mark_eq with hmark | hmark <;> rw [hmark] <;> decide
      · rcases List.mem_append.mp hc with hc | hc
        · have hsign : ∀ s : SignMark, ∀ c ∈ s.chars, c.toNat < 0x80 := by
            intro s
            cases s <;> simp [SignMark.chars]
          exact hsign e.sign c hc
        · exact toNat_lt_of_isDigit (e.isDigit c hc)

theorem readTrimmed_numeral (n : Numeral) :
    readTrimmed n.unsignedChars = .ok
      (if isLeadingZeroOctal n.unsignedChars then
        some (ofInt (Nat.ofDigitChars 8 n.unsignedChars 0))
      else n.word?.bind (ofParts? n.mantissa.whole n.mantissa.fraction)) := by
  rw [readTrimmed_of_not_startsRadix (isCut_numeral n) (not_startsRadix_numeral n), Except.ok.injEq,
    readDecimal?]
  split
  · rename_i hoctal
    exact ofRadix?_of_octal (isLeadingZeroOctal_iff.mp hoctal)
  · rw [splitSign_of_unsigned n.unsigned_unsignedChars]
    dsimp only
    rw [readUnsigned?_chars]
    exact Option.map_id'

end Decimal

/-! ## Digits of a radix -/

/-- Digits of the radix, perhaps with `_` between or behind them. -/
structure DigitRun (radix : Nat) (digits : List Char) : Prop where
  ne_nil : digits ≠ []
  head_ne : digits.head? ≠ some '_'
  digit : ∀ c ∈ digits, c = '_' ∨ isDigitOf radix c = true

namespace Text

variable {cs : List Char} {radix : Nat}

theorem isSome_readDigits_iff {read : List Nat} :
    (readDigits radix read cs).isSome = true ↔ ∀ c ∈ cs, c = '_' ∨ isDigitOf radix c = true := by
  fun_induction readDigits radix read cs with
  | case1 read => simp
  | case2 read rest ih => simp [ih]
  | case3 read c rest hline digit hdigit hlt ih => simp [ih, isDigitOf, hdigit, hlt]
  | case4 read c rest hline digit hdigit hlt => simp [isDigitOf, hdigit, hlt, hline]
  | case5 read c rest hline hdigit => simp [isDigitOf, hdigit, hline]

theorem unsigned_of_digitRun {digits : List Char} (h : DigitRun radix digits) :
    Unsigned digits := by
  have hsign {sign : Char} (hvalue : digitValue? sign = none) (hline : sign ≠ '_') :
      digits.head? ≠ some sign := by
    intro hhead
    rcases h.digit sign (List.mem_of_head? hhead) with hsign | hsign
    · exact hline hsign
    · simp [isDigitOf, hvalue] at hsign
  constructor
  · exact hsign rfl (by decide)
  · exact hsign rfl (by decide)

/-- A natural number does not begin with `_`. -/
theorem isSome_natural?_iff (hplus : cs.head? ≠ some '+') :
    (natural? radix cs).isSome = true ↔ DigitRun radix cs := by
  cases cs with
  | nil =>
    constructor
    · intro h
      simp [natural?] at h
    · intro h
      exact absurd rfl h.ne_nil
  | cons c rest =>
    have hc : c ≠ '+' := by simpa using hplus
    -- the first character alone decides between the two rules
    by_cases hline : c = '_'
    · subst hline
      constructor
      · intro h
        simp [natural?] at h
      · intro h
        exact absurd rfl h.head_ne
    · have hnatural : (natural? radix (c :: rest)).isSome =
          (readDigits radix [] (c :: rest)).isSome := by
        simp [natural?, hc, hline]
      rw [hnatural, isSome_readDigits_iff]
      constructor
      · intro h
        exact ⟨by simp, by simpa using hline, h⟩
      · intro h
        exact h.digit

/-- A single plus sign may stand in front. -/
theorem isSome_natural?_plus {rest : List Char} :
    (natural? radix ('+' :: rest)).isSome = true ↔ DigitRun radix rest := by
  by_cases hplus : rest.head? = some '+'
  · -- the second sign is taken for a digit, and is none
    constructor
    · intro h
      simp [natural?, hplus, readDigits, digitValue?] at h
    · intro h
      exact absurd hplus (unsigned_of_digitRun h).1
  · have hnatural : natural? radix ('+' :: rest) = natural? radix rest := by
      cases rest with
      | nil => rfl
      | cons c rest =>
        have hc : c ≠ '+' := by simpa using hplus
        simp [natural?, hc]
    rw [hnatural, isSome_natural?_iff hplus]

/-- Which digits are read in a radix: one sign may be in front. -/
theorem isSome_integer?_iff :
    (integer? radix cs).isSome = true ↔
      ∃ (s : SignMark) (digits : List Char), cs = s.chars ++ digits ∧ DigitRun radix digits := by
  constructor
  · intro h
    unfold integer? at h
    split at h
    · rename_i rest
      split at h
      · simp at h
      · rename_i hplus
        rw [Option.isSome_map, isSome_natural?_iff hplus] at h
        exact ⟨.minus, rest, rfl, h⟩
    · rw [Option.isSome_map] at h
      -- a plus sign is left to the reader of natural numbers
      by_cases hplus : cs.head? = some '+'
      · obtain ⟨rest, rfl⟩ := List.head?_eq_some_iff.mp hplus
        exact ⟨.plus, rest, rfl, isSome_natural?_plus.mp h⟩
      · exact ⟨.absent, cs, rfl, (isSome_natural?_iff hplus).mp h⟩
  · rintro ⟨s, digits, rfl, hdigits⟩
    obtain ⟨hplus, hminus⟩ := unsigned_of_digitRun hdigits
    cases s with
    | absent =>
      have hinteger : integer? radix digits = (natural? radix digits).map Int.ofNat := by
        unfold integer?
        split
        · exact absurd rfl hminus
        · rfl
      rw [SignMark.chars, List.nil_append, hinteger, Option.isSome_map]
      exact (isSome_natural?_iff hplus).mpr hdigits
    | plus =>
      have hinteger : integer? radix ('+' :: digits) =
          (natural? radix ('+' :: digits)).map Int.ofNat := rfl
      rw [SignMark.chars, List.singleton_append, hinteger, Option.isSome_map]
      exact isSome_natural?_plus.mpr hdigits
    | minus =>
      rw [SignMark.chars, List.singleton_append, integer?, if_neg hplus, Option.isSome_map]
      exact (isSome_natural?_iff hplus).mpr hdigits

end Text

/-! ## Where both agree -/

/-- Digits behind a radix letter with a sign in front of them or `_` among them. -/
def LooseRadix (cs : List Char) : Prop :=
  ∃ (letter : Char) (radix : Nat) (s : SignMark) (digits : List Char),
    cs = '0' :: letter :: (s.chars ++ digits) ∧ NumberForm.radixOf? letter = some radix ∧
      DigitRun radix digits ∧ (s ≠ .absent ∨ '_' ∈ digits)

/-- Octal digits behind a zero that spell another number in decimal, with an exponent of zero. -/
def ZeroExponentOctal (cs : List Char) : Prop :=
  ∃ (digits : List Char) (e : ExponentPart), cs = digits ++ e.chars ∧ LeadingZeroOctal digits ∧
    e.value = 0 ∧ Nat.ofDigitChars 8 digits 0 ≠ Nat.ofDigitChars 10 digits 0

/-- A text is loose if it has a value without being digits only. -/
theorem looseRadix_iff {letter : Char} {radix : Nat}
    (hletter : NumberForm.radixOf? letter = some radix) {body : List Char} :
    LooseRadix ('0' :: letter :: body) ↔
      (Decimal.ofRadix? radix body).isSome = true ∧ ¬∀ c ∈ body, isDigitOf radix c = true := by
  unfold Decimal.ofRadix?
  rw [Option.isSome_map, isSome_integer?_iff]
  constructor
  · rintro ⟨_, radix', s, digits, hcs, hletter', hdigits, hloose⟩
    rcases hcs with ⟨⟩
    obtain rfl : radix' = radix := Option.some.inj (hletter'.symm.trans hletter)
    refine ⟨⟨s, digits, rfl, hdigits⟩, ?_⟩
    intro hall
    rcases hloose with hsign | hline
    · cases s with
      | absent => exact hsign rfl
      | plus => exact absurd (hall '+' List.mem_cons_self) (by simp [isDigitOf, digitValue?])
      | minus => exact absurd (hall '-' List.mem_cons_self) (by simp [isDigitOf, digitValue?])
    · exact absurd (hall '_' (List.mem_append_right _ hline)) (by simp [isDigitOf, digitValue?])
  · rintro ⟨⟨s, digits, rfl, hdigits⟩, hnot⟩
    refine ⟨letter, radix, s, digits, rfl, hletter, hdigits, ?_⟩
    -- without both, these are plain digits
    by_contra hplain
    rw [not_or, not_not] at hplain
    obtain ⟨rfl, hline⟩ := hplain
    refine hnot fun c hc => ?_
    rcases hdigits.digit c hc with rfl | hdigit
    · exact absurd hc hline
    · exact hdigit

namespace LeadingZeroOctal

variable {digits : List Char}

theorem isDigit_of_mem (h : LeadingZeroOctal digits) : ∀ c ∈ digits, isDigit c = true := by
  intro c hc
  refine isDigit_of_isOctalDigit ?_
  simpa [isOctalDigit] using h.octal c hc

def mantissa (h : LeadingZeroOctal digits) : Mantissa where
  whole := digits
  fraction? := none
  whole_digits := h.isDigit_of_mem
  fraction_digits := by simp
  ne_nil := by
    rw [Option.getD_none, List.append_nil]
    exact List.length_pos_iff.mp (Nat.lt_of_succ_lt h.two_le_length)

theorem chars_mantissa (h : LeadingZeroOctal digits) : h.mantissa.chars = digits :=
  List.append_nil _

end LeadingZeroOctal

/-- Without a point, and without an exponent, digits spell an integer. -/
theorem Decimal.ofParts?_of_octal {m : Mantissa} (h : LeadingZeroOctal m.chars) :
    ofParts? m.whole m.fraction 0 = some (ofInt (Nat.ofDigitChars 10 m.chars 0)) := by
  cases hfraction : m.fraction? with
  | none =>
    have hexcess : m.excess (0 : Int64).toInt = -18 := by
      simp [Mantissa.excess, Mantissa.fraction, hfraction]
    rw [ofParts?_mantissa m (by decide) (.inl (by omega)), Mantissa.readScaled, if_neg (by omega),
      Mantissa.scaled_eq, hexcess]
    simp [Mantissa.chars, Mantissa.value, Mantissa.fraction, hfraction, ofInt, scale]
  | some fraction =>
    have hpoint : '.' ∈ m.chars := by simp [Mantissa.chars, hfraction]
    exact absurd (h.isDigit_of_mem '.' hpoint) (by decide)

theorem ExponentPart.value_congr {e e' : ExponentPart}
    (h : e'.sign.chars ++ e'.digits = e.sign.chars ++ e.digits) : e'.value = e.value := by
  have hsplit := Decimal.splitSign_chars e.sign (unsigned_of_digits e.isDigit)
  rw [← h, Decimal.splitSign_chars e'.sign (unsigned_of_digits e'.isDigit)] at hsplit
  obtain ⟨hsign, hdigits⟩ := Prod.mk.inj hsplit
  unfold value SignMark.apply
  rw [hsign, hdigits]

/-- A numeral with a zero exponent that would be octal without it, and is another number then. -/
theorem zeroExponentOctal_iff (n : Numeral) :
    ZeroExponentOctal n.unsignedChars ↔
      n.exponent? ≠ none ∧ n.exponent = 0 ∧ LeadingZeroOctal n.mantissa.chars ∧
        Nat.ofDigitChars 8 n.mantissa.chars 0 ≠ Nat.ofDigitChars 10 n.mantissa.chars 0 := by
  obtain ⟨_, m, e?⟩ := n
  constructor
  · rintro ⟨digits, e, hcs, hoctal, hzero, hvalue⟩
    -- there is one place only at which the text splits
    have hdigits := Decimal.isNoMark_of_mem_chars hoctal.mantissa
    rw [hoctal.chars_mantissa] at hdigits
    have hsplit := Decimal.splitExponent_chars (Decimal.isNoMark_of_mem_chars m) e?
    have hsplit' := Decimal.splitExponent_chars hdigits (some e)
    obtain ⟨rfl, hexponent⟩ := Prod.mk.inj (hsplit.symm.trans ((congrArg _ hcs).trans hsplit'))
    obtain ⟨e', rfl, he'⟩ := Option.map_eq_some_iff.mp hexponent
    exact ⟨by simp, (ExponentPart.value_congr he').trans hzero, hoctal, hvalue⟩
  · rintro ⟨hsome, hzero, hoctal, hvalue⟩
    cases e? with
    | none => exact absurd rfl hsome
    | some e => exact ⟨m.chars, e, rfl, hoctal, hzero, hvalue⟩

variable {d : Decimal} {cs : List Char}

theorem exists_numeral_of_zeroExponentOctal (h : ZeroExponentOctal cs) :
    ∃ n : Numeral, n.unsignedChars = cs := by
  obtain ⟨digits, e, rfl, hoctal, -⟩ := h
  refine ⟨⟨.absent, hoctal.mantissa, some e⟩, ?_⟩
  exact congrArg (· ++ e.chars) hoctal.chars_mantissa

theorem eq_ok_iff_toOption {value : Except LexFault Decimal} :
    value = .ok d ↔ value.toOption = some d := by
  cases value <;> simp [Except.toOption]

/-- Behind a radix letter, both agree on plain digits. -/
theorem agree_radix_iff {letter : Char} {radix : Nat}
    (hletter : NumberForm.radixOf? letter = some radix) {body : List Char} :
    (∀ d, Token.SpelledBy (.number d) ('0' :: letter :: body) ↔
      Decimal.readTrimmed ('0' :: letter :: body) = .ok (some d)) ↔
    ¬LooseRadix ('0' :: letter :: body) := by
  simp only [looseRadix_iff hletter, Decimal.readTrimmed_radix hletter, Except.ok.injEq]
  constructor
  · intro hagree hloose
    obtain ⟨d, hd⟩ := Option.isSome_iff_exists.mp hloose.1
    exact hloose.2 ((NumberForm.spelledBy_radix_iff hletter).mp ((hagree d).mpr hd)).2.1
  · intro hplain d
    rw [NumberForm.spelledBy_radix_iff hletter]
    constructor
    · intro h
      exact h.2.2
    · intro hd
      refine ⟨?_, ?_, hd⟩
      · rintro rfl
        exact absurd hd (by simp [Decimal.ofRadix?, integer?, natural?])
      -- what is read and is not digits only is loose
      · by_contra hnot
        exact hplain ⟨Option.isSome_iff_exists.mpr ⟨d, hd⟩, hnot⟩

/-- Different integers are different numbers. -/
theorem Decimal.ofInt_inj {a b : Int} : ofInt a = ofInt b ↔ a = b := by
  constructor
  · intro h
    exact Int.eq_of_mul_eq_mul_right (by decide : scale ≠ 0) (congrArg Decimal.raw h)
  · rintro rfl
    rfl

/-- An exponent letter is no octal digit. -/
theorem not_isLeadingZeroOctal_append (digits : List Char) (e : ExponentPart) :
    Decimal.isLeadingZeroOctal (digits ++ e.chars) = false := by
  rw [Bool.eq_false_iff, ne_eq, Decimal.isLeadingZeroOctal_iff]
  intro h
  have hmark : isDigit e.mark = true :=
    h.isDigit_of_mem _ (List.mem_append_right _ List.mem_cons_self)
  rcases e.mark_eq with he | he
  · rw [he] at hmark
    exact absurd hmark (by decide)
  · rw [he] at hmark
    exact absurd hmark (by decide)

/-- Both agree on a numeral, unless one of them takes it for an octal number because its exponent is
zero. -/
theorem agree_numeral_iff (n : Numeral) :
    (∀ d, Token.SpelledBy (.number d) n.unsignedChars ↔
      Decimal.readTrimmed n.unsignedChars = .ok (some d)) ↔
    ¬ZeroExponentOctal n.unsignedChars := by
  simp only [NumberForm.spelledBy_numeral_iff, eq_ok_iff_toOption, Decimal.readTrimmed_numeral,
    Except.ok.injEq]
  rw [← Option.ext_iff, NumberForm.decimalValue?_chars, zeroExponentOctal_iff]
  cases he : n.exponent? with
  -- without an exponent both read the same characters by the same rules
  | none =>
    have hchars : n.unsignedChars = n.mantissa.chars := by simp [Numeral.unsignedChars, he]
    have hzero : n.exponent = 0 := by simp [Numeral.exponent, he]
    rw [hchars]
    simp [hzero]
  | some e =>
    have hchars : n.unsignedChars = n.mantissa.chars ++ e.chars := by
      simp [Numeral.unsignedChars, he]
    rw [hchars, not_isLeadingZeroOctal_append]
    -- with one, only the literal may still be octal
    by_cases hoctal : n.exponent = 0 ∧ Decimal.isLeadingZeroOctal n.mantissa.chars = true
    · have hdigits := Decimal.isLeadingZeroOctal_iff.mp hoctal.2
      have hword : n.word? = some 0 := by
        rw [Numeral.word?_eq, hoctal.1]
        rfl
      rw [if_pos hoctal, if_neg Bool.false_ne_true, hoctal.1, hword, Option.bind_some,
        Decimal.ofParts?_of_octal hdigits, Option.some.injEq, Decimal.ofInt_inj, Int.ofNat_inj]
      simp [hdigits]
    · rw [if_neg hoctal, if_neg Bool.false_ne_true]
      refine iff_of_true rfl ?_
      rintro ⟨-, hzero, hdigits, -⟩
      exact hoctal ⟨hzero, Decimal.isLeadingZeroOctal_iff.mpr hdigits⟩

theorem startsRadix_of_looseRadix (h : LooseRadix cs) : StartsRadix cs := by
  obtain ⟨letter, radix, s, digits, rfl, hletter, -⟩ := h
  exact Decimal.startsRadix_of_radixOf? hletter _

/-- Without a radix letter, only numerals are literals. -/
theorem exists_numeral_of_spelledBy (hne : cs ≠ []) (hradix : ¬StartsRadix cs)
    (h : Token.SpelledBy (.number d) cs) : ∃ n : Numeral, n.unsignedChars = cs := by
  obtain ⟨form, hform, htoken⟩ := h
  rcases NumberForm.decimal_or_radixForm htoken with rfl | ⟨_, _, _, _, _, hletter⟩
  · obtain ⟨n, -, hn⟩ := NumberForm.exists_of_length_decimal hne hform
    exact ⟨n, hn⟩
  · obtain ⟨letter, digits, rfl, hletter', -⟩ :=
      NumberForm.exists_of_radixLength hne ((hletter.length_eq cs).symm.trans hform)
    exact absurd (Decimal.startsRadix_of_radixOf? (hletter.radixOf?_eq hletter') digits) hradix

/-- Without a radix letter and a sign, only numerals are read. -/
theorem exists_numeral_of_readTrimmed (hradix : ¬StartsRadix cs) (hsign : Unsigned cs)
    (h : Decimal.readTrimmed cs = .ok (some d)) : ∃ n : Numeral, n.unsignedChars = cs := by
  have hcut : Decimal.isCut cs = false := by
    cases hcut : Decimal.isCut cs with
    | false => rfl
    | true => exact absurd ((Decimal.readTrimmed_of_isCut hcut).symm.trans h) (by simp)
  rw [Decimal.readTrimmed_of_not_startsRadix hcut hradix, Except.ok.injEq] at h
  -- octal digits are a numeral, too
  cases hoctal : Decimal.isLeadingZeroOctal cs with
  | true =>
    have hoctal := Decimal.isLeadingZeroOctal_iff.mp hoctal
    refine ⟨⟨.absent, hoctal.mantissa, none⟩, ?_⟩
    exact (List.append_nil _).trans hoctal.chars_mantissa
  | false =>
    obtain ⟨n, hn⟩ := Decimal.exists_of_readDecimal? hoctal h
    refine ⟨n, ?_⟩
    rw [← hn] at hsign ⊢
    unfold Numeral.chars at hsign ⊢
    cases hs : n.sign with
    | absent => rfl
    | plus =>
      rw [hs] at hsign
      exact absurd rfl hsign.1
    | minus =>
      rw [hs] at hsign
      exact absurd rfl hsign.2

/-- A text is a number literal of the value that it stands for as a text, except in two cases. -/
theorem literal_agrees_iff (text : String) (hne : text ≠ "")
    (htrim : trim text.toList = text.toList) (hsign : Unsigned text.toList) :
    (∀ d, tokenize text = .ok [⟨.number d, ⟨0, text.utf8ByteSize⟩, 1⟩] ↔
      Decimal.parse text = .ok (some d)) ↔
    ¬LooseRadix text.toList ∧ ¬ZeroExponentOctal text.toList := by
  have hcs : text.toList ≠ [] := by simpa using hne
  have hparse : Decimal.parse text = Decimal.readTrimmed text.toList := by
    rw [Decimal.parse_eq, Decimal.ofChars_of_trim (htrim.symm ▸ hcs), htrim]
  simp only [tokenize_eq_number_iff, hcs, ne_eq, not_false_eq_true, true_and, hparse]
  generalize text.toList = cs at hsign hcs
  by_cases hradix : StartsRadix cs
  · -- no numeral has a radix letter
    have hzero : ¬ZeroExponentOctal cs := by
      intro h
      obtain ⟨n, rfl⟩ := exists_numeral_of_zeroExponentOctal h
      exact Decimal.not_startsRadix_numeral n hradix
    obtain ⟨letter, radix, body, rfl, hletter⟩ := Decimal.exists_of_startsRadix hradix
    rw [agree_radix_iff hletter, and_iff_left hzero]
  · have hloose : ¬LooseRadix cs := mt startsRadix_of_looseRadix hradix
    rw [and_iff_right hloose]
    by_cases hnumeral : ∃ n : Numeral, n.unsignedChars = cs
    · obtain ⟨n, rfl⟩ := hnumeral
      exact agree_numeral_iff n
    · -- neither of them reads anything else
      refine iff_of_true (fun d => iff_of_false ?_ ?_) ?_
      · exact mt (exists_numeral_of_spelledBy hcs hradix) hnumeral
      · exact mt (exists_numeral_of_readTrimmed hradix hsign) hnumeral
      · exact mt exists_numeral_of_zeroExponentOctal hnumeral

/-- An exponent of zero: the literal is octal and the text is decimal. -/
theorem literal_differs_at_zero_exponent :
    tokenize "017e0" = .ok [⟨.number (.ofInt 15), ⟨0, 5⟩, 1⟩] ∧
      Decimal.parse "017e0" = .ok (some (.ofInt 17)) := by
  constructor
  · exact eq_ok_of_toOption (by decide +kernel)
  · rw [Decimal.parse_eq]
    decide +kernel

theorem leadingZeroOctal_seventeen : LeadingZeroOctal ['0', '1', '7'] :=
  Decimal.isLeadingZeroOctal_iff.mp rfl

/-- An exponent of one digit. -/
def shortExponent (mark digit : Char) (hmark : mark = 'e' ∨ mark = 'E')
    (hdigit : isDigit digit = true) : ExponentPart where
  mark := mark
  sign := .absent
  digits := [digit]
  mark_eq := hmark
  isDigit := List.forall_mem_singleton.mpr hdigit
  ne_nil := List.cons_ne_nil digit []

/-- Both readings agree on `017e1`, which is 170, and differ on `017e0`. -/
theorem literal_agrees_seventeen :
    (∀ d, tokenize "017e1" = .ok [⟨.number d, ⟨0, 5⟩, 1⟩] ↔
        Decimal.parse "017e1" = .ok (some d)) ∧
      ¬∀ d, tokenize "017e0" = .ok [⟨.number d, ⟨0, 5⟩, 1⟩] ↔
        Decimal.parse "017e0" = .ok (some d) := by
  constructor
  · refine (literal_agrees_iff "017e1" (by decide) (by decide) ⟨by decide, by decide⟩).mpr ?_
    refine ⟨mt startsRadix_of_looseRadix (by decide), fun hzero => ?_⟩
    have hparts := (zeroExponentOctal_iff ⟨.absent, leadingZeroOctal_seventeen.mantissa,
      some (shortExponent 'e' '1' (.inl rfl) rfl)⟩).mp hzero
    exact absurd hparts.2.1 (by decide)
  · intro hagree
    have hzero :=
      ((literal_agrees_iff "017e0" (by decide) (by decide) ⟨by decide, by decide⟩).mp hagree).2
    exact hzero ⟨['0', '1', '7'], shortExponent 'e' '0' (.inl rfl) rfl, rfl,
      leadingZeroOctal_seventeen, by decide, by decide⟩

end MeteredScript
