import MeteredScript.Proofs.Coercion

namespace MeteredScript

/-! # Canonical texts of numbers

The text of a number has no superfluous zeros, at most eighteen fraction digits, and a sign only
below zero. Main statement: every number is read back from its text, both as a string and, if it is
not negative, as a literal. So different numbers have different texts.
-/

open Text

/-! ## Digits and blanks -/

namespace Text

theorem isDigit_of_mem_decimalDigits {n : Nat} : ∀ c ∈ decimalDigits n, isDigit c = true := by
  intro c hc
  rw [decimalDigits_eq] at hc
  have hdigit : c.isDigit = true := Nat.isDigit_of_mem_toDigits (by decide) (by decide) hc
  exact hdigit

theorem decimalDigits_ne_nil (n : Nat) : decimalDigits n ≠ [] := by
  rw [decimalDigits_eq]
  exact Nat.toDigits_ne_nil

theorem ofDigitChars_decimalDigits (n : Nat) : Nat.ofDigitChars 10 (decimalDigits n) 0 = n := by
  rw [decimalDigits_eq, Nat.ofDigitChars_ten_toDigits]

theorem eq_zero_of_head_decimalDigits {n : Nat} (h : (decimalDigits n).head? = some '0') :
    n = 0 := by
  rw [decimalDigits_eq] at h
  induction n using Nat.strongRecOn with
  | ind n ih =>
    by_cases hsmall : n < 10
    · rw [Nat.toDigits_of_lt_base hsmall, List.head?_cons, Option.some.injEq] at h
      exact Nat.digitChar_eq_zero.mp h
    · -- the first digit is that of a tenth
      rw [Nat.toDigits_of_base_le (by decide) (Nat.le_of_not_lt hsmall),
        List.head?_append_of_ne_nil _ Nat.toDigits_ne_nil] at h
      have htenth := ih (n / 10) (by omega) h
      omega

/-- A text without blanks is not trimmed. -/
theorem trim_eq_self {cs : List Char} (h : ∀ c ∈ cs, isBlank c = false) : trim cs = cs := by
  have hfront : ∀ cs : List Char, (∀ c ∈ cs, isBlank c = false) → cs.dropWhile isBlank = cs := by
    intro cs h
    cases cs with
    | nil => rfl
    | cons c cs => rw [List.dropWhile_cons, h c List.mem_cons_self, if_neg Bool.false_ne_true]
  have hback := hfront cs.reverse fun c hc => h c (List.mem_reverse.mp hc)
  rw [trim, hfront cs h, trimEnd_eq, hback, List.reverse_reverse]

theorem isBlank_of_isDigit {c : Char} (hc : isDigit c = true) : isBlank c = false := by
  unfold isDigit at hc
  rw [Bool.and_eq_true_iff, decide_eq_true_eq, decide_eq_true_eq] at hc
  have hge : 48 ≤ c.toNat := UInt32.le_iff_toNat_le.mp (Char.le_def.mp hc.1)
  have hle : c.toNat ≤ 57 := UInt32.le_iff_toNat_le.mp (Char.le_def.mp hc.2)
  have hspace : c ≠ ' ' := by
    rintro rfl
    exact absurd hge (by decide)
  have hline : ¬c ≤ '\r' := by
    intro hline
    have : c.toNat ≤ 13 := UInt32.le_iff_toNat_le.mp (Char.le_def.mp hline)
    omega
  rw [isBlank, if_pos (by omega)]
  simp [hspace, hline]

end Text

/-! ## Fraction digits -/

namespace Decimal

/-- The digits of a fraction, all eighteen of them. -/
def paddedFraction (fraction : Nat) : List Char :=
  List.replicate (fractionDigits - (decimalDigits fraction).length) '0' ++ decimalDigits fraction

theorem fractionChars_eq (fraction : Nat) :
    fractionChars fraction = ((paddedFraction fraction).reverse.dropWhile (· = '0')).reverse := rfl

/-- The text of a fraction lacks only zeros at its end. -/
theorem paddedFraction_eq (fraction : Nat) :
    ∃ k, paddedFraction fraction = fractionChars fraction ++ List.replicate k '0' := by
  have hsplit := List.takeWhile_append_dropWhile (p := (· = '0'))
    (l := (paddedFraction fraction).reverse)
  have hzeros : ∀ c ∈ (paddedFraction fraction).reverse.takeWhile (· = '0'), c = '0' := by
    intro c hc
    simpa using List.all_eq_true.mp List.all_takeWhile c hc
  refine ⟨((paddedFraction fraction).reverse.takeWhile (· = '0')).length, ?_⟩
  rw [fractionChars_eq, ← List.reverse_inj, List.reverse_append, List.reverse_reverse,
    List.reverse_replicate, ← List.eq_replicate_of_mem hzeros, hsplit]

variable {fraction : Nat}

theorem isDigit_of_mem_fractionChars : ∀ c ∈ fractionChars fraction, isDigit c = true := by
  intro c hc
  obtain ⟨k, hpadded⟩ := paddedFraction_eq fraction
  have hmem : c ∈ paddedFraction fraction := hpadded ▸ List.mem_append_left _ hc
  rcases List.mem_append.mp hmem with hzero | hdigit
  · rw [List.eq_of_mem_replicate hzero]
    rfl
  · exact isDigit_of_mem_decimalDigits c hdigit

/-- Fraction digits do not end in zero. -/
theorem getLast?_fractionChars (fraction : Nat) :
    (fractionChars fraction).getLast? ≠ some '0' := by
  intro hlast
  rw [fractionChars_eq, List.getLast?_reverse] at hlast
  have hhead := List.head?_dropWhile_not (· = '0') (paddedFraction fraction).reverse
  rw [hlast] at hhead
  simp at hhead

/-- With leading zeros there are eighteen fraction digits. -/
theorem length_paddedFraction (hlt : fraction < 10 ^ 18) :
    (paddedFraction fraction).length = 18 := by
  have hdigits : (decimalDigits fraction).length ≤ 18 := by
    rw [decimalDigits_eq]
    exact (Nat.length_toDigits_le_iff (by decide) (by decide)).mpr hlt
  rw [paddedFraction, List.length_append, List.length_replicate, fractionDigits]
  omega

theorem ofDigitChars_paddedFraction (fraction : Nat) :
    Nat.ofDigitChars 10 (paddedFraction fraction) 0 = fraction := by
  rw [paddedFraction, Nat.ofDigitChars_append, Nat.ofDigitChars_replicate_zero, Nat.mul_zero,
    ofDigitChars_decimalDigits]

theorem length_fractionChars_le (hlt : fraction < 10 ^ 18) :
    (fractionChars fraction).length ≤ 18 := by
  obtain ⟨k, hpadded⟩ := paddedFraction_eq fraction
  have hlength := congrArg List.length hpadded
  rw [length_paddedFraction hlt, List.length_append] at hlength
  omega

/-- What the zeros at the end stood for. -/
theorem ofDigitChars_fractionChars (hlt : fraction < 10 ^ 18) :
    10 ^ (18 - (fractionChars fraction).length) *
      Nat.ofDigitChars 10 (fractionChars fraction) 0 = fraction := by
  obtain ⟨k, hpadded⟩ := paddedFraction_eq fraction
  have hlength := congrArg List.length hpadded
  rw [length_paddedFraction hlt, List.length_append, List.length_replicate] at hlength
  have hvalue := ofDigitChars_paddedFraction fraction
  rw [hpadded, Nat.ofDigitChars_append, Nat.ofDigitChars_replicate_zero] at hvalue
  rw [hlength, Nat.add_sub_cancel_left]
  exact hvalue

/-- There are none if and only if the number is an integer. -/
theorem fractionChars_eq_nil_iff (hlt : fraction < 10 ^ 18) :
    fractionChars fraction = [] ↔ fraction = 0 := by
  constructor
  · intro hnil
    have hvalue := ofDigitChars_fractionChars hlt
    rw [hnil] at hvalue
    exact hvalue.symm
  · rintro rfl
    decide

/-! ## Canonical numerals -/

/-- The digits that are written for a magnitude. -/
def canonicalMantissa (magnitude : Nat) : Mantissa where
  whole := decimalDigits (magnitude / scale.toNat)
  fraction? :=
    if magnitude % scale.toNat = 0 then none else some (fractionChars (magnitude % scale.toNat))
  whole_digits := isDigit_of_mem_decimalDigits
  fraction_digits := by
    intro c hc
    split at hc
    · simp at hc
    · exact isDigit_of_mem_fractionChars c hc
  ne_nil := List.append_ne_nil_of_left_ne_nil (decimalDigits_ne_nil _) _

/-- The text of a number, as a numeral. -/
def canonical (d : Decimal) : Numeral where
  sign := if d.raw < 0 then .minus else .absent
  mantissa := canonicalMantissa d.raw.natAbs
  exponent? := none

theorem mod_scale_lt (magnitude : Nat) : magnitude % scale.toNat < 10 ^ 18 :=
  Nat.mod_lt magnitude (by decide)

/-- The fraction of a canonical mantissa, which is left out if it is zero. -/
theorem fraction_canonicalMantissa (magnitude : Nat) :
    (canonicalMantissa magnitude).fraction = fractionChars (magnitude % scale.toNat) := by
  unfold Mantissa.fraction canonicalMantissa
  dsimp only
  split
  · rename_i hzero
    rw [hzero]
    rfl
  · rfl

/-- The digits of a canonical mantissa, filled up to eighteen fraction digits, are the number. -/
theorem value_canonicalMantissa (magnitude : Nat) :
    (canonicalMantissa magnitude).value *
      10 ^ (18 - (canonicalMantissa magnitude).fraction.length) = magnitude := by
  have hfraction := ofDigitChars_fractionChars (mod_scale_lt magnitude)
  have hlength := length_fractionChars_le (mod_scale_lt magnitude)
  have hwhole : (canonicalMantissa magnitude).whole =
      decimalDigits (magnitude / scale.toNat) := rfl
  have hscale : scale.toNat = 10 ^ 18 := by decide
  unfold Mantissa.value
  rw [fraction_canonicalMantissa, hwhole]
  generalize fractionChars (magnitude % scale.toNat) = digits at hfraction hlength
  rw [Nat.ofDigitChars_append, ofDigitChars_decimalDigits, Nat.ofDigitChars_eq_ofDigitChars_zero]
  have hpow : 10 ^ digits.length * 10 ^ (18 - digits.length) = scale.toNat := by
    rw [← Nat.pow_add, Nat.add_sub_cancel' hlength, hscale]
  -- the whole part has its digits in front of the eighteen of the fraction
  calc (10 ^ digits.length * (magnitude / scale.toNat) + Nat.ofDigitChars 10 digits 0) *
        10 ^ (18 - digits.length)
      = 10 ^ digits.length * 10 ^ (18 - digits.length) * (magnitude / scale.toNat) +
          10 ^ (18 - digits.length) * Nat.ofDigitChars 10 digits 0 := by ring
    _ = scale.toNat * (magnitude / scale.toNat) + magnitude % scale.toNat := by
      rw [hpow, hfraction]
    _ = magnitude := Nat.div_add_mod magnitude scale.toNat

/-- A canonical text has no more than eighteen fraction digits, so that nothing is cut off. -/
theorem excess_canonical (d : Decimal) :
    d.canonical.mantissa.excess d.canonical.exponent =
      -((18 - (canonicalMantissa d.raw.natAbs).fraction.length : Nat) : Int) := by
  have hlength := length_fractionChars_le (mod_scale_lt d.raw.natAbs)
  rw [← fraction_canonicalMantissa] at hlength
  change ((canonicalMantissa d.raw.natAbs).fraction.length : Int) - (18 + 0) = _
  omega

/-- A canonical numeral is read as its number. -/
theorem readNumber_canonical (d : Decimal) : d.canonical.readNumber = d := by
  have hraw : d.canonical.sign.apply d.raw.natAbs = d.raw := by
    unfold canonical SignMark.apply
    dsimp only
    split
    · simp only [SignMark.isMinus, if_true]
      omega
    · simp only [SignMark.isMinus, Bool.false_eq_true, if_false]
      omega
  have hexcess := excess_canonical d
  have hvalue := value_canonicalMantissa d.raw.natAbs
  have hscaled : d.canonical.mantissa.readScaled d.canonical.exponent = d.raw.natAbs := by
    rw [Mantissa.readScaled, if_neg (by omega), Mantissa.scaled_eq, if_pos (by omega), hexcess,
      Int.neg_neg, Int.toNat_natCast]
    exact_mod_cast hvalue
  unfold Numeral.readNumber
  rw [hscaled, hraw]

theorem chars_canonicalMantissa (magnitude : Nat) :
    (canonicalMantissa magnitude).chars =
      decimalDigits (magnitude / scale.toNat) ++
        if magnitude % scale.toNat = 0 then []
        else '.' :: fractionChars (magnitude % scale.toNat) := by
  unfold Mantissa.chars canonicalMantissa
  dsimp only
  split <;> rfl

theorem unsignedChars_canonical (d : Decimal) :
    d.canonical.unsignedChars = (canonicalMantissa d.raw.natAbs).chars :=
  List.append_nil _

/-- The text of a number is its canonical numeral. -/
theorem chars_canonical (d : Decimal) : d.canonical.chars = d.toChars := by
  have hsign : d.canonical.sign.chars = if d.raw < 0 then ['-'] else [] := by
    unfold canonical
    dsimp only
    split <;> rfl
  unfold Numeral.chars toChars
  rw [unsignedChars_canonical, chars_canonicalMantissa, hsign, List.append_assoc]

/-! ## Reading canonical texts -/

/-- Numbers are written with digits, a point and a minus. -/
theorem forall_mem_toChars {p : Char → Prop} (d : Decimal) (hdigit : ∀ c, isDigit c = true → p c)
    (hpoint : p '.') (hminus : p '-') : ∀ c ∈ d.toChars, p c := by
  intro c hc
  rw [← chars_canonical, Numeral.chars, unsignedChars_canonical] at hc
  rcases List.mem_append.mp hc with hsign | hmantissa
  · unfold canonical at hsign
    dsimp only at hsign
    split at hsign
    · rw [List.mem_singleton.mp hsign]
      exact hminus
    · simp [SignMark.chars] at hsign
  · exact Mantissa.forall_mem_chars _ hdigit hpoint c hmantissa

/-- No canonical text is octal: behind a zero there is a point, or nothing. -/
theorem not_leadingZeroOctal_canonicalMantissa (magnitude : Nat) :
    ¬LeadingZeroOctal (canonicalMantissa magnitude).chars := by
  intro h
  have hlength := h.two_le_length
  have hhead := h.head_eq
  have hdigits := h.isDigit_of_mem
  rw [chars_canonicalMantissa] at hlength hhead hdigits
  rw [List.head?_append_of_ne_nil _ (decimalDigits_ne_nil _)] at hhead
  rw [eq_zero_of_head_decimalDigits hhead] at hlength hdigits
  split at hlength
  · exact absurd hlength (by decide)
  · rename_i hne
    rw [if_neg hne] at hdigits
    have hpoint := hdigits '.' (List.mem_append_right _ List.mem_cons_self)
    exact absurd hpoint (by decide)

/-- The characters that a number is written with are read as this number. -/
theorem readTrimmed_toChars (d : Decimal) : readTrimmed d.toChars = .ok (some d) := by
  have hcut : isCut d.toChars = false :=
    isCut_of_ascii (d.forall_mem_toChars (fun _ => toNat_lt_of_isDigit) (by decide) (by decide))
  have hplain : ¬StartsRadix d.canonical.chars ∧ isLeadingZeroOctal d.canonical.chars = false := by
    have hoctal := not_leadingZeroOctal_canonicalMantissa d.raw.natAbs
    rw [← isLeadingZeroOctal_iff, ← unsignedChars_canonical, Bool.not_eq_true] at hoctal
    have hradix := not_startsRadix_numeral d.canonical
    unfold Numeral.chars
    -- A sign hides the digits from both tests; without one the digits themselves pass them.
    by_cases hneg : d.raw < 0
    · have hsign : d.canonical.sign = .minus := if_pos hneg
      rw [hsign]
      exact ⟨by simp [SignMark.chars], rfl⟩
    · have hsign : d.canonical.sign = .absent := if_neg hneg
      rw [hsign]
      exact ⟨hradix, hoctal⟩
  have hexcess := excess_canonical d
  rw [← chars_canonical] at hcut ⊢
  rw [readTrimmed_of_not_startsRadix hcut hplain.1,
    readDecimal?_eq_some hplain.2 (Nat.zero_le _) (.inl (by omega)), readNumber_canonical]

theorem toChars_ne_nil (d : Decimal) : d.toChars ≠ [] := by
  unfold toChars
  simp [decimalDigits_ne_nil]

/-- The text of a number is read as the number. -/
theorem ofChars_toChars (d : Decimal) : ofChars d.toChars = .ok (some d) := by
  have hblank : ∀ c ∈ d.toChars, isBlank c = false :=
    d.forall_mem_toChars (fun _ => isBlank_of_isDigit) (by decide) (by decide)
  have htrim : trim d.toChars = d.toChars := trim_eq_self hblank
  have hne : trim d.toChars ≠ [] := by
    rw [htrim]
    exact toChars_ne_nil d
  rw [ofChars_of_trim hne, htrim, readTrimmed_toChars]

theorem toList_text (d : Decimal) : d.text.toList = d.toChars := String.toList_ofList

theorem parse_text (d : Decimal) : parse d.text = .ok (some d) := by
  rw [parse_eq, toList_text, ofChars_toChars]

/-- The text of a number that is not negative is one token. -/
theorem tokenize_text_of_nonneg {d : Decimal} (hd : 0 ≤ d.raw) :
    tokenize d.text = .ok [⟨.number d, ⟨0, d.text.utf8ByteSize⟩, 1⟩] := by
  have hsign : d.canonical.sign = .absent := if_neg (Int.not_lt.mpr hd)
  have hchars : d.toChars = d.canonical.unsignedChars := by
    rw [← chars_canonical, Numeral.chars, hsign]
    rfl
  have hplain : ¬ZeroExponentOctal d.canonical.unsignedChars := by
    rw [zeroExponentOctal_iff]
    exact fun h => h.1 rfl
  have hread := readTrimmed_toChars d
  apply tokenize_of_spelledBy
  · rw [toList_text]
    exact toChars_ne_nil d
  · rw [toList_text, hchars]
    rw [hchars] at hread
    exact ((agree_numeral_iff d.canonical).mpr hplain d).mpr hread

/-! ## The canonical form -/

/-- The parts of a canonical text. -/
structure CanonicalParts (negative : Bool) (whole fraction : List Char) : Prop where
  whole_digits : ∀ c ∈ whole, isDigit c = true
  whole_ne_nil : whole ≠ []
  /-- A zero comes first only if it is the only digit. -/
  whole_zero : whole.head? = some '0' → whole = ['0']
  fraction_digits : ∀ c ∈ fraction, isDigit c = true
  fraction_length : fraction.length ≤ 18
  fraction_last : fraction.getLast? ≠ some '0'
  /-- Zero has no sign. -/
  ne_zero : negative = true → ¬(whole = ['0'] ∧ fraction = [])

/-- A minus or nothing, digits, and perhaps a point and further digits. -/
def IsCanonical (cs : List Char) : Prop :=
  ∃ negative whole fraction, CanonicalParts negative whole fraction ∧
    cs = (if negative then ['-'] else []) ++ whole ++
      (if fraction = [] then [] else '.' :: fraction)

/-- The text of a number is canonical. -/
theorem isCanonical_toChars (d : Decimal) : IsCanonical d.toChars := by
  have hlt := mod_scale_lt d.raw.natAbs
  refine ⟨decide (d.raw < 0), decimalDigits (d.raw.natAbs / scale.toNat),
    fractionChars (d.raw.natAbs % scale.toNat), ?_, ?_⟩
  · constructor
    case whole_digits => exact isDigit_of_mem_decimalDigits
    case whole_ne_nil => exact decimalDigits_ne_nil _
    case whole_zero =>
      intro hhead
      rw [eq_zero_of_head_decimalDigits hhead]
      rfl
    case fraction_digits => exact isDigit_of_mem_fractionChars
    case fraction_length => exact length_fractionChars_le hlt
    case fraction_last => exact getLast?_fractionChars _
    -- A minus sign is only written in front of a raw value that is not zero.
    case ne_zero =>
      rintro hneg ⟨hwhole, hfraction⟩
      have hdiv := ofDigitChars_decimalDigits (d.raw.natAbs / scale.toNat)
      rw [hwhole] at hdiv
      have hmod := (fractionChars_eq_nil_iff hlt).mp hfraction
      have hzero := Nat.div_add_mod d.raw.natAbs scale.toNat
      rw [hmod, ← hdiv] at hzero
      have hraw : d.raw < 0 := of_decide_eq_true hneg
      have : d.raw.natAbs = 0 := hzero.symm
      omega
  · unfold toChars
    simp only [fractionChars_eq_nil_iff hlt, decide_eq_true_eq]

/-- Numbers are read back from their texts, which are canonical. -/
theorem text_roundTrip (d : Decimal) :
    parse d.text = .ok (some d) ∧
    (0 ≤ d.raw → tokenize d.text = .ok [⟨.number d, ⟨0, d.text.utf8ByteSize⟩, 1⟩]) ∧
    IsCanonical d.text.toList ∧
    ∀ e : Decimal, e.text = d.text → e = d := by
  refine ⟨parse_text d, tokenize_text_of_nonneg, ?_, ?_⟩
  · rw [toList_text]
    exact isCanonical_toChars d
  · intro e htext
    have hread := parse_text e
    rw [htext, parse_text d] at hread
    exact (Option.some.inj (Except.ok.inj hread)).symm

/-- `0.05`, where zeros are padded in front and trimmed at the end. -/
theorem text_roundTrip_twentieth :
    (text ⟨50000000000000000⟩ = "0.05" ∧ 0 ≤ (⟨50000000000000000⟩ : Decimal).raw) ∧
    parse "0.05" = .ok (some ⟨50000000000000000⟩) ∧
    tokenize "0.05" = .ok [⟨.number ⟨50000000000000000⟩, ⟨0, 4⟩, 1⟩] ∧
    IsCanonical ['0', '.', '0', '5'] ∧
    (⟨5 * 10 ^ 16⟩ : Decimal) = ⟨50000000000000000⟩ := by
  have htext : text ⟨50000000000000000⟩ = "0.05" := by decide +kernel
  obtain ⟨hparse, htokens, hcanonical, hunique⟩ := text_roundTrip ⟨50000000000000000⟩
  have htokens := htokens (by decide)
  have hunique := hunique ⟨5 * 10 ^ 16⟩ (by decide +kernel)
  rw [htext] at hparse htokens hcanonical
  exact ⟨⟨htext, by decide⟩, hparse, htokens, hcanonical, hunique⟩

end Decimal

end MeteredScript
