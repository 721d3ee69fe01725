import Mathlib.Data.Rat.Floor
import MeteredScript.Proofs.Cuts

namespace MeteredScript

/-! # Decimal numerals

A `Numeral` is the spelling of a decimal number: a sign, digits with a point among them, and an
exponent. Which number it stands for is said by its digits as a whole, with exact fractions that are
cut off once. Main statement: reading accepts the numerals whose exponent is in range, with the
numbers they stand for, and nothing else but blank text and octal digits. The power of ten that digits
are divided by has an exponent of thirty-two bits, so that numerals of more than `2 ^ 32` digits may be
read as other numbers; which ones is said, too.
-/

open Text

/-! ## Digits -/

namespace Text

theorem foldr_pairDigits (base : Nat) (digits : List Nat) :
    (pairDigits base digits).foldr (fun digit value => digit + base * base * value) 0 =
      digits.foldr (fun digit value => digit + base * value) 0 := by
  -- two digits at a time, and perhaps one more
  fun_induction pairDigits base digits with
  | case1 low high rest ih =>
    rw [List.foldr_cons, ih, List.foldr_cons, List.foldr_cons, Nat.mul_add, Nat.mul_assoc,
      Nat.add_assoc]
  | case2 digits hshort =>
    rcases digits with _ | ⟨low, _ | ⟨high, rest⟩⟩
    · rfl
    · rfl
    · exact absurd rfl (hshort low high rest)

/-- Joining digits in pairs does not change their value. -/
theorem ofDigits_eq_foldr (base : Nat) (digits : List Nat) :
    ofDigits base digits = digits.foldr (fun digit value => digit + base * value) 0 := by
  fun_induction ofDigits base digits with
  | case1 => rfl
  | case2 => rfl
  | case3 base low high rest ih => rw [ih, foldr_pairDigits]

/-- The value of a decimal digit. -/
abbrev digitOf (c : Char) : Nat := c.toNat - '0'.toNat

/-- Digits are put together from the last one on, in pairs of pairs; the value is the usual one. -/
theorem ofDigits_reverse (base : Nat) (cs : List Char) :
    ofDigits base (cs.map digitOf).reverse = Nat.ofDigitChars base cs 0 := by
  rw [ofDigits_eq_foldr, List.foldr_reverse, List.foldl_map, Nat.ofDigitChars_eq_foldl]
  exact congrArg (fun f => cs.foldl f 0) (funext₂ fun _ _ => Nat.add_comm _ _)

theorem decimalValue_eq (cs : List Char) : decimalValue cs = Nat.ofDigitChars 10 cs 0 := by
  rw [decimalValue, List.map_reverse, ofDigits_reverse]

variable {c : Char} {cs : List Char} {radix : Nat}

theorem ne_of_isDigit {d : Char} (hc : isDigit c = true) (hd : isDigit d = false) : c ≠ d := by
  rintro rfl
  exact Bool.false_ne_true (hd.symm.trans hc)

theorem digitValue?_of_isDigit (hc : isDigit c = true) : digitValue? c = some (digitOf c) := by
  unfold isDigit at hc
  rw [Bool.and_eq_true_iff, decide_eq_true_eq, decide_eq_true_eq] at hc
  rw [digitValue?, if_pos hc]

theorem digitOf_lt_ten (hc : isDigit c = true) : digitOf c < 10 := by
  unfold isDigit at hc
  rw [Bool.and_eq_true_iff, decide_eq_true_eq, decide_eq_true_eq] at hc
  have hle : c.toNat ≤ '9'.toNat := UInt32.le_iff_toNat_le.mp (Char.le_def.mp hc.2)
  have hnine : '9'.toNat = '0'.toNat + 9 := rfl
  unfold digitOf
  omega

theorem isDigit_of_isOctalDigit (hc : isOctalDigit c = true) : isDigit c = true := by
  unfold isOctalDigit at hc
  unfold isDigit
  rw [Bool.and_eq_true_iff, decide_eq_true_eq, decide_eq_true_eq] at hc ⊢
  exact ⟨hc.1, Char.le_trans hc.2 (by decide)⟩

theorem digitOf_lt_eight (hc : isOctalDigit c = true) : digitOf c < 8 := by
  unfold isOctalDigit at hc
  rw [Bool.and_eq_true_iff, decide_eq_true_eq, decide_eq_true_eq] at hc
  have hle : c.toNat ≤ '7'.toNat := UInt32.le_iff_toNat_le.mp (Char.le_def.mp hc.2)
  have hseven : '7'.toNat = '0'.toNat + 7 := rfl
  unfold digitOf
  omega

theorem readDigits_eq (hdigits : ∀ c ∈ cs, isDigit c = true) (hradix : ∀ c ∈ cs, digitOf c < radix)
    (read : List Nat) : readDigits radix read cs = some ((cs.map digitOf).reverse ++ read) := by
  induction cs generalizing read with
  | nil => rfl
  | cons c cs ih =>
    obtain ⟨hc, hcs⟩ := List.forall_mem_cons.mp hdigits
    obtain ⟨hlt, hlts⟩ := List.forall_mem_cons.mp hradix
    rw [readDigits, if_neg (ne_of_isDigit hc (by decide)), digitValue?_of_isDigit hc]
    dsimp only
    rw [if_pos hlt, ih hcs hlts, List.map_cons, List.reverse_cons, List.append_assoc,
      List.singleton_append]

theorem natural?_eq (hne : cs ≠ []) (hdigits : ∀ c ∈ cs, isDigit c = true)
    (hradix : ∀ c ∈ cs, digitOf c < radix) :
    natural? radix cs = some (Nat.ofDigitChars radix cs 0) := by
  cases cs with
  | nil => exact absurd rfl hne
  | cons c rest =>
    have hc := hdigits c List.mem_cons_self
    have hplus : c ≠ '+' := ne_of_isDigit hc (by decide)
    have hline : c ≠ '_' := ne_of_isDigit hc (by decide)
    have hread : (readDigits radix [] (c :: rest)).map (ofDigits radix) =
        some (Nat.ofDigitChars radix (c :: rest) 0) := by
      rw [readDigits_eq hdigits hradix, List.append_nil, Option.map_some, ofDigits_reverse]
    simpa [natural?, hplus, hline] using hread

/-- A string of digits is read as the number with these digits. -/
theorem integer?_eq (hne : cs ≠ []) (hdigits : ∀ c ∈ cs, isDigit c = true)
    (hradix : ∀ c ∈ cs, digitOf c < radix) :
    integer? radix cs = some (Nat.ofDigitChars radix cs 0 : Int) := by
  have hnatural := natural?_eq hne hdigits hradix
  cases cs with
  | nil => exact absurd rfl hne
  | cons c rest =>
    have hminus : c ≠ '-' := ne_of_isDigit (hdigits c List.mem_cons_self) (by decide)
    simp [integer?, hminus, hnatural]

/-- A number is less than the power of ten with as many zeros as it has digits. -/
theorem ofDigitChars_lt (hdigits : ∀ c ∈ cs, isDigit c = true) :
    Nat.ofDigitChars 10 cs 0 < 10 ^ cs.length := by
  induction cs with
  | nil => decide
  | cons c cs ih =>
    obtain ⟨hc, hcs⟩ := List.forall_mem_cons.mp hdigits
    have hlt := ih hcs
    have hdigit : 10 ^ cs.length * (c.toNat - '0'.toNat) ≤ 10 ^ cs.length * 9 :=
      Nat.mul_le_mul_left _ (Nat.le_of_lt_succ (digitOf_lt_ten hc))
    rw [Nat.ofDigitChars_cons, Nat.ofDigitChars_eq_ofDigitChars_zero, List.length_cons,
      Nat.pow_succ, Nat.mul_zero, Nat.zero_add]
    omega

end Text

/-! ## Spellings -/

/-- A sign in front of digits, or none. -/
inductive SignMark where
  | absent
  | plus
  | minus
deriving DecidableEq

namespace SignMark

def chars : SignMark → List Char
  | absent => []
  | plus => ['+']
  | minus => ['-']

def isMinus : SignMark → Bool
  | minus => true
  | _ => false

def apply (s : SignMark) (n : Int) : Int := if s.isMinus then -n else n

end SignMark

/-- `D+ ('.' D*)?` or `'.' D+`, where `D` is a decimal digit. -/
structure Mantissa where
  whole : List Char
  /-- The digits behind the point; there may be no point. -/
  fraction? : Option (List Char)
  whole_digits : ∀ c ∈ whole, isDigit c = true
  fraction_digits : ∀ c ∈ fraction?.getD [], isDigit c = true
  ne_nil : whole ++ fraction?.getD [] ≠ []

namespace Mantissa

def fraction (m : Mantissa) : List Char := m.fraction?.getD []

def chars (m : Mantissa) : List Char := m.whole ++ m.fraction?.elim [] ('.' :: ·)

/-- The integer that all digits spell. -/
def value (m : Mantissa) : Nat := Nat.ofDigitChars 10 (m.whole ++ m.fraction) 0

/-- How many digits there are. -/
def length (m : Mantissa) : Nat := (m.whole ++ m.fraction).length

/-- The digits as an integer times `10 ^ exponent`, scaled to eighteen fraction digits and cut off
there. -/
def scaled (m : Mantissa) (exponent : Int) : Int :=
  ⌊(m.value : ℚ) * 10 ^ (18 + exponent) / 10 ^ m.fraction.length⌋

/-- How many digits scaling takes away; negative if it adds zeros. -/
def excess (m : Mantissa) (exponent : Int) : Int := m.fraction.length - (18 + exponent)

/-- What the digits are read as. To take `2 ^ 32` digits or more away, only as many are taken as the
last thirty-two bits of their number say. -/
def readScaled (m : Mantissa) (exponent : Int) : Int :=
  if 2 ^ 32 ≤ m.excess exponent ∧ m.excess exponent ≤ m.length then
    (m.value : Int) / 10 ^ ((m.excess exponent).toNat % 2 ^ 32)
  else m.scaled exponent

/-- Mantissas consist of digits and the point. -/
theorem forall_mem_chars {p : Char → Prop} (m : Mantissa) (hdigit : ∀ c, isDigit c = true → p c)
    (hpoint : p '.') : ∀ c ∈ m.chars, p c := by
  intro c hc
  unfold chars at hc
  rcases List.mem_append.mp hc with hc | hc
  · exact hdigit c (m.whole_digits c hc)
  · have hfraction := m.fraction_digits
    cases hf : m.fraction? with
    | none => simp [hf] at hc
    | some fraction =>
      rw [hf] at hc hfraction
      rcases List.mem_cons.mp hc with rfl | hc
      · exact hpoint
      · exact hdigit c (hfraction c hc)

end Mantissa

/-- `[eE] [+-]? D+`, where `D` is a decimal digit. -/
structure ExponentPart where
  mark : Char
  sign : SignMark
  digits : List Char
  mark_eq : mark = 'e' ∨ mark = 'E'
  isDigit : ∀ c ∈ digits, isDigit c = true
  ne_nil : digits ≠ []

namespace ExponentPart

def chars (e : ExponentPart) : List Char := e.mark :: (e.sign.chars ++ e.digits)

def value (e : ExponentPart) : Int := e.sign.apply (Nat.ofDigitChars 10 e.digits 0)

/-- The exponent as a 64-bit word, if it fits into one. -/
def word? (e : ExponentPart) : Option Int64 :=
  if Int64.minValue.toInt ≤ e.value ∧ e.value ≤ Int64.maxValue.toInt then some (.ofInt e.value)
  else none

end ExponentPart

/-- A decimal number as it is spelled: a mantissa with an optional sign and an optional exponent. -/
structure Numeral where
  sign : SignMark
  mantissa : Mantissa
  exponent? : Option ExponentPart

namespace Numeral

/-- The spelling without the sign. -/
def unsignedChars (n : Numeral) : List Char :=
  n.mantissa.chars ++ n.exponent?.elim [] ExponentPart.chars

def chars (n : Numeral) : List Char := n.sign.chars ++ n.unsignedChars

def exponent (n : Numeral) : Int := n.exponent?.elim 0 ExponentPart.value

/-- The exponent as a 64-bit word, if it fits into one. -/
def word? (n : Numeral) : Option Int64 := n.exponent?.elim (some 0) ExponentPart.word?

/-- The number that is spelled, cut off toward zero at the eighteenth fraction digit. -/
def number (n : Numeral) : Decimal := ⟨n.sign.apply (n.mantissa.scaled n.exponent)⟩

def readNumber (n : Numeral) : Decimal := ⟨n.sign.apply (n.mantissa.readScaled n.exponent)⟩

theorem word?_eq (n : Numeral) :
    n.word? = if Int64.minValue.toInt ≤ n.exponent ∧ n.exponent ≤ Int64.maxValue.toInt then
      some (.ofInt n.exponent) else none := by
  unfold word? exponent
  cases n.exponent? with
  | none => rfl
  | some e => rfl

theorem toInt_of_word? {n : Numeral} {e : Int64} (h : n.word? = some e) : e.toInt = n.exponent := by
  rw [word?_eq] at h
  split at h
  · rename_i hfits
    obtain rfl := Option.some.inj h
    exact Int64.toInt_ofInt_of_le hfits.1 (Int.lt_of_le_of_lt hfits.2 (by decide))
  · simp at h

end Numeral

/-! ## Taking spellings apart -/

/-- A text that starts with no sign. -/
def Unsigned (cs : List Char) : Prop := cs.head? ≠ some '+' ∧ cs.head? ≠ some '-'

/-- Digits have no sign in front of them. -/
theorem unsigned_of_digits {cs : List Char} (hdigits : ∀ c ∈ cs, isDigit c = true) :
    Unsigned cs := by
  cases cs with
  | nil => exact ⟨by simp, by simp⟩
  | cons c cs =>
    have hc := hdigits c List.mem_cons_self
    have hplus : c ≠ '+' := ne_of_isDigit hc (by decide)
    have hminus : c ≠ '-' := ne_of_isDigit hc (by decide)
    exact ⟨by simpa using hplus, by simpa using hminus⟩

namespace Decimal

variable {cs : List Char}

/-- Without a sign there is nothing to split off. -/
theorem splitSign_of_unsigned (hcs : Unsigned cs) : splitSign cs = (false, cs) := by
  unfold splitSign
  split
  · exact absurd rfl hcs.2
  · exact absurd rfl hcs.1
  · rfl

theorem splitSign_chars (s : SignMark) (hcs : Unsigned cs) :
    splitSign (s.chars ++ cs) = (s.isMinus, cs) := by
  cases s with
  | absent => exact splitSign_of_unsigned hcs
  | plus => rfl
  | minus => rfl

theorem exists_of_splitSign (cs : List Char) :
    ∃ s : SignMark, cs = s.chars ++ (splitSign cs).2 ∧ (splitSign cs).1 = s.isMinus := by
  unfold splitSign
  split
  · exact ⟨.minus, rfl, rfl⟩
  · exact ⟨.plus, rfl, rfl⟩
  · exact ⟨.absent, rfl, rfl⟩

/-- The exponent of a spelling is its word, if it fits. -/
theorem readExponent?_chars (e : ExponentPart) :
    readExponent? (e.sign.chars ++ e.digits) = e.word? := by
  unfold readExponent?
  rw [splitSign_chars e.sign (unsigned_of_digits e.isDigit)]
  have hdigits : (e.digits.isEmpty || !e.digits.all Text.isDigit) = false := by
    simpa [e.ne_nil] using e.isDigit
  simp only [hdigits, decimalValue_eq, Bool.false_eq_true, if_false]
  rfl

theorem exists_of_readExponent? {value : Int64} (h : readExponent? cs = some value) {mark : Char}
    (hmark : mark = 'e' ∨ mark = 'E') : ∃ e : ExponentPart, e.chars = mark :: cs := by
  obtain ⟨s, hcs, -⟩ := exists_of_splitSign cs
  unfold readExponent? at h
  dsimp only at h
  split at h
  · simp at h
  · rename_i hdigits
    rw [Bool.or_eq_true, not_or, Bool.not_eq_true, Bool.not_eq_true, Bool.not_eq_false',
      List.isEmpty_eq_false_iff, List.all_eq_true] at hdigits
    exact ⟨⟨mark, s, (splitSign cs).2, hmark, hdigits.2, hdigits.1⟩, congrArg (mark :: ·) hcs.symm⟩

/-- Whether a character is no exponent letter. -/
def isNoMark (c : Char) : Bool := !decide (c = 'e' ∨ c = 'E')

theorem splitExponent_eq (cs : List Char) :
    splitExponent cs = (cs.takeWhile isNoMark, (cs.dropWhile isNoMark).tail?) := by
  unfold splitExponent
  dsimp only
  split
  · rename_i hdrop
    rw [show cs.dropWhile isNoMark = [] from hdrop]
    rfl
  · rename_i mark exponent hdrop
    rw [show cs.dropWhile isNoMark = mark :: exponent from hdrop]
    rfl

theorem splitExponent_chars (hcs : ∀ c ∈ cs, isNoMark c = true) (e? : Option ExponentPart) :
    splitExponent (cs ++ e?.elim [] ExponentPart.chars) =
      (cs, e?.map fun e => e.sign.chars ++ e.digits) := by
  rw [splitExponent_eq, List.takeWhile_append_of_pos hcs, List.dropWhile_append_of_pos hcs]
  cases e? with
  | none => simp
  | some e => simp [ExponentPart.chars, isNoMark, e.mark_eq]

theorem exists_of_splitExponent {mantissa exponent : List Char}
    (h : splitExponent cs = (mantissa, some exponent)) :
    ∃ mark, (mark = 'e' ∨ mark = 'E') ∧ cs = mantissa ++ mark :: exponent := by
  rw [splitExponent_eq, Prod.mk.injEq] at h
  obtain ⟨rfl, hexponent⟩ := h
  cases hdrop : cs.dropWhile isNoMark with
  | nil => simp [hdrop] at hexponent
  | cons mark rest =>
    obtain rfl : rest = exponent := by simpa [hdrop] using hexponent
    have hmark : isNoMark mark = false := by
      have hhead := List.head?_dropWhile_not isNoMark cs
      rwa [hdrop] at hhead
    refine ⟨mark, by simpa [isNoMark, Decidable.imp_iff_not_or] using hmark, ?_⟩
    rw [← hdrop, List.takeWhile_append_dropWhile]

/-- Without a mark all is mantissa. -/
theorem eq_of_splitExponent {mantissa : List Char} (h : splitExponent cs = (mantissa, none)) :
    cs = mantissa := by
  rw [splitExponent_eq, Prod.mk.injEq] at h
  obtain ⟨rfl, hnone⟩ := h
  have hdrop : cs.dropWhile isNoMark = [] := by
    cases hdrop : cs.dropWhile isNoMark with
    | nil => rfl
    | cons mark rest => simp [hdrop] at hnone
  have hsplit := List.takeWhile_append_dropWhile (p := isNoMark) (l := cs)
  rw [hdrop, List.append_nil] at hsplit
  exact hsplit.symm

theorem splitPoint_chars (m : Mantissa) : splitPoint m.chars = (m.whole, m.fraction) := by
  have hwhole : ∀ c ∈ m.whole, decide (c ≠ '.') = true := fun c hc =>
    decide_eq_true (ne_of_isDigit (m.whole_digits c hc) (by decide))
  unfold splitPoint Mantissa.chars Mantissa.fraction
  rw [List.takeWhile_append_of_pos hwhole, List.dropWhile_append_of_pos hwhole]
  cases m.fraction? <;> simp

/-- Digits with at most one point among them are a mantissa. -/
theorem exists_of_splitPoint (hwhole : ∀ c ∈ (splitPoint cs).1, isDigit c = true)
    (hfraction : ∀ c ∈ (splitPoint cs).2, isDigit c = true)
    (hne : (splitPoint cs).1 ++ (splitPoint cs).2 ≠ []) : ∃ m : Mantissa, m.chars = cs := by
  have hsplit := List.takeWhile_append_dropWhile (p := (· ≠ '.')) (l := cs)
  unfold splitPoint at hwhole hfraction hne
  dsimp only at hwhole hfraction hne
  cases hdrop : cs.dropWhile (· ≠ '.') with
  | nil =>
    rw [hdrop] at hsplit hfraction hne
    exact ⟨⟨_, none, hwhole, hfraction, hne⟩, hsplit⟩
  | cons point rest =>
    -- What the digits stop at can only be a point.
    have hpoint : decide (point ≠ '.') = false := by
      have hhead := List.head?_dropWhile_not (· ≠ '.') cs
      rwa [hdrop] at hhead
    obtain rfl : point = '.' := by simpa using hpoint
    rw [hdrop] at hsplit hfraction hne
    exact ⟨⟨_, some rest, hwhole, hfraction, hne⟩, hsplit⟩

end Decimal

/-! ## Values -/

namespace Decimal

/-- Shifting the digits by powers of ten and cutting them off once. -/
theorem floor_shift (value places : Nat) (exponent : Int) :
    ⌊(value : ℚ) * 10 ^ (18 + exponent) / 10 ^ places⌋ =
      if 0 ≤ 18 + exponent - places then (value : Int) * 10 ^ (18 + exponent - places).toNat
      else (value : Int) / 10 ^ (-(18 + exponent - places)).toNat := by
  have hten : (10 : ℚ) ≠ 0 := by decide
  have hshift : (value : ℚ) * 10 ^ (18 + exponent) / 10 ^ places =
      value * 10 ^ (18 + exponent - places) := by
    rw [zpow_sub₀ hten, zpow_natCast, mul_div_assoc]
  rw [hshift]
  -- Only the sign of the shift matters from here on.
  generalize 18 + exponent - places = shift
  split
  · rename_i hpos
    obtain ⟨k, rfl⟩ := Int.eq_ofNat_of_zero_le hpos
    -- A shift to the left gives a whole number, which is its own floor.
    have hcast : (value : ℚ) * 10 ^ (k : Int) = ((value * 10 ^ k : Nat) : ℚ) := by
      rw [zpow_natCast]
      push_cast
      rfl
    rw [hcast, Int.floor_natCast, Int.toNat_natCast]
    push_cast
    rfl
  · rename_i hneg
    obtain ⟨k, hk⟩ := Int.eq_ofNat_of_zero_le (Int.neg_nonneg.mpr (Int.le_of_not_le hneg))
    obtain rfl : shift = -(k : Int) := by omega
    -- A shift to the right is a quotient of whole numbers.
    have hcast : (value : ℚ) * 10 ^ (-(k : Int)) = (value : ℚ) / ((10 ^ k : Nat) : ℚ) := by
      rw [zpow_neg, zpow_natCast, div_eq_mul_inv]
      push_cast
      rfl
    rw [hcast, Rat.floor_natCast_div_natCast, Int.neg_neg, Int.toNat_natCast]
    push_cast
    rfl

theorem div_eq_zero_of_digits {cs : List Char} (hdigits : ∀ c ∈ cs, isDigit c = true) {shift : Int}
    (hshift : -shift > cs.length) :
    (Nat.ofDigitChars 10 cs 0 : Int) / 10 ^ (-shift).toNat = 0 := by
  refine Int.ediv_eq_zero_of_lt (Int.natCast_nonneg _) ?_
  have hpow : 10 ^ cs.length ≤ 10 ^ (-shift).toNat :=
    Nat.pow_le_pow_right (by decide) (by omega)
  exact_mod_cast Nat.lt_of_lt_of_le (ofDigitChars_lt hdigits) hpow

variable {e : Int64}

/-- Exponents beyond the bound are refused, except for the least word: it has no absolute value among
the words and passes for a small one. -/
theorem maxExponent_lt_abs_iff : maxExponent < e.abs ↔ e ≠ .minValue ∧ 1024 < e.toInt.natAbs := by
  by_cases hleast : e = .minValue
  · subst hleast
    exact iff_of_false (by decide) fun h => h.1 rfl
  · have hne : e.toBitVec ≠ BitVec.intMin 64 := fun h => hleast (Int64.toBitVec_inj.mp h)
    have habs : e.abs.toInt = e.toInt.natAbs := by
      rw [← Int64.toInt_toBitVec e.abs, Int64.toBitVec_abs,
        BitVec.toInt_abs_eq_natAbs_of_ne_intMin hne, Int64.toInt_toBitVec]
    have hbound : maxExponent.toInt = 1024 := rfl
    rw [Int64.lt_iff_toInt_lt, habs, hbound, and_iff_right hleast]
    omega

/-- How far digits are shifted fits into a word. -/
theorem toInt_shift {places : Nat} (he : e.toInt.natAbs ≤ 1024) (hplaces : places < 2 ^ 62) :
    (Int64.ofNat fractionDigits + e - .ofNat places).toInt = 18 + e.toInt - places ∧
      (-(Int64.ofNat fractionDigits + e - .ofNat places)).toInt = places - (18 + e.toInt) := by
  have hword : (Int64.ofNat places).toInt = places := Int64.toInt_ofNat_of_lt (by omega)
  have hstart : (Int64.ofNat fractionDigits + e).toInt = 18 + e.toInt := by
    rw [Int64.toInt_add]
    change (18 + e.toInt).bmod _ = _
    exact Int.bmod_eq_of_le (by omega) (by omega)
  have hshift : (Int64.ofNat fractionDigits + e - .ofNat places).toInt = 18 + e.toInt - places := by
    rw [Int64.toInt_sub, hword, hstart]
    exact Int.bmod_eq_of_le (by omega) (by omega)
  refine ⟨hshift, ?_⟩
  rw [Int64.toInt_neg, hshift, Int.neg_sub]
  exact Int.bmod_eq_of_le (by omega) (by omega)

/-- The exponent of the power of ten has thirty-two bits. -/
theorem powerOfTen_eq {k : Nat} (h : e.toInt = k) : (powerOfTen e : Int) = 10 ^ (k % 2 ^ 32) := by
  have hpos : 0 ≤ e := by
    rw [Int64.le_iff_toInt_le, h]
    exact Int.natCast_nonneg k
  have hword : e.toUInt64.toNat = k := by
    rw [Int64.toNat_toUInt64_of_le hpos, Int64.toNatClampNeg, h, Int.toNat_natCast]
  rw [powerOfTen, UInt64.toNat_toUInt32, hword]
  exact Int.natCast_pow 10 _

end Decimal

namespace Mantissa

theorem isDigit_of_mem (m : Mantissa) : ∀ c ∈ m.whole ++ m.fraction, isDigit c = true := by
  intro c hc
  rcases List.mem_append.mp hc with hc | hc
  · exact m.whole_digits c hc
  · exact m.fraction_digits c hc

theorem integer?_digits (m : Mantissa) :
    (if (m.whole ++ m.fraction).isEmpty then some 0 else integer? 10 (m.whole ++ m.fraction)) =
      some (m.value : Int) := by
  have hne : m.whole ++ m.fraction ≠ [] := m.ne_nil
  have hempty : (m.whole ++ m.fraction).isEmpty = false := by simpa using hne
  rw [hempty, if_neg Bool.false_ne_true]
  exact integer?_eq hne m.isDigit_of_mem fun c hc => digitOf_lt_ten (m.isDigit_of_mem c hc)

/-- A mantissa is multiplied or divided, as there are too few digits or too many. -/
theorem scaled_eq (m : Mantissa) (exponent : Int) :
    m.scaled exponent =
      if m.excess exponent ≤ 0 then (m.value : Int) * 10 ^ (-m.excess exponent).toNat
      else (m.value : Int) / 10 ^ (m.excess exponent).toNat := by
  have hshift : 18 + exponent - (m.fraction.length : Int) = -m.excess exponent := by
    unfold excess
    omega
  unfold scaled
  rw [Decimal.floor_shift, hshift, Int.neg_neg]
  exact ite_congr (propext (by omega)) (fun _ => rfl) fun _ => rfl

/-- Scaling takes away more digits than there are. -/
theorem scaled_eq_zero {m : Mantissa} {exponent : Int} (h : m.length < m.excess exponent) :
    m.scaled exponent = 0 := by
  rw [scaled_eq, if_neg (by omega)]
  have hzero : -(-m.excess exponent) > m.length := by rwa [Int.neg_neg]
  have hdiv := Decimal.div_eq_zero_of_digits m.isDigit_of_mem hzero
  rwa [Int.neg_neg] at hdiv

end Mantissa

namespace Decimal

/-- Digits with a point and an exponent in range stand for an exact number, which is cut off. How many
there are matters only if some are cut off. -/
theorem ofParts?_mantissa (m : Mantissa) {e : Int64} (he : e.toInt.natAbs ≤ 1024)
    (hlength : m.excess e.toInt ≤ 0 ∨ m.length < 2 ^ 62) :
    ofParts? m.whole m.fraction e = some ⟨m.readScaled e.toInt⟩ := by
  have hplaces : m.fraction.length ≤ m.length := by
    unfold Mantissa.length
    rw [List.length_append]
    exact Nat.le_add_left _ _
  have hexcess : m.excess e.toInt = m.fraction.length - (18 + e.toInt) := rfl
  obtain ⟨hshift, hneg⟩ := toInt_shift he (by omega : m.fraction.length < 2 ^ 62)
  have hrange : ¬maxExponent < e.abs := by
    rw [maxExponent_lt_abs_iff]
    omega
  unfold ofParts?
  dsimp only
  rw [if_neg hrange, m.integer?_digits, Option.map_some]
  refine congrArg some ?_
  -- the shift is a word; all that matters of it is which integer it stands for
  generalize hword : Int64.ofNat fractionDigits + e - Int64.ofNat m.fraction.length = shift
  rw [hword] at hshift hneg
  have hzero : (0 : Int64).toInt = 0 := rfl
  by_cases hadds : m.excess e.toInt ≤ 0
  · have hpos : 0 ≤ shift := by
      rw [Int64.le_iff_toInt_le, hshift, hzero]
      omega
    have hpower := powerOfTen_eq (hshift.trans (by omega : _ = ((-m.excess e.toInt).toNat : Int)))
    rw [if_pos hpos, hpower, Nat.mod_eq_of_lt (by omega), Mantissa.readScaled, if_neg (by omega),
      Mantissa.scaled_eq, if_pos hadds]
  · have hlength := hlength.resolve_left hadds
    have hpos : ¬0 ≤ shift := by
      rw [Int64.le_iff_toInt_le, hshift, hzero]
      omega
    -- whether all digits are cut off is decided on words as well
    have hcount : Int64.ofNat (m.whole ++ m.fraction).length < -shift ↔
        m.length < m.excess e.toInt := by
      rw [Int64.lt_iff_toInt_lt, hneg, Int64.toInt_ofNat_of_lt (by unfold Mantissa.length at *; omega)]
      rfl
    rw [if_neg hpos]
    by_cases hall : m.length < m.excess e.toInt
    · rw [if_pos (hcount.mpr hall), Mantissa.readScaled, if_neg (by omega),
        Mantissa.scaled_eq_zero hall]
      rfl
    · have hpower := powerOfTen_eq (hneg.trans (by omega : _ = ((m.excess e.toInt).toNat : Int)))
      rw [if_neg (mt hcount.mp hall), hpower, Int.tdiv_eq_ediv_of_nonneg (Int.natCast_nonneg _),
        Mantissa.readScaled]
      split
      · rfl
      · rw [Nat.mod_eq_of_lt (by omega), Mantissa.scaled_eq, if_neg hadds]

/-! ## Reading -/

theorem isNoMark_of_mem_chars (m : Mantissa) : ∀ c ∈ m.chars, isNoMark c = true := by
  refine m.forall_mem_chars ?_ (by decide)
  intro c hc
  have hlower : c ≠ 'e' := ne_of_isDigit hc (by decide)
  have hupper : c ≠ 'E' := ne_of_isDigit hc (by decide)
  simp [isNoMark, hlower, hupper]

/-- A spelling is read by its parts. -/
theorem readUnsigned?_chars (n : Numeral) :
    readUnsigned? n.unsignedChars =
      n.word?.bind (ofParts? n.mantissa.whole n.mantissa.fraction) := by
  obtain ⟨_, m, e?⟩ := n
  have hwhole : m.whole.all isDigit = true := List.all_eq_true.mpr m.whole_digits
  have hfraction : m.fraction.all isDigit = true := List.all_eq_true.mpr m.fraction_digits
  have hempty : (m.whole.isEmpty && m.fraction.isEmpty) = false := by
    have hne : m.whole ++ m.fraction ≠ [] := m.ne_nil
    simpa [Decidable.imp_iff_not_or] using hne
  have hsplit := splitExponent_chars (isNoMark_of_mem_chars m) e?
  unfold readUnsigned? Numeral.unsignedChars Numeral.word?
  dsimp only
  rw [hsplit]
  cases e? with
  | none => simp [splitPoint_chars, hempty, hwhole, hfraction]
  | some e =>
    dsimp only [Option.map_some, Option.elim_some]
    rw [readExponent?_chars, splitPoint_chars]
    simp [hempty, hwhole, hfraction]

/-- What is read, apart from its sign, is a spelling. -/
theorem exists_of_readUnsigned? {cs : List Char} {d : Decimal} (h : readUnsigned? cs = some d)
    (s : SignMark) : ∃ n : Numeral, n.sign = s ∧ n.unsignedChars = cs := by
  -- what is checked of the text in front of the exponent
  have hmantissa {mantissa : List Char} {exponent : Int64}
      (h : (if (splitPoint mantissa).1.isEmpty && (splitPoint mantissa).2.isEmpty then none
        else if !((splitPoint mantissa).1.all isDigit && (splitPoint mantissa).2.all isDigit)
        then none
        else ofParts? (splitPoint mantissa).1 (splitPoint mantissa).2 exponent) = some d) :
      ∃ m : Mantissa, m.chars = mantissa := by
    split at h
    · simp at h
    · rename_i hne
      split at h
      · simp at h
      · rename_i hdigits
        simp only [Bool.not_eq_true, Bool.not_eq_false', Bool.and_eq_true_iff,
          List.all_eq_true] at hdigits
        exact exists_of_splitPoint hdigits.1 hdigits.2 (by simpa using hne)
  unfold readUnsigned? at h
  rcases hsplit : splitExponent cs with ⟨mantissa, exponentChars?⟩
  rw [hsplit] at h
  cases exponentChars? with
  | none =>
    obtain ⟨m, rfl⟩ := hmantissa h
    refine ⟨⟨s, m, none⟩, rfl, ?_⟩
    rw [eq_of_splitExponent hsplit]
    exact List.append_nil _
  | some chars =>
    obtain ⟨exponent, hexponent, h⟩ := Option.bind_eq_some_iff.mp h
    obtain ⟨m, rfl⟩ := hmantissa h
    obtain ⟨mark, hmark, rfl⟩ := exists_of_splitExponent hsplit
    obtain ⟨e, he⟩ := exists_of_readExponent? hexponent hmark
    exact ⟨⟨s, m, some e⟩, rfl, congrArg (m.chars ++ ·) he⟩

end Decimal

namespace Mantissa

/-- A mantissa begins with a digit or with a point. -/
theorem exists_chars_eq_cons (m : Mantissa) :
    ∃ c rest, m.chars = c :: rest ∧ (isDigit c = true ∨ c = '.') := by
  obtain ⟨whole, fraction?, hwhole, hfraction, hne⟩ := m
  cases whole with
  | cons c whole => exact ⟨c, _, rfl, .inl (hwhole c List.mem_cons_self)⟩
  | nil =>
    cases fraction? with
    | none => exact absurd rfl hne
    | some fraction => exact ⟨'.', fraction, rfl, .inr rfl⟩

end Mantissa

theorem Numeral.unsigned_unsignedChars (n : Numeral) : Unsigned n.unsignedChars := by
  obtain ⟨c, rest, hchars, hc⟩ := n.mantissa.exists_chars_eq_cons
  have hsign : ∀ d, isDigit d = false → d ≠ '.' → n.unsignedChars.head? ≠ some d := by
    intro d hdigit hpoint hd
    unfold Numeral.unsignedChars at hd
    rw [hchars, List.cons_append, List.head?_cons, Option.some.injEq] at hd
    subst hd
    rcases hc with hc | hc
    · exact Bool.false_ne_true (hdigit.symm.trans hc)
    · exact hpoint hc
  exact ⟨hsign '+' (by decide) (by decide), hsign '-' (by decide) (by decide)⟩

/-- A text that starts with a zero and a radix letter. -/
abbrev StartsRadix (cs : List Char) : Prop :=
  ['x', 'X', 'o', 'O', 'b', 'B'].any (fun letter => ['0', letter].isPrefixOf cs) = true

/-- Two or more octal digits, of which the first is a zero. -/
structure LeadingZeroOctal (cs : List Char) : Prop where
  two_le_length : 2 ≤ cs.length
  head_eq : cs.head? = some '0'
  octal : ∀ c ∈ cs, '0' ≤ c ∧ c ≤ '7'

namespace Decimal

variable {cs : List Char} {n : Numeral}

/-- The check for octal digits is what it should be. -/
theorem isLeadingZeroOctal_iff : isLeadingZeroOctal cs = true ↔ LeadingZeroOctal cs := by
  have hoctal (c : Char) : isOctalDigit c = true ↔ '0' ≤ c ∧ c ≤ '7' := by
    rw [isOctalDigit, Bool.and_eq_true_iff, decide_eq_true_eq, decide_eq_true_eq]
  constructor
  · intro h
    unfold isLeadingZeroOctal at h
    split at h
    · rename_i rest
      rw [Bool.and_eq_true_iff, Bool.not_eq_true', List.isEmpty_eq_false_iff, List.all_eq_true] at h
      have hlength := List.length_pos_iff.mpr h.1
      refine ⟨Nat.succ_le_succ hlength, rfl, List.forall_mem_cons.mpr ⟨by decide, fun c hc => ?_⟩⟩
      exact (hoctal c).mp (h.2 c hc)
    · simp at h
  · rintro ⟨hlength, hhead, h⟩
    obtain ⟨rest, rfl⟩ := List.head?_eq_some_iff.mp hhead
    have hrest : rest ≠ [] := List.length_pos_iff.mp (Nat.le_of_succ_le_succ hlength)
    simpa [isLeadingZeroOctal, hrest, hoctal] using (List.forall_mem_cons.mp h).2

/-- The digits behind the zero are read, and the zero does not count. -/
theorem ofRadix?_of_octal (h : LeadingZeroOctal cs) :
    ofRadix? 8 (cs.drop 1) = some (ofInt (Nat.ofDigitChars 8 cs 0)) := by
  obtain ⟨rest, rfl⟩ := List.head?_eq_some_iff.mp h.head_eq
  have hrest : rest ≠ [] := List.length_pos_iff.mp (Nat.le_of_succ_le_succ h.two_le_length)
  have hoctal : ∀ c ∈ rest, isOctalDigit c = true := by
    intro c hc
    have hbounds := h.octal c (List.mem_cons_of_mem _ hc)
    simpa [isOctalDigit] using hbounds
  have hvalue : integer? 8 rest = some (Nat.ofDigitChars 8 rest 0 : Int) :=
    integer?_eq hrest (fun c hc => isDigit_of_isOctalDigit (hoctal c hc))
      fun c hc => digitOf_lt_eight (hoctal c hc)
  rw [ofRadix?, List.drop_one, List.tail_cons, hvalue]
  rfl

/-- Nothing but a decimal or octal digits is read without a radix letter. -/
theorem readTrimmed_of_not_startsRadix (hcut : isCut cs = false) (h : ¬StartsRadix cs) :
    readTrimmed cs = .ok (readDecimal? cs) := by
  unfold readTrimmed
  split
  · rename_i letter rest
    have hletter : ¬0x80 ≤ letter.toNat := of_decide_eq_false hcut
    rw [dropBytes_two, if_neg hletter]
    dsimp only [bind, Except.bind]
    split
    case h_7 => rfl
    all_goals exact absurd rfl h
  · rfl

theorem readDecimal?_of_not_octal (h : isLeadingZeroOctal cs = false) :
    readDecimal? cs =
      (readUnsigned? (splitSign cs).2).map fun a => if (splitSign cs).1 then a.neg else a := by
  rw [readDecimal?, h, if_neg Bool.false_ne_true]

theorem readDecimal?_chars (h : isLeadingZeroOctal n.chars = false) :
    readDecimal? n.chars =
      (n.word?.bind (ofParts? n.mantissa.whole n.mantissa.fraction)).map fun a =>
        if n.sign.isMinus then a.neg else a := by
  rw [readDecimal?_of_not_octal h, Numeral.chars, splitSign_chars n.sign n.unsigned_unsignedChars,
    readUnsigned?_chars]

theorem exists_of_readDecimal? (hoctal : isLeadingZeroOctal cs = false) {d : Decimal}
    (h : readDecimal? cs = some d) : ∃ n : Numeral, n.chars = cs := by
  rw [readDecimal?_of_not_octal hoctal] at h
  obtain ⟨a, ha, -⟩ := Option.map_eq_some_iff.mp h
  obtain ⟨s, hcs, -⟩ := exists_of_splitSign cs
  obtain ⟨n, rfl, hchars⟩ := exists_of_readUnsigned? ha s
  refine ⟨n, ?_⟩
  unfold Numeral.chars
  rw [hchars, ← hcs]

theorem exists_word_of_le (h : n.exponent.natAbs ≤ 1024) :
    ∃ e : Int64, n.word? = some e ∧ e.toInt = n.exponent := by
  have hword : n.word? = some (.ofInt n.exponent) := by
    rw [Numeral.word?_eq, Int64.toInt_minValue, Int64.toInt_maxValue]
    exact if_pos (by omega)
  exact ⟨_, hword, Numeral.toInt_of_word? hword⟩

/-- What a numeral with an exponent in range is read as. -/
theorem readDecimal?_eq_some (hoctal : isLeadingZeroOctal n.chars = false)
    (hrange : n.exponent.natAbs ≤ 1024)
    (hlength : n.mantissa.excess n.exponent ≤ 0 ∨ n.mantissa.length < 2 ^ 62) :
    readDecimal? n.chars = some n.readNumber := by
  obtain ⟨e, he, hexponent⟩ := exists_word_of_le hrange
  rw [← hexponent] at hrange hlength
  rw [readDecimal?_chars hoctal, he, Option.bind_some, ofParts?_mantissa n.mantissa hrange hlength,
    Option.map_some, hexponent]
  unfold Numeral.readNumber SignMark.apply
  split
  · rfl
  · rfl

end Decimal

namespace Decimal

def paddedNumeral (zeros : Nat) : Numeral where
  sign := .absent
  mantissa := {
    whole := ['0']
    fraction? := some (List.replicate zeros '0' ++ ['1'])
    whole_digits := List.all_eq_true.mp rfl
    fraction_digits := by
      intro c hc
      rcases List.mem_append.mp hc with hc | hc
      · exact List.eq_of_mem_replicate hc ▸ rfl
      · exact List.mem_singleton.mp hc ▸ rfl
    ne_nil := by simp }
  exponent? := none

theorem value_paddedNumeral (zeros : Nat) : (paddedNumeral zeros).mantissa.value = 1 := by
  change Nat.ofDigitChars 10 ('0' :: (List.replicate zeros '0' ++ ['1'])) 0 = 1
  rw [Nat.ofDigitChars_cons]
  induction zeros with
  | zero => rfl
  | succ zeros ih => exact ih

/-- With `2 ^ 32 + 17` zeros, the count of the digits to cut off loses a bit, and none is cut off. -/
theorem readNumber_paddedNumeral {zeros : Nat} (h : zeros = 2 ^ 32 + 17) :
    (paddedNumeral zeros).readNumber = ⟨1⟩ ∧ (paddedNumeral zeros).number = ⟨0⟩ := by
  have hexponent : (paddedNumeral zeros).exponent = 0 := rfl
  -- There are exactly `2 ^ 32` digits to take away, whose last thirty-two bits are zero.
  have hexcess : (paddedNumeral zeros).mantissa.excess 0 = 2 ^ 32 := by
    have hplaces : (paddedNumeral zeros).mantissa.fraction.length = zeros + 1 := by
      simp [paddedNumeral, Mantissa.fraction]
    rw [Mantissa.excess, hplaces]
    omega
  have hlength : (paddedNumeral zeros).mantissa.length = zeros + 2 := by
    simp [paddedNumeral, Mantissa.length, Mantissa.fraction]
  have hsign (n : Int) : (paddedNumeral zeros).sign.apply n = n := rfl
  constructor
  · unfold Numeral.readNumber Mantissa.readScaled
    rw [hsign, hexponent, hexcess, hlength, value_paddedNumeral, if_pos (by omega)]
    rfl
  · unfold Numeral.number
    have hsmall : (1 : Int) < 10 ^ (2 ^ 32 : Int).toNat :=
      one_lt_pow₀ (by decide) (by decide)
    rw [hsign, hexponent, Mantissa.scaled_eq, hexcess, value_paddedNumeral, if_neg (by decide),
      Nat.cast_one, Int.ediv_eq_zero_of_lt (by decide) hsmall]

end Decimal

end MeteredScript
