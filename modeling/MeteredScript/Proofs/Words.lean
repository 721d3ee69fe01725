import MeteredScript.Eval.Rules
import MeteredScript.Proofs.Sums

namespace MeteredScript.Decimal

/-! # Sizes of results

The words of a sum, a product, a quotient or a remainder are bounded by the words of the operands,
and so by the price that is asked for it. Main statements: `saturate_words_mul_le` and its likes say
so for one operation, and `saturate_words_power_le` for a power, whose charges are added up over the
whole loop. Charges are counted as a meter counts them, up to `maxUnits`.
-/

/-! ## Words and bits -/

variable {a b q : Decimal} {k : Nat}

/-- A number of so many bits is below that power of two. -/
theorem bitLength_le_iff {n : Nat} : bitLength n ≤ k ↔ n < Nat.pow 2 k := by
  unfold bitLength
  by_cases hn : n = 0
  · rw [if_pos hn, hn]
    have hpos : 0 < Nat.pow 2 k := Nat.pow_pos (by decide)
    exact ⟨fun _ => hpos, fun _ => Nat.zero_le k⟩
  · rw [if_neg hn]
    exact Nat.succ_le_iff.trans (Nat.log2_lt hn)

theorem words_le_succ_iff : a.words ≤ k + 1 ↔ a.raw.natAbs < Nat.pow 2 (64 * k + 63) := by
  rw [← bitLength_le_iff]
  unfold words
  omega

/-- How large a number of so many words can be. -/
theorem exists_words_eq (a : Decimal) :
    ∃ k, a.words = k + 1 ∧ a.raw.natAbs < Nat.pow 2 (64 * k + 63) := by
  have hwords : a.words = bitLength a.raw.natAbs / 64 + 1 := rfl
  exact ⟨_, hwords, words_le_succ_iff.mp (Nat.le_of_eq hwords)⟩

theorem words_pos (a : Decimal) : 1 ≤ a.words := Nat.le_add_left 1 _

theorem words_one : one.words = 1 := by
  have hle : one.words ≤ 0 + 1 := words_le_succ_iff.mpr (by decide)
  exact Nat.le_antisymm hle one.words_pos

theorem pow_two_mono {j : Nat} (h : j ≤ k) : Nat.pow 2 j ≤ Nat.pow 2 k :=
  Nat.pow_le_pow_right (by decide) h

/-- Bits of a product are at most those of both factors. -/
theorem lt_pow_add {m n j : Nat} (hm : m < Nat.pow 2 j) (hn : n < Nat.pow 2 k) :
    m * n < Nat.pow 2 (j + k) := by
  have hprod : m * n < Nat.pow 2 j * Nat.pow 2 k := Nat.mul_lt_mul'' hm hn
  exact Nat.lt_of_lt_of_eq hprod (Nat.pow_add 2 j k).symm

/-! ## Sums -/

/-- A sum may need one word more than its price. -/
theorem words_add_le (a b : Decimal) : (a.add b).words ≤ Run.linearPrice a b + 1 := by
  obtain ⟨x, hx, ha⟩ := a.exists_words_eq
  obtain ⟨y, hy, hb⟩ := b.exists_words_eq
  have hprice : Run.linearPrice a b = max x y + 1 := by
    unfold Run.linearPrice
    omega
  rw [hprice, words_le_succ_iff]
  -- both summands are below the same power of two, and the sum is below twice that
  have ha' := Nat.lt_of_lt_of_le ha (pow_two_mono (show 64 * x + 63 ≤ 64 * max x y + 63 by omega))
  have hb' := Nat.lt_of_lt_of_le hb (pow_two_mono (show 64 * y + 63 ≤ 64 * max x y + 63 by omega))
  have hsum : (a.add b).raw.natAbs ≤ a.raw.natAbs + b.raw.natAbs := Int.natAbs_add_le _ _
  have hdouble : Nat.pow 2 (64 * max x y + 63 + 1) = Nat.pow 2 (64 * max x y + 63) * 2 :=
    Nat.pow_succ 2 _
  have htop := pow_two_mono (show 64 * max x y + 63 + 1 ≤ 64 * (max x y + 1) + 63 by omega)
  omega

theorem words_neg (a : Decimal) : a.neg.words = a.words := by
  unfold words neg
  rw [Int.natAbs_neg]

theorem words_sub_le (a b : Decimal) : (a.sub b).words ≤ Run.linearPrice a b + 1 := by
  have hsum := words_add_le a b.neg
  unfold Run.linearPrice at hsum ⊢
  rw [words_neg] at hsum
  have hsub : a.sub b = a.add b.neg := congrArg mk Int.sub_eq_add_neg
  rw [hsub]
  exact hsum

/-- A step costs the words of the number. -/
theorem words_step_le (op : UpdateOp) (n : Decimal) : (Run.step op n).words ≤ n.words + 1 := by
  have hprice : Run.linearPrice n one = n.words := by
    unfold Run.linearPrice
    rw [words_one]
    exact Nat.max_eq_left n.words_pos
  cases op with
  | increment => exact hprice ▸ words_add_le n one
  | decrement => exact hprice ▸ words_sub_le n one

/-! ## Products, quotients and remainders -/

/-- A product is no longer than the product of the lengths, and a word. -/
theorem words_mul_le (a b : Decimal) : (a.mul b).words ≤ a.words * b.words + 1 := by
  obtain ⟨x, hx, ha⟩ := a.exists_words_eq
  obtain ⟨y, hy, hb⟩ := b.exists_words_eq
  have hbits : (a.mul b).words ≤ (x + y + 1) + 1 := by
    rw [words_le_succ_iff]
    -- digits that are cut off make the product smaller
    have hcut : (a.mul b).raw.natAbs ≤ a.raw.natAbs * b.raw.natAbs := by
      unfold mul
      rw [Int.natAbs_tdiv, Int.natAbs_mul]
      exact Nat.div_le_self _ _
    have hprod := lt_pow_add ha hb
    have htop := pow_two_mono (show 64 * x + 63 + (64 * y + 63) ≤ 64 * (x + y + 1) + 63 by omega)
    omega
  have hexpand : (x + 1) * (y + 1) = x * y + (x + y + 1) := by
    rw [Nat.add_one_mul, Nat.mul_add_one]
    omega
  rw [hx, hy, hexpand]
  omega

/-- Neither is a quotient, -/
theorem words_div_le (hq : a.div? b = some q) : q.words ≤ a.words * b.words + 1 := by
  obtain ⟨x, hx, ha⟩ := a.exists_words_eq
  have hbits : q.words ≤ (x + 1) + 1 := by
    rw [words_le_succ_iff]
    have hcut : q.raw.natAbs ≤ a.raw.natAbs * scale.natAbs := by
      unfold div? at hq
      split at hq
      · cases hq
      · cases hq
        rw [Int.natAbs_tdiv, Int.natAbs_mul]
        exact Nat.div_le_self _ _
    -- a quotient is scaled up by eighteen digits, which is less than a word
    have hscale : scale.natAbs < Nat.pow 2 60 := by decide
    have hprod := lt_pow_add ha hscale
    have htop := pow_two_mono (show 64 * x + 63 + 60 ≤ 64 * (x + 1) + 63 by omega)
    omega
  have hfactor := Nat.le_mul_of_pos_right a.words b.words_pos
  omega

theorem words_rem_le {r : Decimal} (hr : a.rem? b = some r) : r.words ≤ a.words * b.words + 1 := by
  obtain ⟨x, hx, ha⟩ := a.exists_words_eq
  have hbits : r.words ≤ x + 1 := by
    rw [words_le_succ_iff]
    have hcut : r.raw.natAbs ≤ a.raw.natAbs := by
      unfold rem? at hr
      split at hr
      · cases hr
      · cases hr
        rw [Int.natAbs_tmod]
        exact Nat.mod_le _ _
    exact Nat.lt_of_le_of_lt hcut ha
  have hfactor := Nat.le_mul_of_pos_right a.words b.words_pos
  omega

/-- The price of a product is the product of the words as far as units are counted. -/
theorem saturate_le_wordProduct {words : Nat} (h : words ≤ a.words * b.words + 1) :
    saturate words ≤ wordProduct a b + 1 := by
  unfold wordProduct saturate
  omega

/-- The price of a product covers its length, up to a word. -/
theorem saturate_words_mul_le (a b : Decimal) : saturate (a.mul b).words ≤ wordProduct a b + 1 :=
  saturate_le_wordProduct (words_mul_le a b)

theorem saturate_words_div_le (hq : a.div? b = some q) : saturate q.words ≤ wordProduct a b + 1 :=
  saturate_le_wordProduct (words_div_le hq)

theorem saturate_words_rem_le {r : Decimal} (hr : a.rem? b = some r) :
    saturate r.words ≤ wordProduct a b + 1 :=
  saturate_le_wordProduct (words_rem_le hr)

theorem words_reciprocal_le (hq : one.div? a = some q) : q.words ≤ a.words + 1 := by
  have hle := words_div_le hq
  rwa [words_one, Nat.one_mul] at hle

/-! ## Powers

A power is what its charges are followed by: it first makes all of them, one after another, and the
result depends on none.
-/

/-- The charges and the result for one binary digit of the count. -/
def digitBill (count : Nat) (base acc : Decimal) : List Nat × Decimal :=
  if count % 2 = 1 then ([wordProduct acc base], acc.mul base) else ([], acc)

/-- The charges of multiplying by `base ^ count`, in order, and the result. -/
def loopBill (count : Nat) (base acc : Decimal) : List Nat × Decimal :=
  if count = 0 then ([], acc)
  else if count / 2 = 0 then digitBill count base acc
  else
    let digit := digitBill count base acc
    let rest := loopBill (count / 2) (base.mul base) digit.2
    (digit.1 ++ wordProduct base base :: rest.1, rest.2)
termination_by count

/-- The charges of a power, in order, and the result. -/
def powerBill (base exponent : Decimal) : List Nat × Option Decimal :=
  if !exponent.isInteger then ([], none)
  else if exponent.trunc.natAbs > maxUnits then ([], none)
  else
    let loop := loopBill exponent.trunc.natAbs base one
    if exponent.trunc < 0 then (loop.1 ++ [loop.2.words], one.div? loop.2) else (loop.1, some loop.2)

section

variable {m : Type → Type} [Monad m] [LawfulMonad m] (charge : Nat → m Unit)

/-- A binary digit makes the charges of its bill. -/
theorem powerDigit_eq (count : Nat) (base acc : Decimal) :
    powerDigit charge count base acc =
      forM (digitBill count base acc).1 charge >>= fun _ => pure (digitBill count base acc).2 := by
  unfold powerDigit digitBill
  split
  · simp only [List.forM_cons, List.forM_nil, bind_assoc, pure_bind]
  · simp only [List.forM_nil, pure_bind]

/-- The loop makes the charges of its bill, in order. -/
theorem powerLoop_eq (count : Nat) (base acc : Decimal) :
    powerLoop charge count base acc =
      forM (loopBill count base acc).1 charge >>= fun _ => pure (loopBill count base acc).2 := by
  induction count using Nat.strongRecOn generalizing base acc with
  | ind count ih =>
    unfold powerLoop loopBill
    by_cases hzero : count = 0
    · rw [if_pos hzero, if_pos hzero]
      simp only [List.forM_nil, pure_bind]
    · rw [if_neg hzero, if_neg hzero, powerDigit_eq]
      by_cases hlast : count / 2 = 0
      · simp only [if_pos hlast, bind_assoc, pure_bind]
      · have hhalf : count / 2 < count := Nat.div_lt_self (by omega) (by decide)
        simp only [if_neg hlast, ih _ hhalf, bind_assoc, pure_bind, List.forM_append,
          List.forM_cons]

/-- Whoever is charged, a power makes the same charges and gives the same result. -/
theorem power_eq (base exponent : Decimal) :
    power charge base exponent =
      forM (powerBill base exponent).1 charge >>= fun _ => pure (powerBill base exponent).2 := by
  unfold power powerBill
  dsimp only
  split
  · simp only [List.forM_nil, pure_bind]
  · split
    · simp only [List.forM_nil, pure_bind]
    · rw [powerLoop_eq]
      split
      · simp only [bind_assoc, pure_bind, List.forM_append, List.forM_cons, List.forM_nil]
      · simp only [bind_assoc, pure_bind]

end

theorem saturate_words_digitBill_le (count : Nat) (base : Decimal) {acc : Decimal} {paid : Nat}
    (hacc : saturate acc.words ≤ paid + 1) :
    saturate (digitBill count base acc).2.words ≤
      paid + total (digitBill count base acc).1 + 1 := by
  unfold digitBill
  split
  · have hmul := saturate_words_mul_le acc base
    dsimp only
    rw [total_cons]
    omega
  · exact Nat.le_trans hacc (Nat.add_le_add_right (Nat.le_add_right paid _) 1)

/-- The loop multiplies only what it pays for; squares of the base are paid for besides. -/
theorem saturate_words_loopBill_le (count : Nat) (base : Decimal) {acc : Decimal} {paid : Nat}
    (hacc : saturate acc.words ≤ paid + 1) :
    saturate (loopBill count base acc).2.words ≤
      paid + total (loopBill count base acc).1 + 1 := by
  induction count using Nat.strongRecOn generalizing base acc paid with
  | ind count ih =>
    unfold loopBill
    by_cases hzero : count = 0
    · rw [if_pos hzero]
      exact Nat.le_trans hacc (Nat.add_le_add_right (Nat.le_add_right paid _) 1)
    · rw [if_neg hzero]
      have hdigit := saturate_words_digitBill_le count base hacc
      by_cases hlast : count / 2 = 0
      · rw [if_pos hlast]
        exact hdigit
      · rw [if_neg hlast]
        -- one square is paid for, and it is the base of the remaining digits
        have hhalf : count / 2 < count := Nat.div_lt_self (by omega) (by decide)
        have hrest := ih _ hhalf (base.mul base) hdigit
        dsimp only
        rw [total_append, total_cons]
        omega

/-- A power has at most one word more than units were asked for. -/
theorem saturate_words_power_le {base exponent result : Decimal}
    (hresult : (powerBill base exponent).2 = some result) :
    saturate result.words ≤ total (powerBill base exponent).1 + 1 := by
  have hone : saturate one.words ≤ 0 + 1 := by
    rw [words_one]
    decide
  have hloop := saturate_words_loopBill_le exponent.trunc.natAbs base hone
  unfold powerBill at hresult ⊢
  split at hresult
  · cases hresult
  · rename_i hinteger
    split at hresult
    · cases hresult
    · rename_i hsmall
      rw [if_neg hinteger, if_neg hsmall]
      dsimp only at hresult ⊢
      split at hresult
      -- the reciprocal is paid for by the length of what it is the reciprocal of
      · rename_i hnegative
        rw [if_pos hnegative, total_append, total_cons]
        have hle := words_reciprocal_le hresult
        have hcut : saturate result.words ≤ result.words := Nat.min_le_left _ _
        omega
      · rename_i hpositive
        rw [if_neg hpositive]
        cases hresult
        rwa [Nat.zero_add] at hloop

end MeteredScript.Decimal
