import Mathlib.Data.Nat.Cast.Order.Field
import Mathlib.Data.Rat.Floor
import MeteredScript.Proofs.Words

namespace MeteredScript

/-! # Powers

What a power of decimals is, what it charges on the way, and when there is none. The
multiplications of the squaring loop are listed with their factors, and each of them is charged for.
Main statements: `Decimal.power_of_integers` says that powers of integers are exact and which
charges they make, and `Decimal.power_eq_none_iff` when a power has no result.
-/

/-! ## Charges in a row -/

section

variable {ε σ : Type} (charge : Nat → EStateM ε σ Unit)

/-- The charges are made one after another, and none fails. -/
inductive Paid : σ → List Nat → σ → Prop
  | nil (s : σ) : Paid s [] s
  | cons {s t u : σ} {units : Nat} {rest : List Nat} :
      charge units s = .ok () t → Paid t rest u → Paid s (units :: rest) u

/-- The charges are made one after another, up to one that fails. -/
inductive Refused : σ → List Nat → ε → σ → Prop
  | here {s t : σ} {units : Nat} {e : ε} (rest : List Nat) :
      charge units s = .error e t → Refused s (units :: rest) e t
  | later {s t u : σ} {units : Nat} {rest : List Nat} {e : ε} :
      charge units s = .ok () t → Refused t rest e u → Refused s (units :: rest) e u

variable {charge}

variable {α : Type} {bill : List Nat} {s t : σ}

/-- What is returned once all charges are made. -/
theorem pay_of_paid (h : Paid charge s bill t) (a : α) :
    (forM bill charge >>= fun _ => pure a : EStateM ε σ α) s = .ok a t := by
  induction h with
  | nil s => rfl
  | cons hcharge _ ih =>
    rw [List.forM_cons, bind_assoc]
    change EStateM.bind _ _ _ = _
    rw [EStateM.bind, hcharge]
    exact ih

/-- Nothing is returned if a charge fails. -/
theorem pay_of_refused {e : ε} (h : Refused charge s bill e t) (a : α) :
    (forM bill charge >>= fun _ => pure a : EStateM ε σ α) s = .error e t := by
  induction h with
  | here rest hcharge =>
    rw [List.forM_cons, bind_assoc]
    change EStateM.bind _ _ _ = _
    rw [EStateM.bind, hcharge]
  | later hcharge _ ih =>
    rw [List.forM_cons, bind_assoc]
    change EStateM.bind _ _ _ = _
    rw [EStateM.bind, hcharge]
    exact ih

/-- Charges in a row are all made, or one of them fails. -/
theorem paid_or_refused (charge : Nat → EStateM ε σ Unit) (s : σ) (bill : List Nat) :
    (∃ t, Paid charge s bill t) ∨ ∃ e t, Refused charge s bill e t := by
  induction bill generalizing s with
  | nil => exact .inl ⟨s, .nil s⟩
  | cons units rest ih =>
    cases hcharge : charge units s with
    | ok _ t =>
      rcases ih t with ⟨u, hpaid⟩ | ⟨e, u, hrefused⟩
      · exact .inl ⟨u, .cons hcharge hpaid⟩
      · exact .inr ⟨e, u, .later hcharge hrefused⟩
    | error e t => exact .inr ⟨e, t, .here rest hcharge⟩

theorem pay_eq_ok_iff {a r : α} :
    (forM bill charge >>= fun _ => pure a : EStateM ε σ α) s = .ok r t ↔
      Paid charge s bill t ∧ r = a := by
  constructor
  · intro h
    -- whether the bill is paid decides what is returned
    rcases paid_or_refused charge s bill with ⟨u, hpaid⟩ | ⟨e, u, hrefused⟩
    · rw [pay_of_paid hpaid] at h
      cases h
      exact ⟨hpaid, rfl⟩
    · rw [pay_of_refused hrefused] at h
      cases h
  · rintro ⟨hpaid, rfl⟩
    exact pay_of_paid hpaid r

theorem pay_eq_error_iff {a : α} {e : ε} :
    (forM bill charge >>= fun _ => pure a : EStateM ε σ α) s = .error e t ↔
      Refused charge s bill e t := by
  constructor
  · intro h
    rcases paid_or_refused charge s bill with ⟨u, hpaid⟩ | ⟨e, u, hrefused⟩
    · rw [pay_of_paid hpaid] at h
      cases h
    · rw [pay_of_refused hrefused] at h
      cases h
      exact hrefused
  · intro hrefused
    exact pay_of_refused hrefused a

end

end MeteredScript

namespace MeteredScript.Decimal

/-! ## Multiplications in order -/

/-- The multiplication for one binary digit of the count, if it is a one. -/
def digitSteps (count : Nat) (base acc : Decimal) : List (Decimal × Decimal) :=
  if count % 2 = 1 then [(acc, base)] else []

/-- The multiplications that multiply `acc` by `base ^ count`, in order, each with its factors. The
base is not squared any more after the last digit. -/
def loopSteps (count : Nat) (base acc : Decimal) : List (Decimal × Decimal) :=
  if count = 0 then []
  else
    digitSteps count base acc ++ (if count / 2 = 0 then [] else [(base, base)]) ++
      loopSteps (count / 2) (base.mul base) (digitBill count base acc).2
termination_by count

/-- A power of zero multiplies nothing. -/
theorem loopSteps_zero (base acc : Decimal) : loopSteps 0 base acc = [] := by
  rw [loopSteps, if_pos rfl]

theorem loopBill_zero (base acc : Decimal) : loopBill 0 base acc = ([], acc) := by
  rw [loopBill, if_pos rfl]

/-- What multiplications are charged. -/
def prices (steps : List (Decimal × Decimal)) : List Nat :=
  steps.map fun step => wordProduct step.1 step.2

theorem prices_append (steps steps' : List (Decimal × Decimal)) :
    prices (steps ++ steps') = prices steps ++ prices steps' :=
  List.map_append

/-- What a binary digit of the exponent charges are the prices of its multiplications. -/
theorem digitBill_fst (count : Nat) (base acc : Decimal) :
    (digitBill count base acc).1 = prices (digitSteps count base acc) := by
  unfold digitBill digitSteps
  split <;> rfl

/-- One round of the loop. -/
theorem loopBill_of_ne_zero {count : Nat} (h : count ≠ 0) (base acc : Decimal) :
    (loopBill count base acc).1 =
        prices (digitSteps count base acc ++ if count / 2 = 0 then [] else [(base, base)]) ++
          (loopBill (count / 2) (base.mul base) (digitBill count base acc).2).1 ∧
      (loopBill count base acc).2 =
        (loopBill (count / 2) (base.mul base) (digitBill count base acc).2).2 := by
  rw [prices_append, ← digitBill_fst, loopBill, if_neg h]
  by_cases hlast : count / 2 = 0
  · simp [hlast, loopBill, prices]
  · simp [hlast, prices]

theorem loopBill_fst (count : Nat) (base acc : Decimal) :
    (loopBill count base acc).1 = prices (loopSteps count base acc) := by
  fun_induction loopSteps count base acc with
  | case1 base acc =>
    rw [loopBill_zero]
    rfl
  | case2 count base acc hzero ih =>
    rw [(loopBill_of_ne_zero hzero base acc).1, ih, ← prices_append]

/-- A factor that is there after some multiplications: one, the base, or the product of one of
them. -/
def Known (base : Decimal) (done : List (Decimal × Decimal)) (a : Decimal) : Prop :=
  a = one ∨ a = base ∨ ∃ step ∈ done, a = step.1.mul step.2

/-- Multiplications in order, behind those that are `done`: the factors of each are known from the
ones before it. -/
inductive Chain (base : Decimal) : List (Decimal × Decimal) → List (Decimal × Decimal) → Prop
  | nil (done : List (Decimal × Decimal)) : Chain base done []
  | cons {done rest : List (Decimal × Decimal)} {a b : Decimal} :
      Known base done a → Known base done b → Chain base (done ++ [(a, b)]) rest →
      Chain base done ((a, b) :: rest)

namespace Known

variable {base a b : Decimal} {done : List (Decimal × Decimal)}

theorem append (h : Known base done a) (more : List (Decimal × Decimal)) :
    Known base (done ++ more) a := by
  rcases h with hone | hbase | ⟨step, hstep, ha⟩
  · exact .inl hone
  · exact .inr (.inl hbase)
  · exact .inr (.inr ⟨step, List.mem_append_left more hstep, ha⟩)

theorem product {a b : Decimal} (h : (a, b) ∈ done) : Known base done (a.mul b) :=
  .inr (.inr ⟨(a, b), h, rfl⟩)

end Known

variable {base a b acc exponent : Decimal} {n : Int} {done : List (Decimal × Decimal)}

/-- Multiplications in a row, of what is known by then. -/
theorem Chain.append {first second : List (Decimal × Decimal)} (hfirst : Chain base done first)
    (hsecond : Chain base (done ++ first) second) : Chain base done (first ++ second) := by
  induction hfirst with
  | nil done => rwa [List.append_nil] at hsecond
  | cons ha hb _ ih =>
    refine .cons ha hb (ih ?_)
    rwa [List.append_assoc, List.singleton_append]

theorem Chain.single (ha : Known base done a) (hb : Known base done b) : Chain base done [(a, b)] :=
  .cons ha hb (.nil _)

/-- For a digit the power so far is multiplied with the square, both of which are known. -/
theorem chain_digitSteps {start : Decimal} (hbase : Known start done base)
    (hacc : Known start done acc) (count : Nat) :
    Chain start done (digitSteps count base acc) ∧
      Known start (done ++ digitSteps count base acc) (digitBill count base acc).2 := by
  unfold digitSteps digitBill
  split
  · exact ⟨.single hacc hbase, .product (by simp)⟩
  · exact ⟨.nil done, hacc.append []⟩

/-- The loop multiplies only what it has, and the result is the last product, if there is any. -/
theorem chain_loopSteps {start : Decimal} (hbase : Known start done base)
    (hacc : Known start done acc) (count : Nat) :
    Chain start done (loopSteps count base acc) ∧
      Known start (done ++ loopSteps count base acc) (loopBill count base acc).2 := by
  fun_induction loopSteps count base acc generalizing done with
  | case1 base acc =>
    rw [loopBill_zero]
    exact ⟨.nil done, hacc.append []⟩
  | case2 count base acc hzero ih =>
    obtain ⟨hdigit, hacc'⟩ := chain_digitSteps hbase hacc count
    rw [(loopBill_of_ne_zero hzero base acc).2]
    by_cases hlast : count / 2 = 0
    · rw [if_pos hlast, hlast, loopSteps_zero, loopBill_zero, List.append_nil, List.append_nil]
      exact ⟨hdigit, hacc'⟩
    · -- the next round has the square of the base, too
      have hbase' := hbase.append (digitSteps count base acc)
      have hsteps := hdigit.append (.single hbase' hbase')
      have hsquare : Known start (done ++ (digitSteps count base acc ++ [(base, base)]))
          (base.mul base) := .product (by simp)
      have hacc'' := hacc'.append [(base, base)]
      rw [List.append_assoc] at hacc''
      obtain ⟨hrest, hresult⟩ := ih hsquare hacc''
      rw [if_neg hlast]
      refine ⟨hsteps.append hrest, ?_⟩
      rwa [List.append_assoc] at hresult

/-! ## Integers -/

/-- Products of integers are exact. -/
theorem mul_ofInt (a b : Int) : (ofInt a).mul (ofInt b) = ofInt (a * b) := by
  have hproduct : (ofInt a).raw * (ofInt b).raw = a * b * scale * scale := by
    simp only [ofInt]
    ring
  rw [mul, hproduct, Int.mul_tdiv_cancel _ (by decide), ofInt]

/-- The multiplications for the binary digit at a place of the count: by the power of the base that
belongs to the place, if the digit is a one, and the squaring of that power, except for the last
place. -/
def placeSteps (b : Int) (count place : Nat) : List (Decimal × Decimal) :=
  (if count.testBit place then
    [(ofInt (b ^ (count % 2 ^ place)), ofInt (b ^ 2 ^ place))] else []) ++
    if place + 1 < bitLength count then [(ofInt (b ^ 2 ^ place), ofInt (b ^ 2 ^ place))] else []

/-- The multiplications for `b ^ count`, from the last binary digit of the count to the first. -/
def squaringSteps (b : Int) (count : Nat) : List (Decimal × Decimal) :=
  (List.range (bitLength count)).flatMap (placeSteps b count)

/-- Behind the last binary digit there are none. -/
theorem div_pow_eq_zero_iff {count place : Nat} :
    count / 2 ^ place = 0 ↔ bitLength count ≤ place := by
  rw [Nat.div_eq_zero_iff_lt (Nat.two_pow_pos place)]
  exact bitLength_le_iff.symm

theorem div_pow_div_two (count place : Nat) : count / 2 ^ place / 2 = count / 2 ^ (place + 1) := by
  rw [Nat.div_div_eq_div_mul, pow_succ]

theorem square_ofInt_pow (b : Int) (place : Nat) :
    (ofInt (b ^ 2 ^ place)).mul (ofInt (b ^ 2 ^ place)) = ofInt (b ^ 2 ^ (place + 1)) := by
  rw [mul_ofInt, ← pow_add, ← Nat.two_mul, ← pow_succ']

/-- At each place: the multiplication is made if the digit is one, and the power so far has the exponent
of the digits so far. -/
theorem digit_at_place (b : Int) (count place : Nat) :
    digitSteps (count / 2 ^ place) (ofInt (b ^ 2 ^ place)) (ofInt (b ^ (count % 2 ^ place))) =
        (if count.testBit place then
          [(ofInt (b ^ (count % 2 ^ place)), ofInt (b ^ 2 ^ place))] else []) ∧
      (digitBill (count / 2 ^ place) (ofInt (b ^ 2 ^ place)) (ofInt (b ^ (count % 2 ^ place)))).2 =
        ofInt (b ^ (count % 2 ^ (place + 1))) := by
  -- the digits so far are a remainder, and one more digit is its next binary place
  have hnext : count % 2 ^ (place + 1) =
      count % 2 ^ place + 2 ^ place * (count / 2 ^ place % 2) := by
    rw [pow_succ, Nat.mod_mul]
  unfold digitSteps digitBill
  rw [Nat.testBit_eq_decide_div_mod_eq]
  by_cases hdigit : count / 2 ^ place % 2 = 1
  · rw [if_pos hdigit, if_pos hdigit, hnext, hdigit, mul_ofInt, pow_add, Nat.mul_one]
    simp
  · have hzero : count / 2 ^ place % 2 = 0 := by omega
    rw [if_neg hdigit, if_neg hdigit, hnext, hzero]
    simp

/-- At each place, the base is `b ^ 2 ^ place`, and the digits of the count up to there are done. -/
theorem loop_from_place (b : Int) (count place : Nat) :
    loopSteps (count / 2 ^ place) (ofInt (b ^ 2 ^ place)) (ofInt (b ^ (count % 2 ^ place))) =
        ((List.range (bitLength count)).drop place).flatMap (placeSteps b count) ∧
      (loopBill (count / 2 ^ place) (ofInt (b ^ 2 ^ place)) (ofInt (b ^ (count % 2 ^ place)))).2 =
        ofInt (b ^ count) := by
  by_cases hzero : count / 2 ^ place = 0
  -- all digits are done
  · have hend := div_pow_eq_zero_iff.mp hzero
    have hall : count % 2 ^ place = count := Nat.mod_eq_of_lt (bitLength_le_iff.mp hend)
    rw [hzero, loopSteps_zero, loopBill_zero, hall, List.drop_eq_nil_of_le (by simpa using hend)]
    exact ⟨rfl, rfl⟩
  -- the round for this place leads to the next place
  · have hplace : place < bitLength count := Nat.lt_of_not_le (mt div_pow_eq_zero_iff.mpr hzero)
    have hdrop : (List.range (bitLength count)).drop place =
        place :: (List.range (bitLength count)).drop (place + 1) := by
      rw [List.drop_eq_getElem_cons (by simpa using hplace), List.getElem_range]
    obtain ⟨hdigit, hacc⟩ := digit_at_place b count place
    have ih := loop_from_place b count (place + 1)
    rw [loopSteps, if_neg hzero, (loopBill_of_ne_zero hzero _ _).2, hacc, square_ofInt_pow,
      div_pow_div_two, ih.1, ih.2, hdrop, List.flatMap_cons, placeSteps, hdigit]
    refine ⟨?_, rfl⟩
    simp only [div_pow_eq_zero_iff, ← Nat.not_lt, ite_not]
termination_by bitLength count - place

/-- The loop multiplies what it should and gives the power. -/
theorem loop_ofInt (b : Int) (count : Nat) :
    loopSteps count (ofInt b) one = squaringSteps b count ∧
      (loopBill count (ofInt b) one).2 = ofInt (b ^ count) := by
  have hone : ofInt 1 = one := by decide
  have hloop := loop_from_place b count 0
  rwa [pow_zero, pow_one, Nat.div_one, Nat.mod_one, pow_zero, hone] at hloop

theorem isInteger_ofInt (n : Int) : (ofInt n).isInteger = true := by
  unfold isInteger ofInt
  rw [Int.mul_tmod_left]
  rfl

theorem trunc_ofInt (n : Int) : (ofInt n).trunc = n := Int.mul_tdiv_cancel n (by decide)

/-- A fraction that is cut off toward zero behind its eighteenth digit. -/
def cutOff (q : ℚ) : Decimal := ⟨if 0 ≤ q then ⌊q * 10 ^ 18⌋ else ⌈q * 10 ^ 18⌉⟩

/-- Quotients of integers that are cut off toward zero. -/
theorem tdiv_eq_round (hn : 0 ≤ n) (d : Int) :
    n.tdiv d = if 0 ≤ (1 / d : ℚ) then ⌊(1 / d : ℚ) * n⌋ else ⌈(1 / d : ℚ) * n⌉ := by
  have hfloor (k : Nat) : n.tdiv k = ⌊(1 / k : ℚ) * n⌋ := by
    rw [Int.tdiv_eq_ediv_of_nonneg hn, one_div_mul_eq_div, Rat.floor_intCast_div_natCast]
  rcases le_or_gt 0 d with hpos | hneg
  · obtain ⟨k, rfl⟩ := Int.eq_ofNat_of_zero_le hpos
    rw [if_pos (by positivity), hfloor]
    rfl
  · -- below zero, what is cut off makes the quotient larger
    obtain ⟨k, rfl⟩ : ∃ k : Nat, d = -k := ⟨d.natAbs, by omega⟩
    have hquotient : (1 / (-k : Int) : ℚ) = -(1 / k) := by
      push_cast
      rw [one_div_neg_eq_neg_one_div]
    rw [hquotient, if_neg (by simp; omega), Int.tdiv_neg, hfloor, neg_mul, Int.ceil_neg]

theorem reciprocal_ofInt {d : Int} (hd : d ≠ 0) : one.div? (ofInt d) = some (cutOff (1 / d)) := by
  have hzero : (ofInt d).isZero = false := by
    unfold isZero ofInt
    simp [hd, scale]
  have hraw : (one.raw * scale).tdiv (ofInt d).raw = scale.tdiv d :=
    Int.mul_tdiv_mul_of_pos_left _ _ (by decide)
  have hscale : ((scale : Int) : ℚ) = 10 ^ 18 := by norm_num [scale]
  rw [div?, if_neg (by simp [hzero]), hraw, cutOff, tdiv_eq_round (by decide), hscale]

/-- The charges for a power of integers: the word products of its multiplications, and the words of
the divisor if the exponent is negative. -/
def integerBill (b n : Int) : List Nat :=
  prices (squaringSteps b n.natAbs) ++ if n < 0 then [(ofInt (b ^ n.natAbs)).words] else []

/-- The power of an integer. There is none of zero with a negative exponent. -/
def integerPower? (b n : Int) : Option Decimal :=
  if 0 ≤ n then some (ofInt (b ^ n.natAbs))
  else if b = 0 then none
  else some (cutOff (1 / b ^ n.natAbs))

/-- A negative exponent has one more charge, for the reciprocal. -/
theorem powerBill_ofInt (base : Decimal) (hn : n.natAbs < 2 ^ 64) :
    powerBill base (ofInt n) =
      (if n < 0 then
        ((loopBill n.natAbs base one).1 ++ [(loopBill n.natAbs base one).2.words],
          one.div? (loopBill n.natAbs base one).2)
      else ((loopBill n.natAbs base one).1, some (loopBill n.natAbs base one).2)) := by
  have hsmall : ¬n.natAbs > maxUnits := Nat.not_lt.mpr (Nat.le_of_lt_succ hn)
  rw [powerBill, isInteger_ofInt, trunc_ofInt, if_neg (by decide), if_neg hsmall]

theorem powerBill_of_integers (b : Int) (hn : n.natAbs < 2 ^ 64) :
    powerBill (ofInt b) (ofInt n) = (integerBill b n, integerPower? b n) := by
  obtain ⟨hsteps, hresult⟩ := loop_ofInt b n.natAbs
  rw [powerBill_ofInt _ hn, loopBill_fst, hsteps, hresult, integerBill, integerPower?]
  by_cases hnegative : n < 0
  · rw [if_pos hnegative, if_pos hnegative, if_neg (Int.not_le.mpr hnegative)]
    -- the reciprocal of zero is left out
    by_cases hb : b = 0
    · have hzero : (0 : Int) ^ n.natAbs = 0 := zero_pow (by omega)
      rw [hb, if_pos rfl, hzero]
      rfl
    · have hpower : b ^ n.natAbs ≠ 0 := pow_ne_zero _ hb
      rw [if_neg hb, reciprocal_ofInt hpower, Int.cast_pow]
  · rw [if_neg hnegative, if_neg hnegative, if_pos (Int.not_lt.mp hnegative), List.append_nil]

/-- Powers of integers are exact. The charges are the word products of the multiplications, each of
which takes only factors that the ones before it have made. The power is returned once all charges
are made; if one fails, nothing is returned and no further charge is made. -/
theorem power_of_integers {ε σ : Type} (charge : Nat → EStateM ε σ Unit) (b n : Int)
    (hn : n.natAbs < 2 ^ 64) :
    Chain (ofInt b) [] (squaringSteps b n.natAbs) ∧
    Known (ofInt b) (squaringSteps b n.natAbs) (ofInt (b ^ n.natAbs)) ∧
    (∀ s r t, power charge (ofInt b) (ofInt n) s = .ok r t ↔
      Paid charge s (integerBill b n) t ∧ r = integerPower? b n) ∧
    ∀ s e t, power charge (ofInt b) (ofInt n) s = .error e t ↔
      Refused charge s (integerBill b n) e t := by
  obtain ⟨hsteps, hresult⟩ := loop_ofInt b n.natAbs
  have hbase : Known (ofInt b) [] (ofInt b) := .inr (.inl rfl)
  have hone : Known (ofInt b) [] one := .inl rfl
  -- The rounds of the loop start from the base and from one, and use nothing else.
  have hchain := chain_loopSteps hbase hone n.natAbs
  rw [hsteps, hresult, List.nil_append] at hchain
  refine ⟨hchain.1, hchain.2, fun s r t => ?_, fun s e t => ?_⟩
  · rw [power_eq, powerBill_of_integers b hn]
    exact pay_eq_ok_iff
  · rw [power_eq, powerBill_of_integers b hn]
    exact pay_eq_error_iff

/-- Notes every charge, and refuses once there are `limit` of them. -/
def noteUpTo (limit units : Nat) : EStateM Unit (List Nat) Unit := fun noted =>
  if noted.length < limit then .ok () (noted ++ [units]) else .error () noted

/-- Paid in full, refused at the fourth charge, and with a negative exponent. -/
theorem power_of_integers_small :
    (5 : Int).natAbs < 2 ^ 64 ∧ (-3 : Int).natAbs < 2 ^ 64 ∧
    power (noteUpTo 4) (ofInt 3) (ofInt 5) [] = .ok (some (ofInt 243)) [1, 1, 1, 2] ∧
    power (noteUpTo 3) (ofInt 3) (ofInt 5) [] = .error () [1, 1, 1] ∧
    power (noteUpTo 9) (ofInt (-2)) (ofInt (-3)) [] = .ok (some ⟨-125 * 10 ^ 15⟩) [1, 1, 1, 1] := by
  obtain ⟨-, -, hpaid, -⟩ := power_of_integers (noteUpTo 4) 3 5 (by decide)
  obtain ⟨-, -, -, hrefused⟩ := power_of_integers (noteUpTo 3) 3 5 (by decide)
  obtain ⟨-, -, hnegative, -⟩ := power_of_integers (noteUpTo 9) (-2) (-3) (by decide)
  have hbill : integerBill 3 5 = [1, 1, 1, 2] := by decide +kernel
  have hbill' : integerBill (-2) (-3) = [1, 1, 1, 1] := by decide +kernel
  refine ⟨by decide, by decide, (hpaid [] _ _).mpr ⟨?_, rfl⟩, (hrefused [] _ _).mpr ?_,
    (hnegative [] _ _).mpr ⟨?_, by decide +kernel⟩⟩
  · rw [hbill]
    exact .cons rfl (.cons rfl (.cons rfl (.cons rfl (.nil _))))
  · rw [hbill]
    exact .later rfl (.later rfl (.later rfl (.here [] rfl)))
  · rw [hbill']
    exact .cons rfl (.cons rfl (.cons rfl (.cons rfl (.nil _))))

/-! ## Powers without a result -/

/-- The exact value of a number. -/
def value (a : Decimal) : ℚ := a.raw / 10 ^ 18

theorem exists_eq_ofInt (h : a.isInteger = true) : ∃ n, a = ofInt n := by
  have hmod : a.raw.tmod scale = 0 := of_decide_eq_true h
  refine ⟨a.trunc, ?_⟩
  rw [ofInt, trunc, Int.tdiv_mul_cancel_of_tmod_eq_zero hmod]

theorem abs_value (a : Decimal) : |a.value| = a.raw.natAbs / 10 ^ 18 := by
  rw [value, abs_div, Nat.cast_natAbs, Int.cast_abs, abs_of_pos (by norm_num : (0 : ℚ) < 10 ^ 18)]

/-- Products are cut off toward zero: without signs this is a division. -/
theorem natAbs_mul (a b : Decimal) :
    (a.mul b).raw.natAbs = a.raw.natAbs * b.raw.natAbs / 10 ^ 18 := by
  rw [mul, Int.natAbs_tdiv, Int.natAbs_mul]
  rfl

/-- What is cut off makes a product smaller. -/
theorem abs_value_mul_le (a b : Decimal) : |(a.mul b).value| ≤ |a.value| * |b.value| := by
  have hcut : ((a.raw.natAbs * b.raw.natAbs / 10 ^ 18 : Nat) : ℚ) ≤
      (a.raw.natAbs * b.raw.natAbs : Nat) / (10 ^ 18 : Nat) := Nat.cast_div_le
  push_cast at hcut
  rw [abs_value, abs_value, abs_value, natAbs_mul, div_mul_div_comm, ← div_div]
  gcongr
  exact_mod_cast hcut

/-- Numbers of at least one have a product of at least one, also when it is cut off. -/
theorem one_le_abs_value_mul (ha : 1 ≤ |a.value|) (hb : 1 ≤ |b.value|) : 1 ≤ |(a.mul b).value| := by
  -- in units of the last digit, one is `10 ^ 18`
  have hle (c : Decimal) : 1 ≤ |c.value| ↔ 10 ^ 18 ≤ c.raw.natAbs := by
    rw [abs_value, one_le_div (by norm_num)]
    exact_mod_cast Iff.rfl
  rw [hle] at ha hb ⊢
  rw [natAbs_mul, Nat.le_div_iff_mul_le (by decide)]
  exact Nat.mul_le_mul ha hb

/-- Cutting off makes no product larger. -/
theorem abs_value_digitBill_le (count : Nat) (base acc : Decimal) :
    |(digitBill count base acc).2.value| ≤ |acc.value| * |base.value| ^ (count % 2) := by
  unfold digitBill
  split
  · rename_i hdigit
    rw [hdigit, pow_one]
    exact abs_value_mul_le acc base
  · rename_i hdigit
    rw [show count % 2 = 0 by omega, pow_zero, mul_one]

/-- The loop never gives more than the exact power. -/
theorem abs_value_loopBill_le (count : Nat) (base acc : Decimal) :
    |(loopBill count base acc).2.value| ≤ |acc.value| * |base.value| ^ count := by
  fun_induction loopSteps count base acc with
  | case1 base acc => rw [loopBill_zero, pow_zero, mul_one]
  | case2 count base acc hzero ih =>
    -- a round cuts off at two places: in the product for the digit and in the square
    have hsquare := abs_value_mul_le base base
    have hdigit := abs_value_digitBill_le count base acc
    rw [(loopBill_of_ne_zero hzero base acc).2]
    calc |(loopBill (count / 2) (base.mul base) (digitBill count base acc).2).2.value|
        ≤ |(digitBill count base acc).2.value| * |(base.mul base).value| ^ (count / 2) := ih
      _ ≤ |acc.value| * |base.value| ^ (count % 2) *
            (|base.value| * |base.value|) ^ (count / 2) := by gcongr
      _ = |acc.value| * |base.value| ^ count := by
          rw [mul_assoc, ← pow_two, ← pow_mul, ← pow_add, Nat.mod_add_div]

/-- Factors that are not below one have products that are not. -/
theorem one_le_abs_value_loopBill (hbase : 1 ≤ |base.value|) (hacc : 1 ≤ |acc.value|)
    (count : Nat) : 1 ≤ |(loopBill count base acc).2.value| := by
  -- both the square and the power so far stay at one or above
  fun_induction loopSteps count base acc with
  | case1 base acc => rwa [loopBill_zero]
  | case2 count base acc hzero ih =>
    rw [(loopBill_of_ne_zero hzero base acc).2]
    refine ih (one_le_abs_value_mul hbase hbase) ?_
    unfold digitBill
    split
    · exact one_le_abs_value_mul hacc hbase
    · exact hacc

theorem eq_zero_of_abs_value_lt (h : |a.value| < 1 / 10 ^ 18) : a = zero := by
  rw [abs_value, div_lt_div_iff_of_pos_right (by norm_num)] at h
  have hdigits : a.raw.natAbs < 1 := by exact_mod_cast h
  have hraw : a.raw = 0 := by omega
  exact congrArg Decimal.mk hraw

theorem abs_value_one : |one.value| = 1 := by
  have hscale : (one.raw : ℚ) = 10 ^ 18 := by norm_num [one, scale]
  rw [value, hscale]
  norm_num

theorem value_zero : zero.value = 0 := by
  rw [value, zero, Int.cast_zero, zero_div]

theorem isZero_iff : a.isZero = true ↔ a = zero := by
  constructor
  · intro h
    exact congrArg Decimal.mk (of_decide_eq_true h)
  · rintro rfl
    rfl

/-- A quotient is missing only if the divisor is zero. -/
theorem div?_eq_none_iff : a.div? b = none ↔ b = zero := by
  rw [← isZero_iff, div?]
  split
  · exact iff_of_true rfl ‹_›
  · exact iff_of_false (Option.some_ne_none _) ‹_›

theorem neg_ofInt (n : Int) : (ofInt n).neg = ofInt (-n) := by
  rw [neg, ofInt, ofInt, Int.neg_mul]

theorem raw_ofInt_neg_iff : (ofInt n).raw < 0 ↔ n < 0 := by
  have hraw : (ofInt n).raw = n * 10 ^ 18 := rfl
  omega

theorem powerBill_of_large (base : Decimal) (hn : 2 ^ 64 ≤ n.natAbs) :
    (powerBill base (ofInt n)).2 = none := by
  have hlarge : n.natAbs > maxUnits := hn
  rw [powerBill, isInteger_ofInt, trunc_ofInt, if_neg (by decide), if_pos hlarge]

theorem powerBill_of_fraction (base : Decimal) (h : exponent.isInteger = false) :
    (powerBill base exponent).2 = none := by
  rw [powerBill, h, if_pos (by decide)]

/-- A power has no result where the exponent is refused or where one is divided by zero. -/
theorem powerBill_eq_none_iff (base exponent : Decimal) :
    (powerBill base exponent).2 = none ↔
      exponent.isInteger = false ∨ 2 ^ 64 ≤ exponent.trunc.natAbs ∨
        exponent.raw < 0 ∧ (powerBill base exponent.neg).2 = some zero := by
  cases hinteger : exponent.isInteger with
  | false => exact iff_of_true (powerBill_of_fraction base hinteger) (.inl rfl)
  | true =>
    obtain ⟨n, rfl⟩ := exists_eq_ofInt hinteger
    rw [trunc_ofInt, neg_ofInt, raw_ofInt_neg_iff]
    by_cases hn : n.natAbs < 2 ^ 64
    · rw [powerBill_ofInt base hn, powerBill_ofInt base (Int.natAbs_neg n ▸ hn), Int.natAbs_neg]
      -- A negative power is a quotient, which is missing only if the power below it is zero.
      by_cases hnegative : n < 0
      · have hpositive : ¬-n < 0 := by omega
        simp only [hnegative, hpositive, if_true, if_false, div?_eq_none_iff, Option.some.injEq,
          Nat.not_le.mpr hn, true_and, false_or, reduceCtorEq]
      · simp only [hnegative, if_false, Nat.not_le.mpr hn, false_and, false_or, reduceCtorEq]
    · have hlarge : 2 ^ 64 ≤ n.natAbs := Nat.not_lt.mp hn
      exact iff_of_true (powerBill_of_large base hlarge) (.inr (.inl hlarge))

/-- A base so small that its power has no digit left has no negative power. -/
theorem powerBill_of_abs_value_pow_lt (hinteger : exponent.isInteger = true)
    (hnegative : exponent.raw < 0) (hsmall : |base.value| ^ exponent.trunc.natAbs < 1 / 10 ^ 18) :
    (powerBill base exponent).2 = none := by
  obtain ⟨n, rfl⟩ := exists_eq_ofInt hinteger
  rw [trunc_ofInt] at hsmall
  rw [raw_ofInt_neg_iff] at hnegative
  by_cases hn : n.natAbs < 2 ^ 64
  · have hle := abs_value_loopBill_le n.natAbs base one
    rw [abs_value_one, one_mul] at hle
    rw [powerBill_ofInt base hn, if_pos hnegative]
    exact div?_eq_none_iff.mpr (eq_zero_of_abs_value_lt (hle.trans_lt hsmall))
  · exact powerBill_of_large base (Nat.not_lt.mp hn)

theorem exists_powerBill_of_one_le (hinteger : exponent.isInteger = true)
    (hn : exponent.trunc.natAbs < 2 ^ 64) (hbase : 1 ≤ |base.value|) :
    ∃ a, (powerBill base exponent).2 = some a := by
  obtain ⟨n, rfl⟩ := exists_eq_ofInt hinteger
  rw [trunc_ofInt] at hn
  have hpower := one_le_abs_value_loopBill hbase abs_value_one.ge n.natAbs
  have hne : (loopBill n.natAbs base one).2 ≠ zero := by
    intro hzero
    rw [hzero, value_zero, abs_zero] at hpower
    exact absurd hpower (by norm_num)
  rw [powerBill_ofInt base hn]
  split
  · exact Option.ne_none_iff_exists'.mp fun hnone => hne (div?_eq_none_iff.mp hnone)
  · exact ⟨_, rfl⟩

section

variable {ε σ : Type} {charge : Nat → EStateM ε σ Unit}

theorem exists_paid (hcharge : ∀ units s, ∃ t, charge units s = .ok () t) (s : σ)
    (bill : List Nat) : ∃ t, Paid charge s bill t := by
  induction bill generalizing s with
  | nil => exact ⟨s, .nil s⟩
  | cons units rest ih =>
    obtain ⟨t, ht⟩ := hcharge units s
    obtain ⟨u, hu⟩ := ih t
    exact ⟨u, .cons ht hu⟩

/-- A payer who never refuses sees what the power is. -/
theorem exists_power_eq_iff (hcharge : ∀ units s, ∃ t, charge units s = .ok () t)
    (base exponent : Decimal) (s : σ) (r : Option Decimal) :
    (∃ t, power charge base exponent s = .ok r t) ↔ (powerBill base exponent).2 = r := by
  simp only [power_eq, pay_eq_ok_iff]
  constructor
  · rintro ⟨t, -, hr⟩
    exact hr.symm
  · intro hr
    obtain ⟨t, ht⟩ := exists_paid hcharge s (powerBill base exponent).1
    exact ⟨t, ht, hr.symm⟩

/-- There is no power for a fractional exponent, for an exponent of more than 64 bits, and for a
negative one where the positive power is zero, once the digits behind the eighteenth are cut off.
That is so for every base whose exact power is below the last digit, and for no base of at least
one. -/
theorem power_eq_none_iff (hcharge : ∀ units s, ∃ t, charge units s = .ok () t)
    (base exponent : Decimal) (s : σ) :
    ((∃ t, power charge base exponent s = .ok none t) ↔
      exponent.isInteger = false ∨ 2 ^ 64 ≤ exponent.trunc.natAbs ∨
        exponent.raw < 0 ∧ ∃ t, power charge base exponent.neg s = .ok (some zero) t) ∧
    (exponent.isInteger = true → exponent.raw < 0 →
      |base.value| ^ exponent.trunc.natAbs < 1 / 10 ^ 18 →
      ∃ t, power charge base exponent s = .ok none t) ∧
    (exponent.isInteger = true → exponent.trunc.natAbs < 2 ^ 64 → 1 ≤ |base.value| →
      ∃ a t, power charge base exponent s = .ok (some a) t) := by
  simp only [exists_power_eq_iff hcharge]
  exact ⟨powerBill_eq_none_iff base exponent, powerBill_of_abs_value_pow_lt,
    exists_powerBill_of_one_le⟩

end

/-- Asks for nothing. -/
def free (_units : Nat) : EStateM Unit Unit Unit := pure ()

/-- At the bounds of the exponent, where the power is cut off to zero, and for zero. -/
theorem power_eq_none_iff_at_bounds :
    (∀ units s, ∃ t, free units s = .ok () t) ∧
    (∃ t, power free one (ofInt (2 ^ 64)) () = .ok none t) ∧
    (∃ a t, power free one (ofInt (1 - 2 ^ 64)) () = .ok (some a) t) ∧
    (∃ t, power free ⟨10 ^ 17⟩ (ofInt (-19)) () = .ok none t) ∧
    ∃ t, power free zero (ofInt (-1)) () = .ok none t := by
  have hfree : ∀ units s, ∃ t, free units s = .ok () t := fun _ s => ⟨s, rfl⟩
  have hbound := fun base exponent => power_eq_none_iff hfree base exponent ()
  have htenth : value ⟨10 ^ 17⟩ = 1 / 10 := by norm_num [value]
  refine ⟨hfree, (hbound one _).1.mpr (.inr (.inl (by decide))),
    (hbound one _).2.2 rfl (by decide) abs_value_one.ge,
    (hbound _ _).2.1 rfl (by decide) ?_, (hbound zero _).2.1 rfl (by decide) ?_⟩
  · rw [htenth, trunc_ofInt]
    norm_num
  · rw [value_zero, trunc_ofInt]
    norm_num

/-- An integer exponent can be refused though it is positive, and a negative one though the base is
not zero. -/
theorem power_missing_of_nonzero_base :
    (power free one (ofInt (2 ^ 64)) () = .ok none () ∧
      ¬((ofInt (2 ^ 64)).isInteger = false ∨ (ofInt (2 ^ 64)).raw < 0 ∧ one = zero)) ∧
    power free ⟨10 ^ 17⟩ (ofInt (-19)) () = .ok none () ∧
      ¬((ofInt (-19)).isInteger = false ∨
        (ofInt (-19)).raw < 0 ∧ (⟨10 ^ 17⟩ : Decimal) = zero) := by
  have hnone : (powerBill ⟨10 ^ 17⟩ (ofInt (-19))).2 = none := by decide +kernel
  obtain ⟨_, hpower⟩ := (exists_power_eq_iff (fun _ s => ⟨s, rfl⟩) _ _ () none).mpr hnone
  exact ⟨⟨rfl, by decide⟩, hpower, by decide⟩

end MeteredScript.Decimal
