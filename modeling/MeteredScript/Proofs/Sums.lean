namespace MeteredScript

/-! # Sums

Amounts in a list added up, and a function added up over all handles below a number, once altogether
and once over those only that were not seen yet.
-/

def total (amounts : List Nat) : Nat := amounts.foldr (· + ·) 0

theorem total_cons (amount : Nat) (amounts : List Nat) :
    total (amount :: amounts) = amount + total amounts :=
  rfl

theorem total_append (amounts amounts' : List Nat) :
    total (amounts ++ amounts') = total amounts + total amounts' := by
  induction amounts with
  | nil => exact (Nat.zero_add _).symm
  | cons amount rest ih => rw [List.cons_append, total_cons, total_cons, ih, Nat.add_assoc]

theorem total_reverse (amounts : List Nat) : total amounts.reverse = total amounts := by
  induction amounts with
  | nil => rfl
  | cons amount rest ih =>
    rw [List.reverse_cons, total_append, ih, total_cons, total_cons, Nat.add_comm]
    rfl

/-- A function added up over the numbers below `n`. -/
def sumBelow (f : Nat → Nat) : Nat → Nat
  | 0 => 0
  | n + 1 => sumBelow f n + f n

variable {n k : Nat} {seen seen' : Nat → Bool} {f g : Nat → Nat}

theorem sumBelow_mono (h : ∀ k, f k ≤ g k) (n : Nat) : sumBelow f n ≤ sumBelow g n := by
  induction n with
  | zero => exact Nat.le_refl 0
  | succ n ih => exact Nat.add_le_add ih (h n)

/-- Each number counted in, besides. -/
theorem sumBelow_add_one (f : Nat → Nat) (n : Nat) :
    sumBelow (fun k => f k + 1) n = sumBelow f n + n := by
  induction n with
  | zero => rfl
  | succ n ih =>
    unfold sumBelow
    rw [ih]
    omega

theorem sumBelow_one (n : Nat) : sumBelow (fun _ => 1) n = n := by
  induction n with
  | zero => rfl
  | succ n ih =>
    unfold sumBelow
    rw [ih]

/-- Where the function is zero nothing is added. -/
theorem sumBelow_add_of_zero (h : ∀ k, n ≤ k → f k = 0) (m : Nat) :
    sumBelow f (n + m) = sumBelow f n := by
  induction m with
  | zero => rfl
  | succ m ih =>
    rw [Nat.add_succ, sumBelow, ih, h (n + m) (Nat.le_add_right n m), Nat.add_zero]

/-- A function that is larger in one place only. -/
theorem sumBelow_le_add {extra : Nat} (hother : ∀ j, j ≠ k → g j ≤ f j) (hk : g k ≤ f k + extra)
    (n : Nat) : sumBelow g n ≤ sumBelow f n + extra := by
  induction n with
  | zero => exact Nat.zero_le _
  | succ n ih =>
    unfold sumBelow
    by_cases hn : n = k
    · subst hn
      -- below the place in question nothing is larger
      have hbelow : ∀ m, m ≤ n → sumBelow g m ≤ sumBelow f m := by
        intro m hm
        induction m with
        | zero => exact Nat.le_refl 0
        | succ m ihm => exact Nat.add_le_add (ihm (by omega)) (hother m (by omega))
      have hrest := hbelow n (Nat.le_refl n)
      omega
    · have hlast := hother n hn
      omega

/-- A function that is smaller in one place at least. -/
theorem sumBelow_add_le (hle : ∀ j, g j ≤ f j) {less : Nat} (hk : g k + less ≤ f k) (hkn : k < n) :
    sumBelow g n + less ≤ sumBelow f n := by
  induction n with
  | zero => omega
  | succ n ih =>
    unfold sumBelow
    by_cases hn : k = n
    · subst hn
      have hbelow := sumBelow_mono hle k
      omega
    · have hbelow := ih (by omega)
      have hlast := hle n
      omega

/-- The weights of the numbers below `n` that were not seen, added up. -/
def unseen (weight : Nat → Nat) (seen : Nat → Bool) (n : Nat) : Nat :=
  sumBelow (fun k => if seen k then 0 else weight k) n

/-- The more is seen, the less is left. -/
theorem unseen_anti (weight : Nat → Nat) (hseen : ∀ k, seen k = true → seen' k = true) (k : Nat) :
    (if seen' k then 0 else weight k) ≤ if seen k then 0 else weight k := by
  by_cases hk : seen k = true
  · exact Nat.le_of_eq (by rw [if_pos hk, if_pos (hseen k hk)])
  · rw [if_neg hk]
    split
    · exact Nat.zero_le _
    · exact Nat.le_refl _

theorem unseen_le (weight : Nat → Nat) (seen : Nat → Bool) (n : Nat) :
    unseen weight seen n ≤ sumBelow weight n := by
  refine sumBelow_mono (fun k => ?_) n
  split
  · exact Nat.zero_le _
  · exact Nat.le_refl _

theorem unseen_le_unseen (weight : Nat → Nat) (hseen : ∀ k, seen k = true → seen' k = true)
    (n : Nat) : unseen weight seen' n ≤ unseen weight seen n :=
  sumBelow_mono (unseen_anti weight hseen) n

/-- Seeing one more takes its weight off. -/
theorem unseen_add_le (weight : Nat → Nat) (hseen : ∀ k, seen k = true → seen' k = true)
    (hk : k < n) (hnew : ¬ seen k = true) (hnow : seen' k = true) :
    unseen weight seen' n + weight k ≤ unseen weight seen n := by
  refine sumBelow_add_le (unseen_anti weight hseen) ?_ hk
  rw [if_pos hnow, if_neg hnew]
  omega

end MeteredScript
