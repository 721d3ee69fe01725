namespace MeteredScript.Text

/-! # Digit strings

Reading integers from digit strings in a radix from 2 to 36. Letters of either case stand for the
digits from ten on, and `_` may separate digits but not come first.
-/

/-- The value of a digit character: `0`–`9`, then letters of either case from ten on. -/
def digitValue? (c : Char) : Option Nat :=
  if '0' ≤ c ∧ c ≤ '9' then some (c.toNat - '0'.toNat)
  else if 'a' ≤ c ∧ c ≤ 'z' then some (c.toNat - 'a'.toNat + 10)
  else if 'A' ≤ c ∧ c ≤ 'Z' then some (c.toNat - 'A'.toNat + 10)
  else none

/-- Whether a character is an ASCII decimal digit. -/
def isDigit (c : Char) : Bool := '0' ≤ c && c ≤ '9'

/-- Whether a character is an octal digit. -/
def isOctalDigit (c : Char) : Bool := '0' ≤ c && c ≤ '7'

/-- Whether a character is a digit of the radix. -/
def isDigitOf (radix : Nat) (c : Char) : Bool :=
  match digitValue? c with
  | some d => decide (d < radix)
  | none => false

/-- Joins neighbouring digits, the least significant first, to digits in the squared base. -/
def pairDigits (base : Nat) : List Nat → List Nat
  | low :: high :: rest => (low + base * high) :: pairDigits base rest
  | digits => digits

theorem length_pairDigits_le (base : Nat) (digits : List Nat) :
    (pairDigits base digits).length ≤ digits.length := by
  fun_induction pairDigits base digits with
  | case1 low high rest ih =>
    simp only [List.length_cons]
    omega
  | case2 digits => exact Nat.le_refl _

/-- The number with the given digits in a base, the least significant first. Digits are joined in
pairs, so that large factors meet large factors. -/
def ofDigits (base : Nat) (digits : List Nat) : Nat :=
  match digits with
  | [] => 0
  | [digit] => digit
  | low :: high :: rest => ofDigits (base * base) (pairDigits base (low :: high :: rest))
termination_by digits.length
decreasing_by
  have := length_pairDigits_le base rest
  simp only [pairDigits, List.length_cons]
  omega

/-- The digits of a text in front of those already `read`, so that the last one of the text comes
first; `_` is passed over. -/
def readDigits (radix : Nat) (read : List Nat) : List Char → Option (List Nat)
  | [] => some read
  | c :: rest =>
    if c = '_' then readDigits radix read rest
    else
      match digitValue? c with
      | some d => if d < radix then readDigits radix (d :: read) rest else none
      | none => none

/-- A non-empty digit string, optionally after one `+`. -/
def natural? (radix : Nat) (cs : List Char) : Option Nat :=
  let digits :=
    match cs with
    | '+' :: rest => if rest.head? = some '+' then cs else rest
    | _ => cs
  match digits with
  | [] => none
  | '_' :: _ => none
  | _ => (readDigits radix [] digits).map (ofDigits radix)

/-- A non-empty digit string, optionally after one sign. -/
def integer? (radix : Nat) (cs : List Char) : Option Int :=
  match cs with
  | '-' :: rest =>
    if rest.head? = some '+' then none
    else (natural? radix rest).map fun n => -Int.ofNat n
  | _ => (natural? radix cs).map Int.ofNat

/-- The value of hexadecimal digits of either case, and of nothing else. -/
def hexValue? (cs : List Char) : Option Nat :=
  if cs.all (isDigitOf 16) then (readDigits 16 [] cs).map (ofDigits 16) else none

/-- The value of a string of decimal digits. -/
def decimalValue (cs : List Char) : Nat :=
  ofDigits 10 (cs.reverse.map fun c => c.toNat - '0'.toNat)

/-! ## Writing

Large numbers are cut in halves, so that large divisors meet large dividends.
-/

/-- The last `2 ^ size` decimal digits of a number, zeros included, in front of `rest`. -/
def paddedDigits : Nat → Nat → List Char → List Char
  | 0, n, rest => Nat.digitChar (n % 10) :: rest
  | size + 1, n, rest =>
    let half := Nat.pow 10 (Nat.pow 2 size)
    paddedDigits size (n / half) (paddedDigits size (n % half) rest)

/-- A size for which `paddedDigits` has all digits of a number. -/
def digitsSize (n : Nat) : Nat := Nat.log2 (Nat.log2 n + 1) + 1

/-- Numbers below this are written digit by digit. -/
def smallNumber : Nat := Nat.pow 10 18

/-- The decimal digits of a natural number, without leading zeros. -/
def decimalDigits (n : Nat) : List Char :=
  if n < smallNumber then Nat.toDigits 10 n
  else (paddedDigits (digitsSize n) n []).dropWhile (· = '0')

/-- The last `width` decimal digits of a number, zeros included. -/
def lastDigits : Nat → Nat → List Char
  | 0, _ => []
  | width + 1, n => lastDigits width (n / 10) ++ [Nat.digitChar (n % 10)]

theorem lastDigits_mod (width n : Nat) :
    lastDigits width (n % Nat.pow 10 width) = lastDigits width n := by
  induction width generalizing n with
  | zero => rfl
  | succ width ih =>
    have hdiv : n % Nat.pow 10 (width + 1) / 10 = n / 10 % Nat.pow 10 width := by
      show n % (Nat.pow 10 width * 10) / 10 = n / 10 % Nat.pow 10 width
      rw [Nat.mul_comm, Nat.mod_mul_right_div_self]
    have hmod : n % Nat.pow 10 (width + 1) % 10 = n % 10 :=
      Nat.mod_mod_of_dvd n ⟨Nat.pow 10 width, Nat.mul_comm _ _⟩
    rw [lastDigits, hdiv, hmod, ih, lastDigits]

theorem lastDigits_add (high low n : Nat) :
    lastDigits (high + low) n = lastDigits high (n / Nat.pow 10 low) ++ lastDigits low n := by
  induction low generalizing n with
  | zero =>
    rw [Nat.add_zero, lastDigits, List.append_nil]
    exact congrArg (lastDigits high) (Nat.div_one n).symm
  | succ low ih =>
    have hdiv : n / 10 / Nat.pow 10 low = n / Nat.pow 10 (low + 1) := by
      rw [Nat.div_div_eq_div_mul, Nat.mul_comm]
      rfl
    rw [← Nat.add_assoc, lastDigits, ih, hdiv, lastDigits, List.append_assoc]

/-- Cutting in halves gives the digits from the last one on. -/
theorem paddedDigits_eq (size n : Nat) (rest : List Char) :
    paddedDigits size n rest = lastDigits (Nat.pow 2 size) n ++ rest := by
  induction size generalizing n rest with
  | zero => rfl
  | succ size ih =>
    have hwidth : Nat.pow 2 (size + 1) = Nat.pow 2 size + Nat.pow 2 size := Nat.mul_two _
    rw [paddedDigits, ih, ih, lastDigits_mod, hwidth, lastDigits_add, List.append_assoc]

theorem digitChar_ne_zero {n : Nat} (hpos : 0 < n) (hlt : n < 10) : Nat.digitChar n ≠ '0' := by
  have h : n = 1 ∨ n = 2 ∨ n = 3 ∨ n = 4 ∨ n = 5 ∨ n = 6 ∨ n = 7 ∨ n = 8 ∨ n = 9 := by omega
  rcases h with h | h | h | h | h | h | h | h | h <;> subst h <;> decide

theorem lastDigits_zero (width : Nat) : lastDigits width 0 = List.replicate width '0' := by
  induction width with
  | zero => rfl
  | succ width ih =>
    rw [lastDigits, Nat.zero_div, ih]
    exact (List.replicate_succ' ..).symm

/-- Without the zeros in front, the last digits are the digits of a number that has no more. -/
theorem dropWhile_lastDigits {width n : Nat} (hpos : 0 < n) (hlt : n < Nat.pow 10 width) :
    (lastDigits width n).dropWhile (· = '0') = Nat.toDigits 10 n := by
  induction width generalizing n with
  | zero =>
    have hone : n < 1 := hlt
    omega
  | succ width ih =>
    by_cases hsmall : n < 10
    · have hzero : n / 10 = 0 := by omega
      have hmod : n % 10 = n := by omega
      have hne := digitChar_ne_zero hpos hsmall
      rw [lastDigits, hzero, hmod, lastDigits_zero, Nat.toDigits_of_lt_base hsmall,
        List.dropWhile_append_of_pos (by simp)]
      simp [hne]
    · have hdiv : 0 < n / 10 := by omega
      have hbound : n / 10 < Nat.pow 10 width := by
        refine Nat.div_lt_of_lt_mul ?_
        rw [Nat.mul_comm]
        exact hlt
      have hdigits := ih hdiv hbound
      have hsplit : Nat.toDigits 10 n = Nat.toDigits 10 (n / 10) ++ [Nat.digitChar (n % 10)] :=
        Nat.toDigits_of_base_le (by omega) (by omega)
      rw [lastDigits, List.dropWhile_append, hdigits, if_neg (by simp), hsplit]

theorem lt_ten_pow_digitsSize (n : Nat) : n < Nat.pow 10 (Nat.pow 2 (digitsSize n)) := by
  have hsize : Nat.log2 n + 1 < Nat.pow 2 (digitsSize n) := Nat.lt_log2_self
  calc n
    _ < Nat.pow 2 (Nat.log2 n + 1) := Nat.lt_log2_self
    _ ≤ Nat.pow 2 (Nat.pow 2 (digitsSize n)) := Nat.pow_le_pow_right (by omega) (by omega)
    _ ≤ Nat.pow 10 (Nat.pow 2 (digitsSize n)) := Nat.pow_le_pow_left (by omega) _

/-- However they are computed, they are the decimal digits. -/
theorem decimalDigits_eq (n : Nat) : decimalDigits n = Nat.toDigits 10 n := by
  unfold decimalDigits
  split
  · rfl
  · rename_i hlarge
    have hpos : 0 < n := Nat.lt_of_lt_of_le (by decide : 0 < smallNumber) (Nat.not_lt.mp hlarge)
    rw [paddedDigits_eq, List.append_nil]
    exact dropWhile_lastDigits hpos (lt_ten_pow_digitsSize n)

end MeteredScript.Text
