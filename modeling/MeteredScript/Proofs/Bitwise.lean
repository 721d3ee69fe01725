import Mathlib.Algebra.Order.Ring.Int
import MeteredScript.Eval.Operators
import MeteredScript.Proofs.Cuts

namespace MeteredScript

/-! # Bitwise operators

Operators on bits take the integer part of each operand, whatever its size, as a word in two's
complement. Here their results are said in terms of these integers, by remainders and quotients of
powers of two. Main statement: `bitwise_on_integers`.
-/

/-- The integer that an operand stands for: its number cut off toward zero, and zero for NaN. -/
def Value.toInteger (v : Value) : Int := (v.toNumber?.map Decimal.trunc).getD 0

/-- The integer with a sign and 32 bits that differs from `z` by a multiple of `2 ^ 32`. -/
def wrap32 (z : Int) : Int := z.bmod (2 ^ 32)

/-- The 32 bits of an integer in two's complement, read as a natural number. -/
def bits32 (z : Int) : Nat := (z % 2 ^ 32).toNat

/-- Whether `r` is the integer with a sign that has the given 32 bits. -/
structure IsInt32 (bits : Nat) (r : Int) : Prop where
  lower : -2 ^ 31 ≤ r
  upper : r < 2 ^ 31
  bits_eq : bits32 r = bits

/-- Whether an operator is one on bits. -/
def ArithOp.isBitwise : ArithOp → Bool
  | bitAnd | bitOr | bitXor | shl | shr | ushr => true
  | _ => false

/-- What each operator on the bits of two integers comes to. -/
inductive BitwiseResult (x y : Int) : ArithOp → Int → Prop where
  | bitAnd {r : Int} (h : IsInt32 (bits32 (wrap32 x) &&& bits32 (wrap32 y)) r) :
      BitwiseResult x y .bitAnd r
  | bitOr {r : Int} (h : IsInt32 (bits32 (wrap32 x) ||| bits32 (wrap32 y)) r) :
      BitwiseResult x y .bitOr r
  | bitXor {r : Int} (h : IsInt32 (bits32 (wrap32 x) ^^^ bits32 (wrap32 y)) r) :
      BitwiseResult x y .bitXor r
  | shl : BitwiseResult x y .shl (wrap32 (x * 2 ^ (y % 32).toNat))
  | shr : BitwiseResult x y .shr ((wrap32 x).fdiv (2 ^ (y % 32).toNat))
  | ushr : BitwiseResult x y .ushr ((x % 2 ^ 64).fdiv (2 ^ (y % 64).toNat))

/-! ## Words as integers -/

/-- There is one integer in the range of a word with a given remainder. -/
theorem wrap32_eq_iff {z w : Int} :
    wrap32 z = w ↔ -2 ^ 31 ≤ w ∧ w < 2 ^ 31 ∧ w % 2 ^ 32 = z % 2 ^ 32 := by
  unfold wrap32
  rw [Int.bmod_eq_iff (by decide)]
  push_cast
  omega

theorem bits32_wrap32 (z : Int) : bits32 (wrap32 z) = bits32 z :=
  congrArg Int.toNat Int.bmod_emod

theorem toInt_ofInt32 (z : Int) : (BitVec.ofInt 32 z).toInt = wrap32 z := BitVec.toInt_ofInt z

theorem toNat_ofInt32 (z : Int) : (BitVec.ofInt 32 z).toNat = bits32 (wrap32 z) := by
  rw [bits32_wrap32]
  exact BitVec.toNat_ofInt z

/-- A word is the integer with its bits, in two's complement. -/
theorem isInt32_toInt (w : BitVec 32) : IsInt32 w.toNat w.toInt where
  lower := w.le_toInt
  upper := w.toInt_lt
  bits_eq := by
    have hbits := toNat_ofInt32 w.toInt
    rwa [BitVec.ofInt_toInt, bits32_wrap32, eq_comm] at hbits

/-- Shifting left multiplies, and wraps around. -/
theorem shiftLeft_ofInt32 (z : Int) (n : Nat) :
    BitVec.ofInt 32 z <<< n = BitVec.ofInt 32 (z * 2 ^ n) := by
  -- a shift is a product of words, and the word of a product is the product of the words
  have hpower : BitVec.ofInt 32 (2 ^ n) = BitVec.twoPow 32 n := by
    apply BitVec.eq_of_toNat_eq
    rw [BitVec.toNat_ofInt, BitVec.toNat_twoPow]
    exact_mod_cast Int.toNat_natCast _
  rw [BitVec.shiftLeft_eq_mul_twoPow, BitVec.ofInt_mul, hpower]

/-- Shifted to the right, bits fall off toward the floor. -/
theorem shiftRight_eq_fdiv (z : Int) (n : Nat) : z >>> n = z.fdiv (2 ^ n) := by
  have hpos : (0 : Int) ≤ 2 ^ n := Int.pow_nonneg (by decide)
  rw [Int.fdiv_eq_ediv_of_nonneg _ hpos, Int.shiftRight_eq_div_pow]
  push_cast
  rfl

/-- Turning all bits around is the negative of the next integer. -/
theorem not_ofInt32 (z : Int) : ~~~BitVec.ofInt 32 z = BitVec.ofInt 32 (-z - 1) := by
  rw [BitVec.not_eq_neg_add, Int.sub_eq_add_neg, BitVec.ofInt_add, BitVec.ofInt_neg,
    BitVec.sub_eq_add_neg]
  rfl

/-! ## Wrapping -/

/-- Two remainders with the sign of the dividend make one without a sign. -/
theorem tmod_add_tmod (z : Int) {m : Int} (hm : 0 < m) : (z.tmod m + m).tmod m = z % m := by
  have hpos : 0 ≤ z.tmod m + m := by
    have hlt := Int.lt_tmod_of_pos z hm
    omega
  rw [Int.tmod_eq_emod_of_nonneg hpos, Int.add_emod_right, Int.tmod_def,
    Int.sub_mul_emod_self_left]

namespace Decimal

/-- What is left of an integer in a word is its remainder. -/
theorem toNat_wrapBits (z : Int) {bits : Nat} (hbits : bits ≤ 64) :
    ((wrapBits z bits).toNat : Int) = z % 2 ^ bits := by
  have hpow : (2 : Int) ^ bits ≤ 2 ^ 64 := by
    exact_mod_cast Nat.pow_le_pow_right (by decide : 0 < 2) hbits
  have hpos : (0 : Int) < 2 ^ bits := Int.pow_pos (by decide)
  -- the modulus is a power of two, and a remainder by it fits into the word
  have hmodulus : Int.ofNat (1 <<< bits) = 2 ^ bits := by
    rw [Nat.one_shiftLeft]
    exact Int.natCast_pow 2 bits
  have hnonneg : 0 ≤ z % 2 ^ bits := Int.emod_nonneg _ (Int.ne_of_gt hpos)
  have hlt : z % 2 ^ bits < 2 ^ bits := Int.emod_lt_of_pos _ hpos
  have hsize : (UInt64.size : Int) = 2 ^ 64 := rfl
  unfold wrapBits
  dsimp only
  rw [hmodulus, tmod_add_tmod z hpos, if_pos ⟨hnonneg, by omega⟩, UInt64.toNat_ofNat_of_lt' (by omega),
    Int.toNat_of_nonneg hnonneg]

/-- A number is wrapped around by its integer part, however large. -/
theorem toBitVec_toInt32 (a : Decimal) : a.toInt32.toBitVec = BitVec.ofInt 32 a.trunc := by
  apply BitVec.eq_of_toNat_eq
  have hwrap := toNat_wrapBits a.trunc (by decide : 32 ≤ 64)
  have hlt := Int.emod_lt_of_pos a.trunc (by decide : (0 : Int) < 2 ^ 32)
  have hword : (wrapBits a.trunc 32).toUInt32.toNat = (wrapBits a.trunc 32).toNat := by
    rw [UInt64.toNat_toUInt32, Nat.mod_eq_of_lt (by omega)]
  rw [BitVec.toNat_ofInt]
  change (wrapBits a.trunc 32).toUInt32.toNat = _
  rw [hword, ← Int.toNat_natCast (wrapBits a.trunc 32).toNat, hwrap]
  rfl

theorem toNat_toUInt64 (a : Decimal) : (a.toUInt64.toNat : Int) = a.trunc % 2 ^ 64 :=
  toNat_wrapBits a.trunc (by decide)

end Decimal

/-! ## Operands -/

namespace Value

variable {v : Value}

/-- A value that is not cut has a word. -/
theorem exists_toInt32 (h : v.isCut = false) :
    ∃ w, v.toInt32 = .ok w ∧ w.toBitVec = BitVec.ofInt 32 v.toInteger := by
  unfold toInt32 toInteger
  rw [toNumber_of_not_isCut h]
  refine ⟨_, rfl, ?_⟩
  cases v.toNumber? with
  | none => rfl
  | some a => exact a.toBitVec_toInt32

/-- It has one of sixty-four bits as well. -/
theorem exists_toUInt64 (h : v.isCut = false) :
    ∃ w, v.toUInt64 = .ok w ∧ (w.toNat : Int) = v.toInteger % 2 ^ 64 := by
  unfold toUInt64 toInteger
  rw [toNumber_of_not_isCut h]
  refine ⟨_, rfl, ?_⟩
  cases v.toNumber? with
  | none => rfl
  | some a => exact a.toNat_toUInt64

/-- A count is first cut down to 32 bits, which leaves its lowest ones as they are. -/
theorem exists_shiftCount (h : v.isCut = false) {bits : Nat} (hbits : bits ≤ 32) {mask : UInt32}
    (hmask : mask.toNat = 2 ^ bits - 1) :
    ∃ count, v.shiftCount mask = .ok count ∧ (count.toNat : Int) = v.toInteger % 2 ^ bits := by
  obtain ⟨w, hw, hword⟩ := exists_toInt32 h
  have hnat : (w.toUInt32.toNat : Int) = v.toInteger % 2 ^ 32 := by
    change (w.toBitVec.toNat : Int) = _
    rw [hword, toNat_ofInt32, bits32_wrap32, bits32,
      Int.toNat_of_nonneg (Int.emod_nonneg _ (by decide))]
  -- a remainder of a remainder, where one modulus divides the other
  have hdvd : (2 : Int) ^ bits ∣ 2 ^ 32 := pow_dvd_pow 2 hbits
  refine ⟨w.toUInt32 &&& mask, ?_, ?_⟩
  · unfold shiftCount
    rw [hw]
    rfl
  · rw [UInt32.toNat_and, hmask, Nat.and_two_pow_sub_one_eq_mod, Int.natCast_emod, hnat]
    push_cast
    exact Int.emod_emod_of_dvd _ hdvd

theorem ofInt32_eq {w : Int32} {z : Int} (h : w.toBitVec = BitVec.ofInt 32 z) :
    ofInt32 w = ofInt (wrap32 z) := by
  rw [ofInt32, ← Int32.toInt_toBitVec, h, toInt_ofInt32]

theorem toInt32_of_isCut (h : v.isCut = true) : v.toInt32 = .error .insideCharacter := by
  rw [toInt32, toNumber_of_isCut h]
  rfl

theorem toUInt64_of_isCut (h : v.isCut = true) : v.toUInt64 = .error .insideCharacter := by
  rw [toUInt64, toNumber_of_isCut h]
  rfl

theorem shiftCount_of_isCut (h : v.isCut = true) (mask : UInt32) :
    v.shiftCount mask = .error .insideCharacter := by
  rw [shiftCount, toInt32_of_isCut h]
  rfl

end Value

/-! ## Results -/

theorem Run.pure_ne_crash {α : Type} (x : α) (c : Crash) : (pure x : Run α) ≠ Run.crash c := by
  intro h
  cases congrFun h ⟨{}, {}, ⟨0, 0⟩, 0⟩

/-- A shift by a count below the width is by as many bits. -/
theorem smod_count {count : UInt32} (h : count.toNat < 32) :
    (count.toInt32.toBitVec.smod 32).toNat = count.toNat := by
  have hint : count.toBitVec.toInt = count.toNat := BitVec.toInt_eq_toNat_of_lt (by
    change 2 * count.toNat < _
    omega)
  have hmod : (count.toBitVec.smod 32).toInt = count.toNat := by
    rw [BitVec.toInt_smod, hint]
    change Int.fmod (count.toNat : Int) 32 = _
    rw [Int.fmod_eq_emod_of_nonneg _ (by decide)]
    exact Int.emod_eq_of_lt (Int.natCast_nonneg _) (by omega)
  have hofInt := congrArg (BitVec.ofInt 32) hmod
  rw [BitVec.ofInt_toInt, BitVec.ofInt_natCast] at hofInt
  change (count.toBitVec.smod 32).toNat = _
  rw [hofInt, BitVec.toNat_ofNat, Nat.mod_eq_of_lt (by omega)]

/-- Words that are combined bit by bit are combined as the numbers that their bits are. -/
theorem exists_onInt32 {a b : Value} (ha : a.isCut = false) (hb : b.isCut = false)
    {f : Int32 → Int32 → Int32} {g : Nat → Nat → Nat}
    (hf : ∀ v w, (f v w).toBitVec.toNat = g v.toBitVec.toNat w.toBitVec.toNat) :
    ∃ r, IsInt32 (g (bits32 (wrap32 a.toInteger)) (bits32 (wrap32 b.toInteger))) r ∧
      a.onInt32 f b = .ok (.ofInt r) := by
  obtain ⟨v, hv, hleft⟩ := Value.exists_toInt32 ha
  obtain ⟨w, hw, hright⟩ := Value.exists_toInt32 hb
  have hcombined := isInt32_toInt (f v w).toBitVec
  rw [hf, hleft, hright, toNat_ofInt32, toNat_ofInt32] at hcombined
  refine ⟨_, hcombined, ?_⟩
  unfold Value.onInt32
  rw [hv, hw]
  rfl

/-- What an operator on bits comes to, if both operands can be read. -/
theorem exists_bitwiseResult (maxLength : Nat) {a b : Value} (ha : a.isCut = false)
    (hb : b.isCut = false) {op : ArithOp} (hop : op.isBitwise = true) :
    ∃ r, BitwiseResult a.toInteger b.toInteger op r ∧
      Run.arith maxLength op a b = pure (.ofInt r) := by
  obtain ⟨v, hv, hword⟩ := Value.exists_toInt32 ha
  obtain ⟨count, hcount, hbits⟩ :=
    Value.exists_shiftCount hb (by decide : 5 ≤ 32) (by rfl : (31 : UInt32).toNat = 2 ^ 5 - 1)
  -- counts are taken from five bits, or six where sixty-four are shifted
  have hlt : count.toNat < 32 := by
    have hrange := Int.emod_lt_of_pos b.toInteger (by decide : (0 : Int) < 2 ^ 5)
    omega
  have hnat : (b.toInteger % 32).toNat = count.toNat := by
    rw [← Int.toNat_natCast count.toNat, hbits]
    rfl
  cases op with
  | add | sub | mul | div | rem | exp => exact absurd hop (by decide)
  | bitAnd =>
    have hbits : ∀ v w : Int32, (v &&& w).toBitVec.toNat = v.toBitVec.toNat &&& w.toBitVec.toNat :=
      fun v w => BitVec.toNat_and v.toBitVec w.toBitVec
    obtain ⟨r, hr, hvalue⟩ := exists_onInt32 ha hb hbits
    exact ⟨r, .bitAnd hr, congrArg Run.orCrash hvalue⟩
  | bitOr =>
    have hbits : ∀ v w : Int32, (v ||| w).toBitVec.toNat = v.toBitVec.toNat ||| w.toBitVec.toNat :=
      fun v w => BitVec.toNat_or v.toBitVec w.toBitVec
    obtain ⟨r, hr, hvalue⟩ := exists_onInt32 ha hb hbits
    exact ⟨r, .bitOr hr, congrArg Run.orCrash hvalue⟩
  | bitXor =>
    have hbits : ∀ v w : Int32, (v ^^^ w).toBitVec.toNat = v.toBitVec.toNat ^^^ w.toBitVec.toNat :=
      fun v w => BitVec.toNat_xor v.toBitVec w.toBitVec
    obtain ⟨r, hr, hvalue⟩ := exists_onInt32 ha hb hbits
    exact ⟨r, .bitXor hr, congrArg Run.orCrash hvalue⟩
  | shl =>
    have hshift : (v <<< count.toInt32).toBitVec =
        BitVec.ofInt 32 (a.toInteger * 2 ^ (b.toInteger % 32).toNat) := by
      rw [Int32.toBitVec_shiftLeft, BitVec.shiftLeft_eq', smod_count hlt, hword, shiftLeft_ofInt32,
        hnat]
    refine ⟨_, .shl, ?_⟩
    rw [Run.arith, Value.shiftInt32, hv, hcount, ← Value.ofInt32_eq hshift]
    rfl
  -- shifting right is rounding down, for negative integers, too
  | shr =>
    have hshift : (v >>> count.toInt32).toInt =
        (wrap32 a.toInteger).fdiv (2 ^ (b.toInteger % 32).toNat) := by
      rw [← Int32.toInt_toBitVec, Int32.toBitVec_shiftRight, BitVec.sshiftRight_eq',
        smod_count hlt, hword, BitVec.toInt_sshiftRight, toInt_ofInt32, shiftRight_eq_fdiv, hnat]
    refine ⟨_, .shr, ?_⟩
    rw [Run.arith, Value.shiftInt32, hv, hcount, ← hshift]
    rfl
  | ushr =>
    obtain ⟨word, hread, hvalue⟩ := Value.exists_toUInt64 ha
    obtain ⟨count, hcount, hbits⟩ :=
      Value.exists_shiftCount hb (by decide : 6 ≤ 32) (by rfl : (63 : UInt32).toNat = 2 ^ 6 - 1)
    have hlt : count.toNat < 64 := by
      have hrange := Int.emod_lt_of_pos b.toInteger (by decide : (0 : Int) < 2 ^ 6)
      omega
    have hnat : (b.toInteger % 64).toNat = count.toNat := by
      rw [← Int.toNat_natCast count.toNat, hbits]
      rfl
    have hshift : ((word >>> count.toUInt64).toNat : Int) =
        (a.toInteger % 2 ^ 64).fdiv (2 ^ (b.toInteger % 64).toNat) := by
      rw [UInt64.toNat_shiftRight, UInt32.toNat_toUInt64, Nat.mod_eq_of_lt hlt,
        Int.natCast_shiftRight, hvalue, shiftRight_eq_fdiv, hnat]
    refine ⟨_, .ushr, ?_⟩
    rw [Run.arith, Value.shiftUInt64, hread, ← hshift]
    change Run.orCrash (Except.bind (b.shiftCount 63) _) = _
    rw [hcount]
    rfl

/-- If an operand cannot be read, an operator on bits crashes. -/
theorem bitwise_of_isCut (maxLength : Nat) {a b : Value} (h : a.isCut = true ∨ b.isCut = true)
    {op : ArithOp} (hop : op.isBitwise = true) :
    Run.arith maxLength op a b = Run.crash .insideCharacter := by
  cases ha : a.isCut with
  | true =>
    have h32 := Value.toInt32_of_isCut ha
    have h64 := Value.toUInt64_of_isCut ha
    cases op with
    | add | sub | mul | div | rem | exp => exact absurd hop (by decide)
    | bitAnd | bitOr | bitXor => rw [Run.arith, Value.onInt32, h32]; rfl
    | shl | shr => rw [Run.arith, Value.shiftInt32, h32]; rfl
    | ushr => rw [Run.arith, Value.shiftUInt64, h64]; rfl
  -- the left operand is read first; if that went well, it is the right one
  | false =>
    have hb : b.isCut = true := h.resolve_left (by rw [ha]; exact Bool.false_ne_true)
    obtain ⟨v, hv, -⟩ := Value.exists_toInt32 ha
    obtain ⟨word, hword, -⟩ := Value.exists_toUInt64 ha
    have h32 := Value.toInt32_of_isCut hb
    have hcount := Value.shiftCount_of_isCut hb
    cases op with
    | add | sub | mul | div | rem | exp => exact absurd hop (by decide)
    | bitAnd | bitOr | bitXor => rw [Run.arith, Value.onInt32, hv, h32]; rfl
    | shl | shr => rw [Run.arith, Value.shiftInt32, hv, hcount]; rfl
    | ushr =>
      rw [Run.arith, Value.shiftUInt64, hword]
      change Run.orCrash (Except.bind (b.shiftCount 63) _) = _
      rw [hcount]
      rfl

/-- The operators on bits compute with the integers of their operands, unless one of them is cut: then
they crash. No unit is charged, and the state stays as it is. -/
theorem bitwise_on_integers (maxLength : Nat) (a b : Value) :
    (∀ z w : Int, wrap32 z = w ↔ -2 ^ 31 ≤ w ∧ w < 2 ^ 31 ∧ w % 2 ^ 32 = z % 2 ^ 32) ∧
    (Run.unary .bitNot a = pure (.ofInt (wrap32 (-a.toInteger - 1))) ↔ a.isCut = false) ∧
    (a.isCut = true → Run.unary .bitNot a = Run.crash .insideCharacter) ∧
    ∀ op : ArithOp, op.isBitwise = true →
      ((∃ r, BitwiseResult a.toInteger b.toInteger op r ∧
        Run.binary maxLength (.arith op) a b = pure (.ofInt r)) ↔
          a.isCut = false ∧ b.isCut = false) ∧
      (a.isCut = true ∨ b.isCut = true →
        Run.binary maxLength (.arith op) a b = Run.crash .insideCharacter) := by
  have hnot (ha : a.isCut = true) : Run.unary .bitNot a = Run.crash .insideCharacter := by
    rw [Run.unary, Value.unary, Value.toInt32_of_isCut ha]
    rfl
  refine ⟨fun z w => wrap32_eq_iff, ?_, hnot, fun op hop => ⟨?_, fun h => ?_⟩⟩
  · cases ha : a.isCut with
    | true =>
      refine iff_of_false (fun h => ?_) Bool.false_ne_true.symm
      exact Run.pure_ne_crash _ _ (h.symm.trans (hnot ha))
    | false =>
      refine iff_of_true ?_ rfl
      obtain ⟨w, hw, hword⟩ := Value.exists_toInt32 ha
      -- the word of the operand, turned around
      have hcomplement : (~~~w).toBitVec = BitVec.ofInt 32 (-a.toInteger - 1) := by
        rw [← not_ofInt32, ← hword]
        rfl
      rw [Run.unary, Value.unary, hw, ← Value.ofInt32_eq hcomplement]
      rfl
  · constructor
    · rintro ⟨r, -, hr⟩
      by_contra hcut
      have hcut : a.isCut = true ∨ b.isCut = true := by
        rcases not_and_or.mp hcut with h | h
        · exact .inl (Bool.not_eq_false _ ▸ h)
        · exact .inr (Bool.not_eq_false _ ▸ h)
      exact Run.pure_ne_crash _ _ (hr.symm.trans (bitwise_of_isCut maxLength hcut hop))
    · rintro ⟨ha, hb⟩
      exact exists_bitwiseResult maxLength ha hb hop
  · exact bitwise_of_isCut maxLength h hop

/-- Thirty-three bits are shifted by as one. -/
theorem bitwise_on_integers_thirtyThree :
    ArithOp.isBitwise .shl = true ∧ (Value.string "33").isCut = false ∧
    ∃ r, BitwiseResult (Value.ofInt (2 ^ 31)).toInteger (Value.string "33").toInteger .shl r ∧
      Run.binary 0 (.arith .shl) (.ofInt (2 ^ 31)) (.string "33") = pure (.ofInt r) := by
  have hcut : (Value.string "33").isCut = false := by decide +kernel
  have hresult := (bitwise_on_integers 0 (.ofInt (2 ^ 31)) (.string "33")).2.2.2 .shl rfl
  exact ⟨rfl, hcut, hresult.1.mpr ⟨rfl, hcut⟩⟩

/-- The complement of a cut text is no integer. -/
theorem bitNot_of_cut_text :
    (Value.string "0é").isCut = true ∧
    Run.unary .bitNot (.string "0é") ≠
      pure (.ofInt (wrap32 (-(Value.string "0é").toInteger - 1))) := by
  have hcut : (Value.string "0é").isCut = true := by decide +kernel
  refine ⟨hcut, fun h => Run.pure_ne_crash _ .insideCharacter (h.symm.trans ?_)⟩
  rw [Run.unary, Value.unary, Value.toInt32_of_isCut hcut]
  rfl

/-- The word has 64 bits here, and no sign. -/
example : Run.binary 0 (.arith .ushr) (.ofInt (-1)) (.ofInt 1) = pure (.ofInt (2 ^ 63 - 1)) := rfl

end MeteredScript
