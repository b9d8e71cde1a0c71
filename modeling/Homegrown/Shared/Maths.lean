import Homegrown.Core.Word

/-!
# Integer types and the alignment macros

The fixed-width types of `shared/types/types.h` are bit vectors, so that every
operation wraps as the C operation does. The macros of `shared/maths/maths.h`
are generic in the width, as `typeof` and `_Generic` make them in the source,
and are only meant for powers of two; each has a lemma giving its value there.
-/

namespace Homegrown

abbrev U8 := BitVec 8
abbrev U16 := BitVec 16
abbrev U32 := BitVec 32
abbrev U64 := BitVec 64
abbrev I64 := BitVec 64

section Macros

variable {w k : Nat}

/-- `MIN`. -/
def minValue (a b : BitVec w) : BitVec w := if a < b then a else b

/-- `MAX`. -/
def maxValue (a b : BitVec w) : BitVec w := if b < a then a else b

/-- `ALIGN_UP_VALUE`. -/
def alignUpValue (val alignValue : BitVec w) : BitVec w :=
  (val + (alignValue - 1)) &&& ~~~(alignValue - 1)

/-- `ALIGN_DOWN_VALUE`. -/
def alignDownValue (val alignValue : BitVec w) : BitVec w := val &&& ~~~(alignValue - 1)

/-- `ALIGN_DOWN_EXP`. -/
def alignDownExp (val : BitVec w) (exponent : Nat) : BitVec w :=
  val &&& ~~~((1#w <<< exponent) - 1)

/-- `CEILING_DIV_VALUE`: the division is a shift by the trailing zeros of the divisor. -/
def ceilingDivValue (val divisor : BitVec w) : BitVec w :=
  (val + divisor - 1) >>> divisor.ctz.toNat

/-- `RING_RANGE_VALUE`. -/
def ringRangeValue (val ringSize : BitVec w) : BitVec w := val &&& (ringSize - 1)

theorem toNat_minValue (a b : BitVec w) : (minValue a b).toNat = min a.toNat b.toNat := by
  unfold minValue
  split
  · rename_i h
    exact (min_eq_left (BitVec.lt_def.mp h).le).symm
  · rename_i h
    rw [BitVec.lt_def, not_lt] at h
    exact (min_eq_right h).symm

theorem toNat_maxValue (a b : BitVec w) : (maxValue a b).toNat = max a.toNat b.toNat := by
  unfold maxValue
  split
  · rename_i h
    exact (max_eq_left (BitVec.lt_def.mp h).le).symm
  · rename_i h
    rw [BitVec.lt_def, not_lt] at h
    exact (max_eq_right h).symm

/-- Rounding up is exact while the next multiple is still a word. -/
theorem toNat_alignUpValue {x a : BitVec w} (h : IsTwoPow a k)
    (hv : x.toNat + (2 ^ k - 1) < 2 ^ w) :
    (alignUpValue x a).toNat = roundUp x.toNat a.toNat := by
  rw [alignUpValue, h.toNat_align_up hv, roundUp, h]

/-- For any alignment, rounding up adds it less one and clears the bits of that. -/
theorem toNat_alignUpValue_mask {x a : BitVec w} (ha : 0 < a.toNat)
    (hv : x.toNat + (a.toNat - 1) < 2 ^ w) : (alignUpValue x a).toNat = maskUp x.toNat a.toNat :=
  toNat_mask_up ha hv

/-- Past the last multiple, rounding up wraps to zero. -/
theorem alignUpValue_wrap {x a : BitVec w} (h : IsTwoPow a k)
    (hv : 2 ^ w ≤ x.toNat + (2 ^ k - 1)) : (alignUpValue x a).toNat = 0 := by
  have hx := x.isLt
  have hpos : 0 < 2 ^ k := by positivity
  have ha := a.isLt
  rw [h] at ha
  have hsum : (x + (a - 1)).toNat = x.toNat + (2 ^ k - 1) - 2 ^ w := by
    rw [BitVec.toNat_add, h.toNat_sub_one, Nat.mod_eq_sub_mod hv, Nat.mod_eq_of_lt (by omega)]
  rw [alignUpValue, h.toNat_and_not, hsum, Nat.div_eq_of_lt (by omega), Nat.zero_mul]

theorem toNat_alignDownValue {x a : BitVec w} (h : IsTwoPow a k) :
    (alignDownValue x a).toNat = x.toNat / a.toNat * a.toNat := by
  rw [alignDownValue, h.toNat_and_not, h]

theorem toNat_ringRangeValue {x a : BitVec w} (h : IsTwoPow a k) :
    (ringRangeValue x a).toNat = x.toNat % a.toNat := by
  rw [ringRangeValue, h.toNat_and_sub_one, h]

/-- The trailing zeros of a power of two are its exponent. -/
theorem IsTwoPow.toNat_ctz {a : BitVec w} (h : IsTwoPow a k) : a.ctz.toNat = k := by
  have hne : a ≠ 0#w := by
    intro h0
    have hpos := h.pos
    rw [h0] at hpos
    simp at hpos
  have hbit := BitVec.getLsbD_true_ctz_of_ne_zero hne
  rw [BitVec.getLsbD, h, Nat.testBit_two_pow] at hbit
  exact (of_decide_eq_true hbit).symm

/-- The rounded-up quotient, when adding the divisor does not wrap. -/
theorem toNat_ceilingDivValue {x a : BitVec w} (h : IsTwoPow a k)
    (hv : x.toNat + 2 ^ k ≤ 2 ^ w) :
    (ceilingDivValue x a).toNat = (x.toNat + (2 ^ k - 1)) / 2 ^ k := by
  have hpos : 0 < 2 ^ k := by positivity
  have hlt : x.toNat + (2 ^ k - 1) < 2 ^ w := by omega
  have hassoc : x + a - 1 = x + (a - 1) := by
    rw [BitVec.sub_eq_add_neg, BitVec.sub_eq_add_neg, BitVec.add_assoc]
  rw [ceilingDivValue, h.toNat_ctz, BitVec.toNat_ushiftRight, Nat.shiftRight_eq_div_pow, hassoc,
    BitVec.toNat_add, h.toNat_sub_one, Nat.mod_eq_of_lt hlt]

/-- The quotient is zero when adding the divisor wraps. -/
theorem toNat_ceilingDivValue_wrap {x a : BitVec w} (h : IsTwoPow a k)
    (hv : 2 ^ w < x.toNat + 2 ^ k) : (ceilingDivValue x a).toNat = 0 := by
  have hx := x.isLt
  have hk : 2 ^ k < 2 ^ w := Nat.pow_lt_pow_right (by norm_num) h.exponent_lt
  have hassoc : x + a - 1 = x + (a - 1) := by
    rw [BitVec.sub_eq_add_neg, BitVec.sub_eq_add_neg, BitVec.add_assoc]
  rw [ceilingDivValue, h.toNat_ctz, BitVec.toNat_ushiftRight, Nat.shiftRight_eq_div_pow, hassoc,
    BitVec.toNat_add, h.toNat_sub_one, Nat.mod_eq_sub_mod (by omega), Nat.mod_eq_of_lt (by omega)]
  exact Nat.div_eq_of_lt (by omega)

end Macros

/-! ## Rings -/

/-- `RING_INCREMENT`. The ring sizes are powers of two, for which the mask is a remainder. -/
def ringIncrement (val ringSize : Nat) : Nat := (val + 1) % ringSize

/-- `RING_PLUS`. -/
def ringPlus (val amount ringSize : Nat) : Nat := (val + amount) % ringSize

/-- `RING_DECREMENT`. -/
def ringDecrement (val ringSize : Nat) : Nat := (val + (ringSize - 1)) % ringSize

/-- `RING_MINUS`. -/
def ringMinus (val amount ringSize : Nat) : Nat := (val + (ringSize - amount % ringSize)) % ringSize

/-- `next_pow2`. -/
def nextPow2 (x : Nat) : Nat := if x = 1 then 1 else 2 ^ ((x - 1).log2 + 1)

section Rings

variable {n k m : Nat}

@[simp] theorem ringIncrement_mod (k n : Nat) : ringIncrement (k % n) n = (k + 1) % n := by
  simp [ringIncrement]

@[simp] theorem ringPlus_mod (k m n : Nat) : ringPlus (k % n) m n = (k + m) % n := by
  simp [ringPlus]

theorem ringDecrement_mod (hn : 0 < n) (hk : 0 < k) : ringDecrement (k % n) n = (k - 1) % n := by
  have hsum : k + (n - 1) = k - 1 + n := by omega
  rw [ringDecrement, Nat.mod_add_mod, hsum, Nat.add_mod_right]

theorem ringMinus_mod (hn : 0 < n) (hm : m ≤ k) : ringMinus (k % n) m n = (k - m) % n := by
  have hlt := Nat.mod_lt m hn
  have hdiv := Nat.mod_add_div m n
  have hsum : k + (n - m % n) = k - m + n * (m / n + 1) := by
    rw [Nat.mul_add, Nat.mul_one]
    omega
  rw [ringMinus, Nat.mod_add_mod, hsum, Nat.add_mul_mod_self_left]

theorem le_nextPow2 : k ≤ nextPow2 k := by
  unfold nextPow2
  split
  · omega
  · have hlt := Nat.lt_log2_self (n := k - 1)
    omega

theorem nextPow2_le (hk : 0 < k) (h : k ≤ 2 ^ m) : nextPow2 k ≤ 2 ^ m := by
  unfold nextPow2
  split
  · exact Nat.one_le_two_pow
  · have hlt : (k - 1).log2 < m := (Nat.log2_lt (by omega)).mpr (by omega)
    exact Nat.pow_le_pow_right (by norm_num) hlt

end Rings

end Homegrown
