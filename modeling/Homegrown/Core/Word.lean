import Mathlib.Data.Nat.Bits
import Mathlib.Data.Nat.Bitwise
import Mathlib.Data.Nat.ModEq
import Mathlib.Data.Nat.Prime.Basic
import Mathlib.Tactic.Ring
import Mathlib.Tactic.Linarith

/-!
# Masks on machine words

A machine word is a `BitVec w`. Alignment macros of C programs are written with
masks, `x & (a - 1)` and `x & ~(a - 1)`; for a power of two `a = 2 ^ k` they are
the remainder and the rounding down of the unsigned value. The lemmas here
translate the masks, the two's complement padding `-x & (a - 1)` and the shift
by the number of trailing zeros into arithmetic on natural numbers, where
`omega` takes over.
-/

namespace Homegrown

/-- The unsigned value of the word is `2 ^ k`. -/
def IsTwoPow {w : Nat} (a : BitVec w) (k : Nat) : Prop := a.toNat = 2 ^ k

instance {w : Nat} (a : BitVec w) (k : Nat) : Decidable (IsTwoPow a k) :=
  inferInstanceAs (Decidable (a.toNat = 2 ^ k))

section Masks

variable {w k : Nat} {a : BitVec w}

/-- A power of two is positive. -/
theorem IsTwoPow.pos (h : IsTwoPow a k) : 0 < a.toNat := by
  rw [h]
  positivity

/-- The exponent is below the width. -/
theorem IsTwoPow.exponent_lt (h : IsTwoPow a k) : k < w := by
  have hlt : 2 ^ k < 2 ^ w := h ▸ a.isLt
  exact (Nat.pow_lt_pow_iff_right (by norm_num)).mp hlt

/-- The mask of a power of two does not wrap. -/
theorem IsTwoPow.toNat_sub_one (h : IsTwoPow a k) : (a - 1).toNat = 2 ^ k - 1 := by
  have hk := h.exponent_lt
  have hone : (1 : BitVec w).toNat = 1 := BitVec.toNat_one (by omega)
  have hpos := h.pos
  have hle : (1 : BitVec w) ≤ a := by
    rw [BitVec.le_def, hone]
    exact hpos
  rw [BitVec.toNat_sub_of_le hle, hone, h]

/-- A word that shares no bit with its predecessor is a power of two. -/
theorem exists_isTwoPow_of_and {a : BitVec w} (hne : a ≠ 0) (h : a &&& (a - 1) = 0) :
    ∃ k, IsTwoPow a k := by
  have hpos : a.toNat ≠ 0 := fun h0 => hne (BitVec.eq_of_toNat_eq h0)
  have hlt := a.isLt
  have hw : 0 < w := by
    rcases w with _ | w
    · omega
    · exact Nat.succ_pos w
  have hone : (1 : BitVec w).toNat = 1 := BitVec.toNat_one hw
  have hsub : (a - 1).toNat = a.toNat - 1 := by
    rw [BitVec.toNat_sub_of_le, hone]
    rw [BitVec.le_def, hone]
    omega
  have hand := congrArg BitVec.toNat h
  rw [BitVec.toNat_and, hsub] at hand
  exact (Nat.and_sub_one_eq_zero_iff_isPowerOfTwo hpos).mp hand

/-- A positive word reads the same with and without a sign. -/
theorem of_zero_slt {a : BitVec w} (h : (0 : BitVec w).slt a) :
    0 < a.toNat ∧ 2 * a.toNat < 2 ^ w ∧ a.toInt = a.toNat := by
  have hlt := a.isLt
  rw [BitVec.slt_iff_toInt_lt, BitVec.ofNat_eq_ofNat, BitVec.toInt_zero,
    BitVec.toInt_eq_toNat_cond] at h
  rw [BitVec.toInt_eq_toNat_cond]
  split at h <;> omega
/-- The low mask of a power of two is the remainder. -/
theorem IsTwoPow.toNat_and_sub_one (h : IsTwoPow a k) (x : BitVec w) :
    (x &&& (a - 1)).toNat = x.toNat % 2 ^ k := by
  rw [BitVec.toNat_and, h.toNat_sub_one, Nat.and_two_pow_sub_one_eq_mod]

/-- Clearing the low bits rounds the value down. -/
theorem IsTwoPow.toNat_and_not (h : IsTwoPow a k) (x : BitVec w) :
    (x &&& ~~~(a - 1)).toNat = x.toNat / 2 ^ k * 2 ^ k := by
  apply Nat.eq_of_testBit_eq
  intro i
  have hx : x.toNat / 2 ^ k * 2 ^ k = (x.toNat >>> k) <<< k := by
    rw [Nat.shiftRight_eq_div_pow, Nat.shiftLeft_eq]
  rw [hx, Nat.testBit_shiftLeft, Nat.testBit_shiftRight, BitVec.toNat_and, Nat.testBit_and,
    BitVec.toNat_not, h.toNat_sub_one]
  have hk := h.exponent_lt
  have hlt : 2 ^ k - 1 < 2 ^ w := by
    have hpow := Nat.pow_lt_pow_right (a := 2) (by norm_num) hk
    have hpos : 0 < 2 ^ k := by positivity
    omega
  have hnot : 2 ^ w - 1 - (2 ^ k - 1) = 2 ^ w - ((2 ^ k - 1) + 1) := by
    rw [Nat.sub_sub, Nat.add_comm]
  rw [hnot, Nat.testBit_two_pow_sub_succ hlt, Nat.testBit_two_pow_sub_one]
  by_cases hi : k ≤ i
  · have hn : ¬ i < k := by omega
    by_cases hw : i < w
    · simp [hi, hn, hw, Nat.add_sub_cancel' hi]
    · have hz : x.toNat.testBit i = false :=
        Nat.testBit_lt_two_pow (x.isLt.trans_le (Nat.pow_le_pow_right (by norm_num) (by omega)))
      simp [hi, hw, hz, Nat.add_sub_cancel' hi]
  · have hn : i < k := by omega
    simp [hi, hn]

/-- The two's complement padding up to the next multiple. -/
theorem IsTwoPow.toNat_neg_and (h : IsTwoPow a k) (x : BitVec w) :
    (-x &&& (a - 1)).toNat = (2 ^ k - x.toNat % 2 ^ k) % 2 ^ k := by
  rw [h.toNat_and_sub_one, BitVec.toNat_neg]
  have hk := h.exponent_lt
  have hdvd : 2 ^ k ∣ 2 ^ w := pow_dvd_pow 2 hk.le
  rw [Nat.mod_mod_of_dvd _ hdvd]
  have hpos : 0 < 2 ^ k := by positivity
  have hlt := Nat.mod_lt x.toNat hpos
  obtain ⟨c, hc⟩ := hdvd
  have hx := Nat.div_add_mod x.toNat (2 ^ k)
  have hxw := x.isLt
  have hle : x.toNat / 2 ^ k + 1 ≤ c := by
    rw [hc] at hxw
    exact Nat.lt_of_mul_lt_mul_left (lt_of_le_of_lt (Nat.mul_div_le _ _) hxw)
  obtain ⟨d, rfl⟩ := Nat.exists_eq_add_of_le hle
  have hsplit : 2 ^ w - x.toNat = (2 ^ k - x.toNat % 2 ^ k) + 2 ^ k * d := by
    have hexp : 2 ^ k * (x.toNat / 2 ^ k + 1 + d) =
        2 ^ k * (x.toNat / 2 ^ k) + 2 ^ k + 2 ^ k * d := by ring
    rw [hc, hexp]
    omega
  rw [hsplit, Nat.add_mul_mod_self_left]

/-- Rounding up to a power of two, when the sum does not wrap. -/
theorem IsTwoPow.toNat_align_up (h : IsTwoPow a k) {x : BitVec w}
    (hx : x.toNat + (2 ^ k - 1) < 2 ^ w) :
    ((x + (a - 1)) &&& ~~~(a - 1)).toNat = (x.toNat + (2 ^ k - 1)) / 2 ^ k * 2 ^ k := by
  rw [h.toNat_and_not, BitVec.toNat_add, h.toNat_sub_one, Nat.mod_eq_of_lt hx]

end Masks

/-- Rounding a natural number up to a multiple of `a`. -/
def roundUp (x a : Nat) : Nat := (x + (a - 1)) / a * a

section RoundUp

variable {x a : Nat}

/-- Rounding up does not decrease. -/
theorem le_roundUp (ha : 0 < a) : x ≤ roundUp x a := by
  have h := Nat.div_add_mod (x + (a - 1)) a
  have hlt := Nat.mod_lt (x + (a - 1)) ha
  rw [Nat.mul_comm] at h
  simp only [roundUp]
  omega

/-- Rounding up adds less than the multiple. -/
theorem roundUp_lt (ha : 0 < a) : roundUp x a < x + a := by
  have h := Nat.div_mul_le_self (x + (a - 1)) a
  simp only [roundUp]
  omega

/-- A rounded number is a multiple. -/
theorem dvd_roundUp : a ∣ roundUp x a := Nat.dvd_mul_left _ _

/-- A multiple is rounded to itself. -/
theorem roundUp_of_dvd (ha : 0 < a) (h : a ∣ x) : roundUp x a = x := by
  obtain ⟨c, rfl⟩ := h
  obtain ⟨d, hd⟩ := dvd_roundUp (x := a * c) (a := a)
  have hle := le_roundUp (x := a * c) ha
  have hlt := roundUp_lt (x := a * c) ha
  rw [hd] at hle hlt ⊢
  have h1 : c ≤ d := Nat.le_of_mul_le_mul_left hle ha
  have h2 : d < c + 1 := by
    apply Nat.lt_of_mul_lt_mul_left (a := a)
    rw [Nat.mul_add, Nat.mul_one]
    exact hlt
  have : d = c := by omega
  rw [this]

/-- No multiple lies between a number and where it is rounded up to. -/
theorem roundUp_le {y : Nat} (h : a ∣ y) (hle : x ≤ y) : roundUp x a ≤ y := by
  rcases Nat.eq_zero_or_pos a with rfl | ha
  · rw [roundUp, Nat.mul_zero]
    exact Nat.zero_le y
  obtain ⟨q, rfl⟩ := h
  obtain ⟨r, hr⟩ := dvd_roundUp (x := x) (a := a)
  have hlt := roundUp_lt (x := x) ha
  rw [hr] at hlt ⊢
  have hrq : r < q + 1 := by
    refine Nat.lt_of_mul_lt_mul_left (a := a) ?_
    rw [Nat.mul_add, Nat.mul_one]
    omega
  exact Nat.mul_le_mul_left a (Nat.le_of_lt_succ hrq)

/-- Between two multiples, rounding up gives the upper one. -/
theorem roundUp_of_lt_of_le {v : Nat} (h : a ∣ v) (hlt : v < x) (hle : x ≤ v + a) :
    roundUp x a = v + a := by
  have ha : 0 < a := by omega
  obtain ⟨q, rfl⟩ := h
  obtain ⟨r, hr⟩ := dvd_roundUp (x := x) (a := a)
  have hlower := le_roundUp (x := x) ha
  have hupper := roundUp_lt (x := x) ha
  rw [hr] at hlower hupper ⊢
  have hqr : q < r := Nat.lt_of_mul_lt_mul_left (hlt.trans_le hlower)
  have hrq : r < q + 2 := by
    refine Nat.lt_of_mul_lt_mul_left (a := a) ?_
    rw [Nat.mul_add]
    omega
  obtain rfl : r = q + 1 := by omega
  rw [Nat.mul_add, Nat.mul_one]

/-- The padding to the next multiple is what rounding up adds. -/
theorem add_pad_eq_roundUp (ha : 0 < a) : x + (a - x % a) % a = roundUp x a := by
  have hlt := Nat.mod_lt x ha
  have hdiv := Nat.div_add_mod x a
  rcases Nat.eq_zero_or_pos (x % a) with h0 | hpos
  · rw [h0, Nat.sub_zero, Nat.mod_self, Nat.add_zero, roundUp_of_dvd ha (Nat.dvd_of_mod_eq_zero h0)]
  · rw [Nat.mod_eq_of_lt (by omega)]
    have hsum : x + (a - x % a) = a * (x / a + 1) := by
      rw [Nat.mul_add, Nat.mul_one]
      omega
    have hup : x + (a - 1) = (x % a - 1) + a * (x / a + 1) := by
      rw [Nat.mul_add, Nat.mul_one]
      omega
    have hquot : (x + (a - 1)) / a = x / a + 1 := by
      rw [hup, Nat.add_mul_div_left _ _ ha, Nat.div_eq_of_lt (by omega), Nat.zero_add]
    rw [hsum, roundUp, hquot, Nat.mul_comm]

end RoundUp

/-- Adding `a - 1` and clearing the bits of `a - 1`, as alignment macros do for any `a`. -/
def maskUp (x a : Nat) : Nat := x + (a - 1) - ((x + (a - 1)) &&& (a - 1))

section MaskUp

variable {w k x a : Nat}

/-- The word that alignment macros compute, when the sum does not wrap. -/
theorem toNat_mask_up {x a : BitVec w} (ha : 0 < a.toNat) (hx : x.toNat + (a.toNat - 1) < 2 ^ w) :
    ((x + (a - 1)) &&& ~~~(a - 1)).toNat = maskUp x.toNat a.toNat := by
  have hw : 0 < w := by
    rcases Nat.eq_zero_or_pos w with rfl | hw
    · have hlt := a.isLt
      omega
    · exact hw
  have hone : (1 : BitVec w).toNat = 1 := BitVec.toNat_one hw
  have hmask : (a - 1).toNat = a.toNat - 1 := by
    rw [BitVec.toNat_sub_of_le, hone]
    rwa [BitVec.le_def, hone]
  have hsum : (x + (a - 1)).toNat = x.toNat + (a.toNat - 1) := by
    rw [BitVec.toNat_add, hmask, Nat.mod_eq_of_lt hx]
  generalize x + (a - 1) = y at hsum ⊢
  have hdisjoint : (y &&& (a - 1)) &&& (y &&& ~~~(a - 1)) = 0#w := by
    ext i hi
    simp only [BitVec.getElem_and, BitVec.getElem_not, BitVec.getElem_zero]
    cases y[i] <;> cases (a - 1)[i] <;> rfl
  have hsplit : y = (y &&& (a - 1)) + (y &&& ~~~(a - 1)) := by
    rw [BitVec.add_eq_or_of_and_eq_zero _ _ hdisjoint]
    ext i hi
    simp only [BitVec.getElem_or, BitVec.getElem_and, BitVec.getElem_not]
    cases y[i] <;> cases (a - 1)[i] <;> rfl
  have hand : (y &&& (a - 1)).toNat = y.toNat &&& (a.toNat - 1) := by
    rw [BitVec.toNat_and, hmask]
  have htotal := congrArg BitVec.toNat hsplit
  rw [BitVec.toNat_add_of_and_eq_zero hdisjoint, hand, hsum] at htotal
  rw [maskUp]
  omega

/-- Masking up does not decrease. -/
theorem le_maskUp (x a : Nat) : x ≤ maskUp x a := by
  have hle : (x + (a - 1)) &&& (a - 1) ≤ a - 1 := Nat.and_le_right
  simp only [maskUp]
  omega

/-- Masking up adds less than the alignment. -/
theorem maskUp_le (x a : Nat) : maskUp x a ≤ x + (a - 1) := Nat.sub_le _ _

/-- The cleared bits leave a multiple exactly when they are the remainder. -/
theorem dvd_maskUp_iff (ha : 0 < a) :
    a ∣ maskUp x a ↔ (x + (a - 1)) &&& (a - 1) = (x + (a - 1)) % a := by
  have hlt : (x + (a - 1)) &&& (a - 1) < a := lt_of_le_of_lt Nat.and_le_right (by omega)
  have hle : (x + (a - 1)) &&& (a - 1) ≤ x + (a - 1) := Nat.and_le_left
  rw [maskUp, ← Nat.modEq_iff_dvd' hle, Nat.ModEq, Nat.mod_eq_of_lt hlt]

/-- For a power of two the mask rounds up. -/
theorem maskUp_two_pow (x k : Nat) : maskUp x (2 ^ k) = roundUp x (2 ^ k) := by
  have hdiv := Nat.div_add_mod (x + (2 ^ k - 1)) (2 ^ k)
  rw [maskUp, Nat.and_two_pow_sub_one_eq_mod, roundUp, Nat.mul_comm]
  omega

/-- Adding a part of a number's own bits to it changes one of these bits. -/
theorem eq_zero_of_add_and {u z : Nat} (h : (u + z) &&& u = z) : u = 0 := by
  induction u using Nat.strong_induction_on generalizing z with
  | h u ih =>
    by_contra hne
    have hhalf := congrArg (· / 2) h
    have hbit := congrArg (· % 2) h
    simp only [Nat.and_div_two] at hhalf
    have hlow : ((u + z) &&& u) % 2 = 1 ↔ (u + z) % 2 = 1 ∧ u % 2 = 1 := Nat.and_mod_two_eq_one
    -- The lowest bit of `u` would have to be set in `z` and not.
    have hu : u % 2 = 0 := by omega
    have hsum : (u + z) / 2 = u / 2 + z / 2 := by omega
    rw [hsum] at hhalf
    have hzero := ih (u / 2) (by omega) hhalf
    omega

/-- A number less one that keeps the bits of `z` when `z` is added is a power of two. -/
theorem exists_two_pow_of_add_and {m z : Nat} (h : (m + 1 + z) &&& m = z) :
    ∃ k, m + 1 = 2 ^ k := by
  induction m using Nat.strong_induction_on generalizing z with
  | h m ih =>
    have hhalf := congrArg (· / 2) h
    simp only [Nat.and_div_two] at hhalf
    have hlow : ((m + 1 + z) &&& m) % 2 = 1 ↔ (m + 1 + z) % 2 = 1 ∧ m % 2 = 1 :=
      Nat.and_mod_two_eq_one
    rw [h] at hlow
    rcases Nat.even_or_odd' m with ⟨u, rfl | rfl⟩
    · have hsum : (2 * u + 1 + z) / 2 = u + z / 2 := by omega
      rw [hsum, Nat.mul_div_cancel_left u (by norm_num)] at hhalf
      exact ⟨0, by rw [eq_zero_of_add_and hhalf, Nat.mul_zero, Nat.zero_add, pow_zero]⟩
    · have hsum : (2 * u + 1 + 1 + z) / 2 = u + 1 + z / 2 := by omega
      have hu : (2 * u + 1) / 2 = u := by omega
      rw [hsum, hu] at hhalf
      obtain ⟨k, hk⟩ := ih u (by omega) hhalf
      exact ⟨k + 1, by rw [Nat.pow_succ]; omega⟩

/-- Where no multiple but `a` itself is in reach, only powers of two are rounded up to. -/
theorem dvd_maskUp_iff_two_pow (hx : 0 < x) (hxa : x ≤ a) :
    a ∣ maskUp x a ↔ ∃ k, a = 2 ^ k := by
  constructor
  · rintro ⟨c, hc⟩
    have hle := le_maskUp x a
    have hup := maskUp_le x a
    have hc1 : c = 1 := by
      rw [hc] at hle hup
      rcases c with _ | _ | c
      · omega
      · rfl
      · rw [Nat.mul_add, Nat.mul_add] at hup
        omega
    obtain ⟨m, rfl⟩ := Nat.exists_eq_add_of_le' (show 1 ≤ a by omega)
    have hle' : (x + m) &&& m ≤ x + m := Nat.and_le_left
    rw [hc1, maskUp, Nat.add_sub_cancel, Nat.mul_one] at hc
    apply exists_two_pow_of_add_and (z := x - 1)
    rw [show m + 1 + (x - 1) = x + m by omega]
    omega
  · rintro ⟨k, rfl⟩
    rw [maskUp_two_pow]
    exact dvd_roundUp

end MaskUp

end Homegrown
