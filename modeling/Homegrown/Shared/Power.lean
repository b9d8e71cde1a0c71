import Mathlib.Data.Nat.Size
import Homegrown.Core.Loop
import Homegrown.Shared.Maths

/-!
# Powers

`power` squares its base and halves its exponent, and tests before every product whether it
is still a word. The product of the result and the power that is left is the same in every
round (`Power.Leads`), so the tests go wrong on no power that is a word and miss none that is
not. They divide by the base, which zero does not survive.
-/

namespace Homegrown

/-- Why `power` does not return. -/
inductive PowerFault where
  | divisionByZero
  /-- The bound on rounds given to the model ran out. -/
  | outOfFuel
  deriving DecidableEq, Repr

/-- The variables of `power`. -/
structure Power where
  result : U64
  base : U64
  exponent : U64
  deriving DecidableEq, Repr

/-- `U64_MAX / base`. -/
def maxQuotient (base : U64) : EStateM PowerFault Unit U64 :=
  if base = 0 then throw .divisionByZero else return BitVec.allOnes 64 / base

namespace Power

/-- The first half of a round: the base is multiplied into the result. -/
def multiply (v : Power) : EStateM PowerFault Unit (Power ⊕ U64) :=
  if v.exponent &&& 1 = 0 then
    return .inl v
  else do
    let limit ← maxQuotient v.base
    if limit < v.result then
      return .inr 0
    else if v.exponent = 1 then
      return .inr (v.result * v.base)
    else
      return .inl { v with result := v.result * v.base }

/-- The second half of a round: the base is squared. -/
def square (v : Power) : EStateM PowerFault Unit (Power ⊕ U64) := do
  let limit ← maxQuotient v.base
  if limit < v.base then
    return .inr 0
  else
    return .inl { v with base := v.base * v.base, exponent := v.exponent >>> 1 }

/-- A round of the loop. -/
def round (v : Power) : EStateM PowerFault Unit (Power ⊕ U64) :=
  if 0 < v.exponent then do
    match ← v.multiply with
    | .inl v => v.square
    | .inr result => return .inr result
  else
    return .inr v.result

end Power

/-- `power`. An exponent has at most 64 bits. -/
def power (base exponent : U64) : EStateM PowerFault Unit U64 :=
  loop .outOfFuel Power.round 65 ⟨1, base, exponent⟩

/-- A number, or zero when it is no word. -/
def checked (n : Nat) : Nat := if n < 2 ^ 64 then n else 0

/-! ## The tests -/

section Tests

variable {a b : U64}

theorem maxQuotient_of_ne (h : b ≠ 0) : maxQuotient b () = .ok (BitVec.allOnes 64 / b) () := by
  rw [maxQuotient, if_neg h]
  rfl

/-- The quotient is exceeded by the words whose product with the base is no word. -/
theorem allOnes_div_lt_iff (h : b ≠ 0) :
    BitVec.allOnes 64 / b < a ↔ 2 ^ 64 ≤ a.toNat * b.toNat := by
  have hpos : 0 < b.toNat := BitVec.toNat_pos_of_ne_zero h
  rw [BitVec.lt_def, BitVec.toNat_udiv, BitVec.toNat_allOnes, Nat.div_lt_iff_lt_mul hpos]
  omega

theorem toNat_mul_of_lt (h : ¬ 2 ^ 64 ≤ a.toNat * b.toNat) :
    (a * b).toNat = a.toNat * b.toNat := by
  rw [BitVec.toNat_mul, Nat.mod_eq_of_lt (not_le.mp h)]

theorem mul_ne_zero_of_lt (ha : a ≠ 0) (hb : b ≠ 0) (h : ¬ 2 ^ 64 ≤ a.toNat * b.toNat) :
    a * b ≠ 0 := by
  intro h0
  have hzero := toNat_mul_of_lt h
  rw [h0] at hzero
  rcases Nat.mul_eq_zero.mp hzero.symm with hz | hz
  · exact ha (BitVec.eq_of_toNat_eq hz)
  · exact hb (BitVec.eq_of_toNat_eq hz)

end Tests

/-! ## The loop -/

namespace Power

variable {v : Power} {n : Nat}

/-- The variables lead to `n`: no factor is zero, and what is left to multiply makes `n`. -/
structure Leads (v : Power) (n : Nat) : Prop where
  result_ne : v.result ≠ 0
  base_ne : v.base ≠ 0
  product : v.result.toNat * v.base.toNat ^ v.exponent.toNat = n

theorem Leads.base_pos (h : v.Leads n) : 0 < v.base.toNat :=
  BitVec.toNat_pos_of_ne_zero h.base_ne

/-- A product of the result with fewer factors than are left is no more than `n`. -/
theorem Leads.mul_pow_le (h : v.Leads n) {k : Nat} (hk : k ≤ v.exponent.toNat) :
    v.result.toNat * v.base.toNat ^ k ≤ n := by
  rw [← h.product]
  exact Nat.mul_le_mul_left _ (Nat.pow_le_pow_right h.base_pos hk)

theorem toNat_and_one (x : U64) : x &&& 1 = 0 ↔ x.toNat % 2 = 0 := by
  rw [← BitVec.toNat_inj, BitVec.toNat_and, BitVec.ofNat_eq_ofNat, BitVec.ofNat_eq_ofNat,
    BitVec.toNat_ofNat, BitVec.toNat_ofNat]
  exact Nat.and_one_is_mod _ ▸ Iff.rfl

/-- After the first half of a round an even number of factors is left, or the result is
known. -/
theorem multiply_returns (h : v.Leads n) (hexponent : 0 < v.exponent) :
    ReturnsWith (v.multiply ()) fun r _ => match r with
      | .inl next => next.base = v.base ∧ next.exponent = v.exponent ∧ next.result ≠ 0 ∧
          2 ≤ v.exponent.toNat ∧
          next.result.toNat * v.base.toNat ^ (2 * (v.exponent.toNat / 2)) = n
      | .inr b => b.toNat = checked n := by
  have hpos : 0 < v.exponent.toNat := hexponent
  unfold multiply
  split
  · rename_i heven
    rw [toNat_and_one] at heven
    refine ReturnsWith.pure ⟨rfl, rfl, h.result_ne, by omega, ?_⟩
    rw [show 2 * (v.exponent.toNat / 2) = v.exponent.toNat by omega]
    exact h.product
  · rename_i hodd
    rw [toNat_and_one] at hodd
    rw [bind_of_ok (maxQuotient_of_ne h.base_ne)]
    have hfirst := h.mul_pow_le (k := 1) hpos
    rw [pow_one] at hfirst
    split
    · rename_i hlimit
      rw [allOnes_div_lt_iff h.base_ne] at hlimit
      apply ReturnsWith.pure
      rw [checked, if_neg (by omega)]
      rfl
    · rename_i hlimit
      rw [allOnes_div_lt_iff h.base_ne] at hlimit
      split
      · rename_i hone
        apply ReturnsWith.pure
        have hn := h.product
        rw [hone, show (1 : U64).toNat = 1 from rfl, pow_one] at hn
        change (v.result * v.base).toNat = checked n
        rw [toNat_mul_of_lt hlimit, hn, checked, if_pos (by omega)]
      · rename_i hone
        have hmore : v.exponent.toNat ≠ 1 := fun h1 => hone (BitVec.eq_of_toNat_eq h1)
        refine ReturnsWith.pure
          ⟨rfl, rfl, mul_ne_zero_of_lt h.result_ne h.base_ne hlimit, by omega, ?_⟩
        change (v.result * v.base).toNat * _ = n
        rw [toNat_mul_of_lt hlimit, Nat.mul_assoc, ← pow_succ', ← h.product]
        congr 2
        omega

/-- A round keeps where the variables lead, and halves the exponent. -/
theorem round_returns (h : v.Leads n) :
    ReturnsWith (v.round ()) fun r _ => match r with
      | .inl next => next.Leads n ∧ next.exponent.toNat.size < v.exponent.toNat.size
      | .inr b => b.toNat = checked n := by
  unfold round
  split
  · rename_i hexponent
    refine (multiply_returns h hexponent).bind fun r _ hr => ?_
    rcases r with ⟨result, base, exponent⟩ | b
    · obtain ⟨rfl, rfl, hresult, htwo, hn⟩ := hr
      dsimp only at hresult hn ⊢
      unfold square
      rw [bind_of_ok (maxQuotient_of_ne h.base_ne)]
      split
      · rename_i hlimit
        rw [allOnes_div_lt_iff h.base_ne] at hlimit
        apply ReturnsWith.pure
        have hresultPos : 0 < result.toNat := BitVec.toNat_pos_of_ne_zero hresult
        have hle : v.base.toNat * v.base.toNat ≤ n := by
          calc v.base.toNat * v.base.toNat = 1 * v.base.toNat ^ 2 := by rw [one_mul, pow_two]
            _ ≤ result.toNat * v.base.toNat ^ (2 * (v.exponent.toNat / 2)) :=
              Nat.mul_le_mul hresultPos (Nat.pow_le_pow_right h.base_pos (by omega))
            _ = n := hn
        rw [checked, if_neg (not_lt.mpr (hlimit.trans hle))]
        rfl
      · rename_i hlimit
        rw [allOnes_div_lt_iff h.base_ne] at hlimit
        have hhalf : (v.exponent >>> 1).toNat = v.exponent.toNat / 2 := by
          rw [BitVec.toNat_ushiftRight, Nat.shiftRight_eq_div_pow, pow_one]
        refine ReturnsWith.pure
          ⟨⟨hresult, mul_ne_zero_of_lt h.base_ne h.base_ne hlimit, ?_⟩, ?_⟩
        · dsimp only
          rw [hhalf, toNat_mul_of_lt hlimit, ← pow_two, ← pow_mul]
          exact hn
        · dsimp only
          rw [hhalf]
          obtain ⟨k, hk⟩ : ∃ k, v.exponent.toNat.size = k + 1 := by
            apply Nat.exists_eq_succ_of_ne_zero
            rw [Ne, Nat.size_eq_zero]
            omega
          have hlt := Nat.lt_size_self v.exponent.toNat
          rw [hk] at hlt ⊢
          rw [Nat.lt_succ_iff, Nat.size_le]
          rw [pow_succ] at hlt
          omega
    · exact ReturnsWith.pure hr
  · rename_i hzero
    rw [BitVec.lt_def, not_lt] at hzero
    apply ReturnsWith.pure
    have hn := h.product
    rw [show v.exponent.toNat = 0 from Nat.le_zero.mp hzero, pow_zero, Nat.mul_one] at hn
    rw [← hn, checked, if_pos v.result.isLt]

end Power

/-- A base that is not zero, or no factor at all. -/
theorem power_returns {base exponent : U64} (h : base ≠ 0 ∨ exponent = 0) :
    ReturnsWith (power base exponent ()) fun r _ =>
      r.toNat = checked (base.toNat ^ exponent.toNat) := by
  by_cases hbase : base = 0
  · obtain rfl := h.resolve_left (not_not.mpr hbase)
    exact ⟨1, (), rfl, by rw [hbase]; rfl⟩
  · have hleads : (Power.mk 1 base exponent).Leads (base.toNat ^ exponent.toNat) :=
      ⟨show (1 : U64) ≠ 0 by decide, hbase, Nat.one_mul _⟩
    apply loop_returns (fun v _ => v.Leads (base.toNat ^ exponent.toNat))
      (fun v _ => v.exponent.toNat.size) _ hleads
    · rw [Nat.lt_succ_iff, Nat.size_le]
      exact exponent.isLt
    · intro v _ hv
      apply (Power.round_returns hv).weaken
      rintro (next | result) _ hround <;> exact hround

/-- The first product with zero is tested by a division by zero. -/
theorem power_zero {exponent : U64} (h : exponent ≠ 0) :
    power 0 exponent () = .error .divisionByZero () := by
  have hround : (Power.mk 1 0 exponent).round () = .error .divisionByZero () := by
    have hpos : 0 < exponent := BitVec.toNat_pos_of_ne_zero h
    rw [Power.round, if_pos hpos]
    by_cases hodd : exponent &&& 1 = 0
    · have hmultiply : (Power.mk 1 0 exponent).multiply () = .ok (.inl ⟨1, 0, exponent⟩) () := by
        rw [Power.multiply, if_pos hodd]
        rfl
      rw [bind_of_ok hmultiply]
      rfl
    · apply bind_of_error
      rw [Power.multiply, if_neg hodd]
      rfl
  rw [power, loop, bind_of_error hround]

/-- `power` returns the power if that is a word, and zero otherwise, unless it has to
multiply with zero. -/
theorem power_returns_iff (base exponent : U64) :
    (ReturnsWith (power base exponent ()) fun r _ =>
      r.toNat = checked (base.toNat ^ exponent.toNat)) ↔ base ≠ 0 ∨ exponent = 0 := by
  constructor
  · rintro ⟨r, _, hrun, -⟩
    by_contra hnot
    rw [not_or, not_not] at hnot
    obtain ⟨rfl, hexponent⟩ := hnot
    rw [power_zero hexponent] at hrun
    cases hrun
  · exact power_returns

/-- Zero to the first. -/
theorem power_zero_one :
    ¬ ∀ base exponent : U64, ReturnsWith (power base exponent ()) fun r _ =>
      r.toNat = checked (base.toNat ^ exponent.toNat) := by
  intro hclaim
  obtain ⟨r, _, hrun, -⟩ := hclaim 0 1
  rw [power_zero (by decide)] at hrun
  cases hrun

end Homegrown
