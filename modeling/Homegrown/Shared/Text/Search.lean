import Homegrown.Shared.Text.Converter

/-!
# Searching a character

`firstOccurenceOfFrom` goes forward through a string. It reports that there is none as -1, which
is the greatest number for a caller that takes the result as unsigned.
-/

namespace Homegrown

/-- `firstOccurenceOfFrom`. -/
def firstOccurenceOfFrom (s : ByteString) (ch : U8) (start : U64) : U64 :=
  if h : start.toNat < s.buf.length then
    if s.buf.get ⟨start.toNat, h⟩ = ch then start else firstOccurenceOfFrom s ch (start + 1)
  else
    -1
termination_by s.buf.length - start.toNat
decreasing_by
  have hlen := s.length_lt
  rw [BitVec.toNat_add, show (1 : U64).toNat = 1 from rfl]
  omega

/-- The result is the first place from `start` on, or there is none and it is -1. -/
theorem firstOccurenceOfFrom_spec (s : ByteString) (ch : U8) (start : U64) :
    (∃ i, start.toNat ≤ i ∧ s.buf[i]? = some ch ∧
      (∀ j, start.toNat ≤ j → j < i → s.buf[j]? ≠ some ch) ∧
      (firstOccurenceOfFrom s ch start).toNat = i) ∨
    (∀ j, start.toNat ≤ j → s.buf[j]? ≠ some ch) ∧ firstOccurenceOfFrom s ch start = -1 := by
  induction hn : s.buf.length - start.toNat using Nat.strong_induction_on generalizing start with
  | _ n ih =>
    subst hn
    rw [firstOccurenceOfFrom]
    split
    · rename_i hlt
      have hlen := s.length_lt
      have hhere : s.buf[start.toNat]? = some (s.buf.get ⟨start.toNat, hlt⟩) :=
        List.getElem?_eq_getElem hlt
      split
      · rename_i heq
        exact .inl ⟨start.toNat, le_rfl, heq ▸ hhere, fun j hle hlt => by omega, rfl⟩
      · rename_i hne
        have hne' : s.buf[start.toNat]? ≠ some ch := by
          rw [hhere]
          exact fun heq => hne (Option.some.inj heq)
        have hnext : (start + 1).toNat = start.toNat + 1 := by
          rw [BitVec.toNat_add, show (1 : U64).toNat = 1 from rfl, Nat.mod_eq_of_lt (by omega)]
        rcases ih _ (by omega) (start + 1) rfl with ⟨i, hle, hi, hfirst, hresult⟩ | ⟨hnone, hresult⟩
        · refine .inl ⟨i, by omega, hi, fun j hj hlt => ?_, hresult⟩
          rcases Nat.eq_or_lt_of_le hj with rfl | hj
          · exact hne'
          · exact hfirst j (by omega) hlt
        · refine .inr ⟨fun j hj => ?_, hresult⟩
          rcases Nat.eq_or_lt_of_le hj with rfl | hj
          · exact hne'
          · exact hnone j (by omega)
    · rename_i hge
      refine .inr ⟨fun j hj => ?_, rfl⟩
      rw [List.getElem?_eq_none (by omega)]
      simp

end Homegrown
