import Mathlib.Algebra.BigOperators.Group.List.Basic
import Mathlib.Algebra.Order.Ring.Nat

/-!
# Fields of bits

Fields lie behind each other in a number, the first one in its lowest bits (`pack`). Each is read
back with its width (`unpack_pack`).
-/

namespace Homegrown.BitFields

/-- The number of some fields, each a width and a value. -/
def pack : List (Nat × Nat) → Nat
  | [] => 0
  | (width, value) :: fields => value + 2 ^ width * pack fields

/-- The values of the fields of these widths. -/
def unpack : List Nat → Nat → List Nat
  | [], _ => []
  | width :: widths, n => n % 2 ^ width :: unpack widths (n / 2 ^ width)

section Fields

variable {fields : List (Nat × Nat)}

/-- Fields whose values have their widths are below the power of all widths. -/
theorem pack_lt (h : ∀ f ∈ fields, f.2 < 2 ^ f.1) :
    pack fields < 2 ^ (fields.map Prod.fst).sum := by
  induction fields with
  | nil => exact Nat.one_pos
  | cons f fields ih =>
    rw [List.forall_mem_cons] at h
    have hrest := Nat.mul_le_mul_left (2 ^ f.1) (Nat.succ_le_of_lt (ih h.2))
    rw [Nat.mul_succ] at hrest
    rw [List.map_cons, List.sum_cons, pow_add]
    have hfirst := h.1
    change f.2 + 2 ^ f.1 * pack fields < _
    omega

/-- The values come back. -/
theorem unpack_pack (h : ∀ f ∈ fields, f.2 < 2 ^ f.1) :
    unpack (fields.map Prod.fst) (pack fields) = fields.map Prod.snd := by
  induction fields with
  | nil => rfl
  | cons f fields ih =>
    rw [List.forall_mem_cons] at h
    have hmod : (f.2 + 2 ^ f.1 * pack fields) % 2 ^ f.1 = f.2 := by
      rw [Nat.add_mul_mod_self_left, Nat.mod_eq_of_lt h.1]
    have hdiv : (f.2 + 2 ^ f.1 * pack fields) / 2 ^ f.1 = pack fields := by
      rw [Nat.add_mul_div_left _ _ (Nat.two_pow_pos _), Nat.div_eq_of_lt h.1, Nat.zero_add]
    rw [List.map_cons, List.map_cons, ← ih h.2]
    change (f.2 + 2 ^ f.1 * pack fields) % 2 ^ f.1 ::
      unpack _ ((f.2 + 2 ^ f.1 * pack fields) / 2 ^ f.1) = _
    rw [hmod, hdiv]

end Fields

end Homegrown.BitFields
