import Mathlib.Logic.Function.Iterate

/-!
# Cyclic redundancy checks

The register of a reflected check holds the remainder of the bits that were read, its highest
coefficient in the lowest bit. The division is linear in the register, so that several bits can be
read at once: the remainders of the low bits come from a table, and the other bits are shifted.
-/

namespace Homegrown

section Crc

variable {w k : Nat} (poly : BitVec w)

/-- A step of the division. -/
def crcShift (r : BitVec w) : BitVec w := if r.getLsbD 0 then (r >>> 1) ^^^ poly else r >>> 1

/-- A bit of a message is read. -/
def crcBit (r : BitVec w) (b : Bool) : BitVec w :=
  if r.getLsbD 0 ^^ b then (r >>> 1) ^^^ poly else r >>> 1

/-- The bits of a message are read. -/
def crcBits (r : BitVec w) (bits : List Bool) : BitVec w := bits.foldl (crcBit poly) r

/-- The low bits of a word, the lowest first. -/
def lowBits (k : Nat) (v : BitVec w) : List Bool := (List.range k).map v.getLsbD

variable {poly} {r a b v : BitVec w}

/-- The low bits are the lowest one and those of the word shifted by it. -/
theorem lowBits_succ (k : Nat) (v : BitVec w) :
    lowBits (k + 1) v = v.getLsbD 0 :: lowBits k (v >>> 1) := by
  rw [lowBits, List.range_succ_eq_map, List.map_cons, List.map_map, lowBits]
  congr 1
  refine List.map_congr_left fun i _ => ?_
  rw [BitVec.getLsbD_ushiftRight, Nat.add_comm]
  rfl

/-- A shift is linear. -/
theorem crcShift_xor (a b : BitVec w) :
    crcShift poly (a ^^^ b) = crcShift poly a ^^^ crcShift poly b := by
  rw [crcShift, crcShift, crcShift, BitVec.getLsbD_xor, BitVec.ushiftRight_xor_distrib]
  cases a.getLsbD 0 <;> cases b.getLsbD 0
  · rfl
  · exact BitVec.xor_assoc _ _ _
  · change a >>> 1 ^^^ b >>> 1 ^^^ poly = a >>> 1 ^^^ poly ^^^ b >>> 1
    rw [BitVec.xor_assoc, BitVec.xor_comm (b >>> 1), BitVec.xor_assoc]
  · change a >>> 1 ^^^ b >>> 1 = a >>> 1 ^^^ poly ^^^ (b >>> 1 ^^^ poly)
    rw [BitVec.xor_comm (b >>> 1) poly, BitVec.xor_assoc (a >>> 1), ← BitVec.xor_assoc poly,
      BitVec.xor_self, BitVec.zero_xor]

/-- So are any number of shifts. -/
theorem iterate_crcShift_xor (k : Nat) (a b : BitVec w) :
    (crcShift poly)^[k] (a ^^^ b) = (crcShift poly)^[k] a ^^^ (crcShift poly)^[k] b := by
  induction k generalizing a b with
  | zero => rfl
  | succ k ih => rw [Function.iterate_succ_apply, crcShift_xor, ih]; rfl

/-- Steps that shift out zeros only shift. -/
theorem iterate_crcShift_of_low (h : ∀ i < k, r.getLsbD i = false) :
    (crcShift poly)^[k] r = r >>> k := by
  induction k generalizing r with
  | zero => rfl
  | succ k ih =>
    have hshift : crcShift poly r = r >>> 1 := by
      rw [crcShift, h 0 k.succ_pos]
      rfl
    rw [Function.iterate_succ_apply, hshift, ih fun i hi => ?_, ← BitVec.shiftRight_add,
      Nat.add_comm]
    rw [BitVec.getLsbD_ushiftRight]
    exact h _ (by omega)

/-- The low bits are divided, and the others are shifted. -/
theorem iterate_crcShift (k : Nat) (r : BitVec w) :
    (crcShift poly)^[k] r =
      (crcShift poly)^[k] ((r.setWidth k).setWidth w) ^^^ (r >>> k) := by
  have hsplit : r = (r.setWidth k).setWidth w ^^^ ((r >>> k) <<< k) := by
    ext i hi
    rw [BitVec.getElem_xor, BitVec.getElem_setWidth, BitVec.getLsbD_setWidth,
      BitVec.getElem_shiftLeft, ← BitVec.getLsbD_eq_getElem]
    by_cases hlow : i < k
    · simp [hlow]
    · simp [hlow, Nat.add_sub_cancel' (Nat.le_of_not_lt hlow)]
  have hhigh : (crcShift poly)^[k] ((r >>> k) <<< k) = ((r >>> k) <<< k) >>> k :=
    iterate_crcShift_of_low fun i hi => by simp [hi]
  have hshift : ((r >>> k) <<< k) >>> k = r >>> k := by
    refine BitVec.eq_of_getLsbD_eq fun i hi => ?_
    rw [BitVec.getLsbD_ushiftRight, BitVec.getLsbD_shiftLeft, BitVec.getLsbD_ushiftRight,
      BitVec.getLsbD_ushiftRight, Nat.add_sub_cancel_left]
    by_cases hlt : k + i < w
    · simp [hlt]
    · rw [BitVec.getLsbD_of_ge r _ (Nat.le_of_not_lt hlt), Bool.and_false]
  calc (crcShift poly)^[k] r
      = (crcShift poly)^[k] ((r.setWidth k).setWidth w ^^^ ((r >>> k) <<< k)) := by rw [← hsplit]
    _ = (crcShift poly)^[k] ((r.setWidth k).setWidth w) ^^^ (r >>> k) := by
      rw [iterate_crcShift_xor, hhigh, hshift]

/-- A bit that is read is added to the bit that is shifted out. -/
theorem crcBit_xor (r v : BitVec w) :
    crcBit poly r (v.getLsbD 0) ^^^ (v >>> 1) = crcShift poly (r ^^^ v) := by
  rw [crcBit, crcShift, BitVec.getLsbD_xor, BitVec.ushiftRight_xor_distrib]
  split
  · rw [BitVec.xor_assoc, BitVec.xor_comm poly, BitVec.xor_assoc]
  · rfl

/-- To read bits is to add them to the low bits of the register and divide. -/
theorem crcBits_lowBits (hv : ∀ i, k ≤ i → v.getLsbD i = false) :
    crcBits poly r (lowBits k v) = (crcShift poly)^[k] (r ^^^ v) := by
  induction k generalizing r v with
  | zero =>
    have hzero : v = 0 := BitVec.eq_of_getLsbD_eq fun i _ => by simpa using hv i (Nat.zero_le i)
    rw [hzero]
    exact (BitVec.xor_zero).symm
  | succ k ih =>
    have hrest : ∀ i, k ≤ i → (v >>> 1).getLsbD i = false := fun i hi => by
      rw [BitVec.getLsbD_ushiftRight]
      exact hv _ (by omega)
    rw [lowBits_succ, Function.iterate_succ_apply, ← crcBit_xor]
    exact ih hrest

/-- Bits are read at once from the table of the remainders of all low bits. -/
theorem crcBits_of_table {table : BitVec k → BitVec w}
    (htable : ∀ i, table i = (crcShift poly)^[k] (i.setWidth w)) (hk : k ≤ w) (r : BitVec w)
    (v : BitVec k) :
    crcBits poly r (lowBits k v) = table ((r ^^^ v.setWidth w).setWidth k) ^^^ (r >>> k) := by
  have hlow : lowBits k v = lowBits k (v.setWidth w) := List.map_congr_left fun i hi => by
    have hi := List.mem_range.mp hi
    rw [BitVec.getLsbD_setWidth, decide_eq_true (by omega), Bool.true_and]
  have hv : ∀ i, k ≤ i → (v.setWidth w).getLsbD i = false := fun i hi => by
    rw [BitVec.getLsbD_setWidth, BitVec.getLsbD_of_ge v i hi, Bool.and_false]
  have hshift : (r ^^^ v.setWidth w) >>> k = r >>> k := by
    refine BitVec.eq_of_getLsbD_eq fun i _ => ?_
    rw [BitVec.getLsbD_ushiftRight, BitVec.getLsbD_ushiftRight, BitVec.getLsbD_xor,
      hv _ (Nat.le_add_right k i), Bool.xor_false]
  rw [hlow, crcBits_lowBits hv, iterate_crcShift, hshift, htable]

end Crc

end Homegrown
