import Homegrown.Core.Span
import Mathlib.Data.List.GetD

/-!
# Loads and stores of memory

Memory is a function on words. A store of a list changes only the places of its span, and a load
sees nothing of a store elsewhere.
-/

namespace Homegrown

variable {w : Nat} {β : Type}

/-- What memory holds from a place on. -/
def loadBytes (m : BitVec w → β) (p : BitVec w) (n : Nat) : List β :=
  (List.range n).map fun i => m (p + BitVec.ofNat w i)

/-- Memory after a list was stored from a place on. -/
def storeBytes (m : BitVec w → β) (p : BitVec w) (data : List β) : BitVec w → β := fun a =>
  data.getD (a - p).toNat (m a)

section Bytes

variable {m m' : BitVec w → β} {p q a : BitVec w} {data : List β} {n k : Nat}

/-- As many bytes are loaded as are asked for. -/
@[simp] theorem length_loadBytes : (loadBytes m p n).length = n := by
  rw [loadBytes, List.length_map, List.length_range]

/-- A longer load is two loads, one behind the other. -/
theorem loadBytes_add (m : BitVec w → β) (p : BitVec w) (n k : Nat) :
    loadBytes m p (n + k) = loadBytes m p n ++ loadBytes m (p + BitVec.ofNat w n) k := by
  simp only [loadBytes, List.range_add, List.map_append, List.map_map, Function.comp_def,
    BitVec.ofNat_add, BitVec.add_assoc]

/-- The places of a span that does not wrap. -/
theorem toNat_sub_lt_iff (h : p.toNat + n ≤ 2 ^ w) :
    (a - p).toNat < n ↔ a.toNat ∈ Span.mk p.toNat n := by
  have ha := a.isLt
  rw [Span.mem_mk, BitVec.toNat_sub]
  by_cases hle : p.toNat ≤ a.toNat
  · rw [show 2 ^ w - p.toNat + a.toNat = a.toNat - p.toNat + 2 ^ w by omega, Nat.add_mod_right,
      Nat.mod_eq_of_lt (by omega)]
    omega
  · rw [Nat.mod_eq_of_lt (by omega)]
    omega

/-- The place at an offset. -/
theorem toNat_add_ofNat (h : p.toNat + n < 2 ^ w) :
    (p + BitVec.ofNat w n).toNat = p.toNat + n := by
  have hn : n % 2 ^ w = n := Nat.mod_eq_of_lt (by omega)
  rw [BitVec.toNat_add, BitVec.toNat_ofNat, hn, Nat.mod_eq_of_lt h]

/-- A load depends on its span only. -/
theorem loadBytes_congr (h : p.toNat + n ≤ 2 ^ w)
    (hsame : ∀ a : BitVec w, a.toNat ∈ Span.mk p.toNat n → m a = m' a) :
    loadBytes m p n = loadBytes m' p n := by
  apply List.map_congr_left
  intro i hi
  rw [List.mem_range] at hi
  apply hsame
  rw [toNat_add_ofNat (by omega), Span.mem_mk]
  omega

/-- A store changes its span only. -/
theorem storeBytes_of_notMem (h : p.toNat + data.length ≤ 2 ^ w)
    (ha : a.toNat ∉ Span.mk p.toNat data.length) : storeBytes m p data a = m a := by
  rw [← toNat_sub_lt_iff h, not_lt] at ha
  exact List.getD_eq_default _ _ ha

/-- A load sees nothing of a store elsewhere. -/
theorem loadBytes_storeBytes_of_disjoint (hp : p.toNat + data.length ≤ 2 ^ w)
    (hq : q.toNat + n ≤ 2 ^ w)
    (h : (Span.mk q.toNat n).Disjoint (Span.mk p.toNat data.length)) :
    loadBytes (storeBytes m p data) q n = loadBytes m q n :=
  loadBytes_congr hq fun a ha => storeBytes_of_notMem hp (h a.toNat ha)

/-- A load gives what was stored. -/
theorem loadBytes_storeBytes_self (h : p.toNat + data.length ≤ 2 ^ w) :
    loadBytes (storeBytes m p data) p data.length = data := by
  apply List.ext_getElem
  · rw [length_loadBytes]
  · intro i hi _
    rw [length_loadBytes] at hi
    have hsub : (p + BitVec.ofNat w i - p).toNat = i := by
      rw [BitVec.add_comm, BitVec.add_sub_cancel, BitVec.toNat_ofNat, Nat.mod_eq_of_lt (by omega)]
    simp only [loadBytes, List.getElem_map, List.getElem_range, storeBytes, hsub]
    exact List.getD_eq_getElem _ _ hi

end Bytes

end Homegrown
