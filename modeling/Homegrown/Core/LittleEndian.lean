import Homegrown.Core.Bytes

/-!
# Words in a memory of bytes

A word of 64 bits is stored as its bytes, the lowest first. A load gives back what was stored at
the same place and sees nothing of a store elsewhere.
-/

namespace Homegrown

/-- The lowest bytes of a number, the lowest first. -/
def littleEndian : Nat → Nat → List (BitVec 8)
  | 0, _ => []
  | n + 1, v => BitVec.ofNat 8 v :: littleEndian n (v / 256)

/-- The number that bytes stand for, the lowest first. -/
def ofLittleEndian : List (BitVec 8) → Nat
  | [] => 0
  | b :: bytes => b.toNat + 256 * ofLittleEndian bytes

/-- A number has as many bytes as it was given. -/
@[simp] theorem length_littleEndian (n v : Nat) : (littleEndian n v).length = n := by
  induction n generalizing v with
  | zero => rfl
  | succ n ih => rw [littleEndian, List.length_cons, ih]

/-- A number that fits is the one its bytes stand for. -/
theorem ofLittleEndian_littleEndian {n v : Nat} (h : v < 256 ^ n) :
    ofLittleEndian (littleEndian n v) = v := by
  induction n generalizing v with
  | zero =>
    rw [pow_zero, Nat.lt_one_iff] at h
    rw [h]
    rfl
  | succ n ih =>
    rw [pow_succ] at h
    rw [littleEndian, ofLittleEndian, ih (Nat.div_lt_of_lt_mul (by omega)), BitVec.toNat_ofNat]
    exact Nat.mod_add_div v 256

variable {w : Nat}

/-- The word at a place. -/
def load64 (m : BitVec w → BitVec 8) (p : BitVec w) : BitVec 64 :=
  BitVec.ofNat 64 (ofLittleEndian (loadBytes m p 8))

/-- Memory after a word was stored at a place. -/
def store64 (m : BitVec w → BitVec 8) (p : BitVec w) (v : BitVec 64) : BitVec w → BitVec 8 :=
  storeBytes m p (littleEndian 8 v.toNat)

section Words

variable {m m' : BitVec w → BitVec 8} {p q a : BitVec w} {v : BitVec 64} {data : List (BitVec 8)}

/-- A store of a word changes its eight places only. -/
theorem store64_of_notMem (h : p.toNat + 8 ≤ 2 ^ w) (ha : a.toNat ∉ Span.mk p.toNat 8) :
    store64 m p v a = m a :=
  storeBytes_of_notMem (by rwa [length_littleEndian]) (by rwa [length_littleEndian])

/-- A word depends on its eight places only. -/
theorem load64_congr (h : p.toNat + 8 ≤ 2 ^ w)
    (hsame : ∀ a : BitVec w, a.toNat ∈ Span.mk p.toNat 8 → m a = m' a) :
    load64 m p = load64 m' p := by
  rw [load64, load64, loadBytes_congr h hsame]

/-- A load gives the word that was stored. -/
theorem load64_store64_self (h : p.toNat + 8 ≤ 2 ^ w) : load64 (store64 m p v) p = v := by
  have hbytes : loadBytes (storeBytes m p (littleEndian 8 v.toNat)) p
      (littleEndian 8 v.toNat).length = littleEndian 8 v.toNat := by
    apply loadBytes_storeBytes_self
    rwa [length_littleEndian]
  rw [length_littleEndian] at hbytes
  rw [load64, store64, hbytes, ofLittleEndian_littleEndian v.isLt, BitVec.ofNat_toNat,
    BitVec.setWidth_eq]

/-- A load of a word sees nothing of a store elsewhere. -/
theorem load64_storeBytes_of_disjoint (hp : p.toNat + data.length ≤ 2 ^ w)
    (hq : q.toNat + 8 ≤ 2 ^ w)
    (h : (Span.mk q.toNat 8).Disjoint (Span.mk p.toNat data.length)) :
    load64 (storeBytes m p data) q = load64 m q := by
  rw [load64, loadBytes_storeBytes_of_disjoint hp hq h, load64]

end Words

end Homegrown
