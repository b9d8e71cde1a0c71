import Mathlib.Algebra.BigOperators.Group.List.Basic
import Mathlib.Data.BitVec
import Mathlib.Tactic.Ring

/-!
# Records one after the other in memory

Records that know their own sizes lie one after the other from a place on, so that from each of
them the next one is found. `Walk.append_iff` cuts such a row in two, `Walk.congr` is its frame
rule, and `records` is the program that walks over it.
-/

namespace Homegrown

variable {w : Nat} {X : Type}

/-- The bytes of records. -/
def extent (size : X → BitVec w) (xs : List X) : Nat := (xs.map fun x => (size x).toNat).sum

/-- The place behind records that start at a place. -/
def placeAfter (size : X → BitVec w) (p : BitVec w) (xs : List X) : BitVec w :=
  p + BitVec.ofNat w (extent size xs)

/-- Records lie one after the other, from the first place to the second. -/
def Walk (read : BitVec w → X) (size : X → BitVec w) : BitVec w → List X → BitVec w → Prop
  | p, [], q => p = q
  | p, x :: xs, q => read p = x ∧ Walk read size (p + size x) xs q

/-- The records from a place on, up to a place. -/
def records (read : BitVec w → X) (size : X → BitVec w) (q : BitVec w) : Nat → BitVec w → List X
  | 0, _ => []
  | rounds + 1, p =>
    if p < q then read p :: records read size q rounds (p + size (read p)) else []

section Extent

variable {size : X → BitVec w} {p : BitVec w} {x : X} {xs ys : List X}

@[simp] theorem extent_nil : extent size [] = 0 := rfl

@[simp] theorem extent_cons : extent size (x :: xs) = (size x).toNat + extent size xs := by
  rw [extent, List.map_cons, List.sum_cons, extent]

/-- The extents of two lists add up. -/
@[simp] theorem extent_append : extent size (xs ++ ys) = extent size xs + extent size ys := by
  rw [extent, List.map_append, List.sum_append, extent, extent]

@[simp] theorem placeAfter_nil : placeAfter size p [] = p := by
  rw [placeAfter, extent_nil]
  exact BitVec.add_zero p

/-- The place behind a block and what follows it. -/
theorem placeAfter_cons : placeAfter size p (x :: xs) = placeAfter size (p + size x) xs := by
  rw [placeAfter, extent_cons, BitVec.ofNat_add, BitVec.ofNat_toNat, BitVec.setWidth_eq,
    ← BitVec.add_assoc, placeAfter]

/-- The place behind two lists. -/
theorem placeAfter_append :
    placeAfter size p (xs ++ ys) = placeAfter size (placeAfter size p xs) ys := by
  rw [placeAfter, extent_append, BitVec.ofNat_add, ← BitVec.add_assoc, placeAfter, placeAfter]

/-- The place behind the last block. -/
theorem placeAfter_concat : placeAfter size p (xs ++ [x]) = placeAfter size p xs + size x := by
  rw [placeAfter_append, placeAfter_cons, placeAfter_nil]

/-- Two records of a row are the same one, or one lies before the other. -/
theorem extent_cut (size : X → BitVec w) {pre pre' post post' : List X} {x' : X}
    (h : pre ++ x :: post = pre' ++ x' :: post') :
    (pre = pre' ∧ x = x' ∧ post = post') ∨
      extent size pre + (size x).toNat ≤ extent size pre' ∨
      extent size pre' + (size x').toNat ≤ extent size pre := by
  rcases List.append_eq_append_iff.mp h with ⟨mid, rfl, hmid⟩ | ⟨mid, rfl, hmid⟩
  · cases mid with
    | nil =>
      obtain ⟨rfl, rfl⟩ := List.cons_eq_cons.mp hmid
      exact Or.inl ⟨(List.append_nil _).symm, rfl, rfl⟩
    | cons y mid =>
      obtain ⟨rfl, -⟩ := List.cons_eq_cons.mp hmid
      rw [extent_append, extent_cons]
      omega
  · cases mid with
    | nil =>
      obtain ⟨rfl, rfl⟩ := List.cons_eq_cons.mp hmid
      exact Or.inl ⟨List.append_nil _, rfl, rfl⟩
    | cons y mid =>
      obtain ⟨rfl, -⟩ := List.cons_eq_cons.mp hmid
      rw [extent_append, extent_cons]
      omega

/-- The place behind records that end before the last place. -/
theorem toNat_placeAfter (h : p.toNat + extent size xs < 2 ^ w) :
    (placeAfter size p xs).toNat = p.toNat + extent size xs := by
  rw [placeAfter, BitVec.toNat_add, BitVec.toNat_ofNat, Nat.add_mod_mod, Nat.mod_eq_of_lt h]

end Extent

namespace Walk

variable {read read' : BitVec w → X} {size : X → BitVec w} {p q : BitVec w} {x : X}
  {xs ys : List X}

/-- Records end where their sizes lead. -/
theorem eq_placeAfter (h : Walk read size p xs q) : q = placeAfter size p xs := by
  induction xs generalizing p with
  | nil =>
    rw [placeAfter_nil]
    exact Eq.symm h
  | cons x xs ih =>
    rw [placeAfter_cons]
    exact ih h.2

/-- A row of records is cut in two. -/
theorem append_iff : Walk read size p (xs ++ ys) q ↔
    Walk read size p xs (placeAfter size p xs) ∧ Walk read size (placeAfter size p xs) ys q := by
  induction xs generalizing p with
  | nil => simp [Walk]
  | cons x xs ih =>
    rw [List.cons_append, Walk, ih, placeAfter_cons, Walk, and_assoc]

/-- The record behind others. -/
theorem read_eq (h : Walk read size p (xs ++ x :: ys) q) : read (placeAfter size p xs) = x :=
  (append_iff.mp h).2.1

/-- A row of records depends on what is read at their places only. -/
theorem congr (h : Walk read size p xs q)
    (hsame : ∀ pre x post, xs = pre ++ x :: post →
      read' (placeAfter size p pre) = read (placeAfter size p pre)) :
    Walk read' size p xs q := by
  induction xs generalizing p with
  | nil => exact h
  | cons x xs ih =>
    refine ⟨?_, ih h.2 fun pre y post hxs => ?_⟩
    · have hfirst := hsame [] x xs rfl
      rw [placeAfter_nil] at hfirst
      exact hfirst.trans h.1
    · have hnext := hsame (x :: pre) y post (by rw [hxs, List.cons_append])
      rwa [placeAfter_cons] at hnext

/-- Walking over records finds them. -/
theorem records_eq (h : Walk read size p xs q) (hsize : ∀ x ∈ xs, 0 < (size x).toNat)
    (hfit : p.toNat + extent size xs < 2 ^ w) {rounds : Nat} (hrounds : xs.length ≤ rounds) :
    records read size q rounds p = xs := by
  induction xs generalizing p rounds with
  | nil =>
    obtain rfl : p = q := h
    cases rounds with
    | zero => rfl
    | succ rounds =>
      rw [records, if_neg]
      exact Nat.lt_irrefl _
  | cons x xs ih =>
    obtain ⟨rounds, rfl⟩ : ∃ k, rounds = k + 1 := ⟨rounds - 1, by
      rw [List.length_cons] at hrounds
      omega⟩
    have hq := toNat_placeAfter hfit
    have hx := hsize x List.mem_cons_self
    rw [← h.eq_placeAfter, extent_cons] at hq
    rw [extent_cons] at hfit
    have hnext : (p + size x).toNat = p.toNat + (size x).toNat := by
      rw [BitVec.toNat_add, Nat.mod_eq_of_lt (by omega)]
    rw [records, if_pos (BitVec.lt_def.mpr (by omega)), h.1]
    rw [ih h.2 (fun y hy => hsize y (List.mem_cons_of_mem _ hy)) (by omega)
      (Nat.le_of_succ_le_succ hrounds)]

end Walk

end Homegrown
