import Mathlib.Algebra.BigOperators.Group.Finset.Basic
import Mathlib.Algebra.BigOperators.Intervals
import Mathlib.Algebra.Order.BigOperators.Group.Finset
import Mathlib.Data.List.Count
import Mathlib.Data.Set.Basic

/-!
# Spans and exact covers

A span is a half-open range of natural numbers, given by its start and its
size. A list of spans covers a position as often as the position occurs in
its spans; `count` is that multiplicity. The list partitions a set exactly when
every position of the set is covered once and no other position is covered,
which is the form in which ownership of memory is transported through splits,
merges and moves of spans. The size of a list of spans is a function of its
multiplicities alone.
-/

namespace Homegrown

/-- A half-open range `[start, start + size)`. -/
structure Span where
  /-- First position. -/
  start : Nat
  /-- Number of positions. -/
  size : Nat
  deriving DecidableEq, Repr

namespace Span

/-- One past the last position. -/
def stop (s : Span) : Nat := s.start + s.size

instance : Membership Nat Span := ⟨fun s a => s.start ≤ a ∧ a < s.start + s.size⟩

/-- The positions of a span. -/
theorem mem_iff {s : Span} {a : Nat} : a ∈ s ↔ s.start ≤ a ∧ a < s.start + s.size := Iff.rfl

@[simp] theorem mem_mk {b n a : Nat} : a ∈ Span.mk b n ↔ b ≤ a ∧ a < b + n := Iff.rfl

/-- A position of a whole number of pieces lies in one of them. -/
theorem mem_mul_iff {b n size a : Nat} (hpos : 0 < size) :
    a ∈ Span.mk b (n * size) ↔ ∃ k < n, a ∈ Span.mk (b + k * size) size := by
  simp only [mem_mk]
  constructor
  · rintro ⟨hle, hlt⟩
    have hmod := Nat.mod_lt (a - b) hpos
    have hdiv := Nat.div_add_mod' (a - b) size
    refine ⟨(a - b) / size, ?_, by omega, by omega⟩
    rw [Nat.div_lt_iff_lt_mul hpos]
    omega
  · rintro ⟨k, hk, hle, hlt⟩
    have hend := Nat.mul_le_mul_right size (Nat.succ_le_of_lt hk)
    rw [Nat.succ_mul] at hend
    omega

instance (s : Span) (a : Nat) : Decidable (a ∈ s) :=
  inferInstanceAs (Decidable (s.start ≤ a ∧ a < s.start + s.size))

/-- No position belongs to both spans. -/
def Disjoint (s t : Span) : Prop := ∀ a, a ∈ s → a ∉ t

/-- Being disjoint is symmetric. -/
theorem Disjoint.symm {s t : Span} (h : s.Disjoint t) : t.Disjoint s :=
  fun a ht hs => h a hs ht

/-- A span that ends before another one starts is disjoint from it. -/
theorem disjoint_of_stop_le {s t : Span} (h : s.stop ≤ t.start) : s.Disjoint t := by
  intro a hs ht
  simp only [stop, mem_iff] at *
  omega

/-- Spans in ascending order are disjoint. -/
theorem pairwise_disjoint_of_sorted {l : List Span}
    (h : l.IsChain fun s t => s.stop ≤ t.start) : l.Pairwise Disjoint := by
  have htrans : IsTrans Span fun s t => s.stop ≤ t.start :=
    ⟨fun s t u hst htu => hst.trans ((Nat.le_add_right _ _).trans htu)⟩
  exact (List.isChain_iff_pairwise.mp h).imp disjoint_of_stop_le

/-! ## Multiplicity -/

/-- How many spans of the list contain the position. -/
def count (l : List Span) (a : Nat) : Nat := l.countP (fun s => a ∈ s)

@[simp] theorem count_nil (a : Nat) : count [] a = 0 := rfl

/-- A span covers its own positions once. -/
theorem count_cons (s : Span) (l : List Span) (a : Nat) :
    count (s :: l) a = count l a + if a ∈ s then 1 else 0 := by
  simp only [count, List.countP_cons, decide_eq_true_eq]

/-- The multiplicities of two lists add up. -/
@[simp] theorem count_append (l r : List Span) (a : Nat) :
    count (l ++ r) a = count l a + count r a := List.countP_append

/-- The order of the spans does not matter. -/
theorem count_perm {l r : List Span} (h : l.Perm r) (a : Nat) : count l a = count r a :=
  h.countP_eq _

/-- A single span covers its positions once. -/
theorem count_singleton (s : Span) (a : Nat) : count [s] a = if a ∈ s then 1 else 0 := by
  simp only [count_cons, count_nil, Nat.zero_add]

/-- The first span counts as a list of its own. -/
theorem count_cons' (s : Span) (l : List Span) (a : Nat) :
    count (s :: l) a = count [s] a + count l a := by
  rw [count_cons, count_singleton, Nat.add_comm]

/-- A position is covered when it is in one of the spans. -/
theorem count_pos_iff {l : List Span} {a : Nat} : 0 < count l a ↔ ∃ s ∈ l, a ∈ s := by
  simp only [count, List.countP_pos_iff, decide_eq_true_eq]

/-- A position is not covered when it is in none of the spans. -/
theorem count_eq_zero_iff {l : List Span} {a : Nat} : count l a = 0 ↔ ∀ s ∈ l, a ∉ s := by
  simp only [count, List.countP_eq_zero, decide_eq_true_eq]

/-- A span counts as its two parts. -/
theorem count_split (b n m a : Nat) :
    count [⟨b, n + m⟩] a = count [⟨b, n⟩] a + count [⟨b + n, m⟩] a := by
  simp only [count_singleton, mem_mk]
  split_ifs <;> omega

/-- An empty span covers nothing. -/
@[simp] theorem count_empty (b a : Nat) : count [⟨b, 0⟩] a = 0 := by
  simp only [count_singleton, mem_mk]
  split_ifs <;> omega

/-- Replacing an entry changes the multiplicity by the two entries only. -/
theorem count_set (l : List Span) {i : Nat} {s : Span} (t : Span) (h : l[i]? = some s) (a : Nat) :
    count (l.set i t) a + count [s] a = count l a + count [t] a := by
  induction l generalizing i with
  | nil => simp at h
  | cons x l ih =>
    cases i with
    | zero =>
      obtain rfl : x = s := by simpa using h
      rw [List.set_cons_zero, count_cons' t l, count_cons' x l]
      omega
    | succ i =>
      have hi := ih (by simpa using h)
      rw [List.set_cons_succ, count_cons' x (l.set i t), count_cons' x l]
      omega

/-! ## Exact covers -/

/-- The spans are pairwise disjoint and together are exactly the set. -/
structure ExactCover (l : List Span) (u : Set Nat) : Prop where
  /-- No two spans of the list share a position. -/
  disjoint : l.Pairwise Disjoint
  /-- The covered positions are those of the set. -/
  covers : ∀ a, a ∈ u ↔ ∃ s ∈ l, a ∈ s

/-- Spans are disjoint when no position is covered twice. -/
theorem pairwise_disjoint_iff_count {l : List Span} :
    l.Pairwise Disjoint ↔ ∀ a, count l a ≤ 1 := by
  induction l with
  | nil => simp
  | cons s l ih =>
    rw [List.pairwise_cons, ih]
    constructor
    · rintro ⟨hs, hl⟩ a
      rw [count_cons]
      split
      · rename_i ha
        have hz : count l a = 0 := count_eq_zero_iff.mpr fun t ht => hs t ht a ha
        omega
      · exact hl a
    · intro h
      refine ⟨fun t ht a ha hat => ?_, fun a => ?_⟩
      · have hp : 0 < count l a := count_pos_iff.mpr ⟨t, ht, hat⟩
        have h1 := h a
        rw [count_cons, ite_cond_eq_true _ _ (eq_true ha)] at h1
        omega
      · have h1 := h a
        rw [count_cons] at h1
        omega

/-- A list covers a set exactly when its multiplicity is the set's indicator. -/
theorem exactCover_iff {l : List Span} {u : Set Nat} :
    ExactCover l u ↔ ∀ a, (a ∈ u → count l a = 1) ∧ (a ∉ u → count l a = 0) := by
  constructor
  · intro h a
    have hle := pairwise_disjoint_iff_count.mp h.disjoint a
    constructor
    · intro ha
      have hpos := count_pos_iff.mpr ((h.covers a).mp ha)
      omega
    · intro ha
      rw [count_eq_zero_iff]
      intro s hs has
      exact ha ((h.covers a).mpr ⟨s, hs, has⟩)
  · intro h
    constructor
    · rw [pairwise_disjoint_iff_count]
      intro a
      by_cases ha : a ∈ u
      · exact ((h a).1 ha).le
      · rw [(h a).2 ha]
        exact Nat.zero_le _
    · intro a
      rw [← count_pos_iff]
      constructor
      · intro ha
        rw [(h a).1 ha]
        exact Nat.one_pos
      · intro hp
        by_contra ha
        rw [(h a).2 ha] at hp
        exact Nat.lt_irrefl _ hp

/-- An exact cover depends on the multiplicities only. -/
theorem ExactCover.congr {l r : List Span} {u : Set Nat} (h : ExactCover l u)
    (he : ∀ a, count r a = count l a) : ExactCover r u := by
  rw [exactCover_iff] at h ⊢
  intro a
  rw [he a]
  exact h a

/-- All exact covers of one set have the same multiplicities. -/
theorem ExactCover.count_eq {l r : List Span} {u : Set Nat} (hl : ExactCover l u)
    (hr : ExactCover r u) (a : Nat) : count l a = count r a := by
  rw [exactCover_iff] at hl hr
  by_cases ha : a ∈ u
  · rw [(hl a).1 ha, (hr a).1 ha]
  · rw [(hl a).2 ha, (hr a).2 ha]

/-! ## Total size -/

/-- Number of positions of the list, with multiplicity. -/
def total (l : List Span) : Nat := (l.map size).sum

@[simp] theorem total_nil : total [] = 0 := rfl

@[simp] theorem total_cons (s : Span) (l : List Span) : total (s :: l) = s.size + total l := by
  simp only [total, List.map_cons, List.sum_cons]

/-- The sizes of two lists add up. -/
@[simp] theorem total_append (l r : List Span) : total (l ++ r) = total l + total r := by
  simp only [total, List.map_append, List.sum_append]

/-- The order of the spans does not matter for their size. -/
theorem total_perm {l r : List Span} (h : l.Perm r) : total l = total r :=
  (h.map size).sum_eq

/-- Replacing an entry changes the total size by the two entries only. -/
theorem total_set (l : List Span) {i : Nat} {s : Span} (t : Span) (h : l[i]? = some s) :
    total (l.set i t) + s.size = total l + t.size := by
  induction l generalizing i with
  | nil => simp at h
  | cons x l ih =>
    cases i with
    | zero =>
      obtain rfl : x = s := by simpa using h
      rw [List.set_cons_zero, total_cons, total_cons]
      omega
    | succ i =>
      have hi := ih (by simpa using h)
      rw [List.set_cons_succ, total_cons, total_cons]
      omega

/-- The size of a span is the number of its positions. -/
private theorem sum_mem_range {s : Span} {bound : Nat} (h : s.stop ≤ bound) :
    ∑ a ∈ Finset.range bound, (if a ∈ s then 1 else 0) = s.size := by
  have hfilter : (Finset.range bound).filter (fun a => a ∈ s) = Finset.Ico s.start s.stop := by
    ext a
    simp only [Finset.mem_filter, Finset.mem_range, Finset.mem_Ico, mem_iff, stop] at h ⊢
    omega
  rw [← Finset.card_filter, hfilter, Nat.card_Ico, stop, Nat.add_sub_cancel_left]

/-- The total size is the sum of the multiplicities. -/
theorem total_eq_sum_count {l : List Span} {bound : Nat} (h : ∀ s ∈ l, s.stop ≤ bound) :
    total l = ∑ a ∈ Finset.range bound, count l a := by
  induction l with
  | nil => simp
  | cons s l ih =>
    have hs := sum_mem_range (h s (List.mem_cons_self ..))
    have hl := ih fun t ht => h t (List.mem_cons_of_mem _ ht)
    simp only [count_cons, Finset.sum_add_distrib, total_cons, hs, hl]
    omega

/-- Some position lies behind all spans. -/
private theorem exists_bound (l : List Span) : ∃ bound, ∀ s ∈ l, s.stop ≤ bound := by
  induction l with
  | nil => exact ⟨0, by simp⟩
  | cons s l ih =>
    obtain ⟨bound, hb⟩ := ih
    refine ⟨max s.stop bound, fun t ht => ?_⟩
    rcases List.mem_cons.mp ht with rfl | ht
    · exact le_max_left _ _
    · exact (hb t ht).trans (le_max_right _ _)

/-- Lists with the same multiplicities have the same size. -/
theorem total_eq_of_count_eq {l r : List Span} (h : ∀ a, count l a = count r a) :
    total l = total r := by
  obtain ⟨bl, hl⟩ := exists_bound l
  obtain ⟨br, hr⟩ := exists_bound r
  have hl' : ∀ s ∈ l, s.stop ≤ max bl br := fun s hs => (hl s hs).trans (le_max_left _ _)
  have hr' : ∀ s ∈ r, s.stop ≤ max bl br := fun s hs => (hr s hs).trans (le_max_right _ _)
  rw [total_eq_sum_count hl', total_eq_sum_count hr']
  exact Finset.sum_congr rfl fun a _ => h a

/-! ## Moments -/

/-- The sum of the covered positions below a bound, with multiplicity. -/
def moment (bound : Nat) (l : List Span) : Nat := ∑ a ∈ Finset.range bound, a * count l a

/-- The sum of the positions depends on the multiplicities alone. -/
theorem moment_congr {l r : List Span} (h : ∀ a, count l a = count r a) (bound : Nat) :
    moment bound l = moment bound r :=
  Finset.sum_congr rfl fun a _ => by rw [h a]

/-- The positions of one span, from its start on. -/
private theorem moment_singleton {s : Span} {bound : Nat} (h : s.stop ≤ bound) :
    moment bound [s] = ∑ i ∈ Finset.range s.size, (s.start + i) := by
  have hfilter : (Finset.range bound).filter (fun a => a ∈ s) = Finset.Ico s.start s.stop := by
    ext a
    simp only [Finset.mem_filter, Finset.mem_range, Finset.mem_Ico, mem_iff, stop] at h ⊢
    omega
  calc moment bound [s]
      _ = ∑ a ∈ Finset.range bound, if a ∈ s then a else 0 :=
        Finset.sum_congr rfl fun a _ => by rw [count_singleton, mul_ite, mul_one, mul_zero]
      _ = ∑ a ∈ Finset.Ico s.start s.stop, a := by rw [← Finset.sum_filter, hfilter]
      _ = ∑ i ∈ Finset.range s.size, (s.start + i) := by
        rw [Finset.sum_Ico_eq_sum_range, stop, Nat.add_sub_cancel_left]

/-- Exchanging a span for one of the same size further up makes the moment larger. -/
theorem moment_lt {l r : List Span} {x y : Span} {bound : Nat}
    (hcount : ∀ a, count r a + count [x] a = count l a + count [y] a) (hsize : x.size = y.size)
    (hpos : 0 < x.size) (hlt : x.start < y.start) (hy : y.stop ≤ bound) :
    moment bound l < moment bound r := by
  have hx : x.stop ≤ bound := by
    rw [stop] at hy ⊢
    omega
  have hsum : moment bound r + moment bound [x] = moment bound l + moment bound [y] := by
    simp only [moment, ← Finset.sum_add_distrib, ← Nat.mul_add, hcount]
  have hsingle : moment bound [x] < moment bound [y] := by
    rw [moment_singleton hx, moment_singleton hy, ← hsize]
    exact Finset.sum_lt_sum_of_nonempty (Finset.nonempty_range_iff.mpr hpos.ne') fun i _ => by omega
  omega

end Span

end Homegrown
