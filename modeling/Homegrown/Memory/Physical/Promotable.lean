import Homegrown.Memory.Physical.Ownership

/-!
# Regions to promote

The loop of `initPMM` tests whether a region contains a page of the next larger size. Its tests
find every region that does, wherever the region starts and however long it is, and they find
nothing else in a region that starts at a whole page. What is left of a region from which pages
are taken contains no larger page that the region did not contain.
-/

namespace Homegrown.Memory

/-- A region that starts at a whole page and does not wrap. -/
structure PagedMemory.Whole (s : PageSize) (r : PagedMemory) : Prop where
  aligned : s.bytes ∣ r.pageStart.toNat
  bounded : r.Bounded s

/-- A region contains a page of the larger size. -/
def PagedMemory.HoldsLarger (larger s : PageSize) (r : PagedMemory) : Prop :=
  ∃ a, larger.bytes ∣ a ∧ r.pageStart.toNat ≤ a ∧
    a + larger.bytes ≤ r.pageStart.toNat + r.numberOfPages.toNat * s.bytes

/-- The pages of a region from the first larger page on, as `initPMM` computes them. -/
def pagesFromAlign (larger s : PageSize) (r : PagedMemory) : U64 :=
  r.numberOfPages - (alignUpValue r.pageStart larger.value - r.pageStart) / s.value

/-- The tests of `initPMM`. -/
def Promotable (larger s : PageSize) (r : PagedMemory) : Prop :=
  512 ≤ r.numberOfPages ∧ 512 ≤ pagesFromAlign larger s r

instance (larger s : PageSize) (r : PagedMemory) : Decidable (Promotable larger s r) :=
  inferInstanceAs (Decidable (_ ∧ _))

/-- A region without its first pages. -/
def PagedMemory.drop (s : PageSize) (r : PagedMemory) (n : U64) : PagedMemory :=
  ⟨r.pageStart + n * s.value, r.numberOfPages - n⟩

/-- The whole pages between an address and the first larger page behind it. -/
def pagesToBoundary (larger s : PageSize) (start : U64) : Nat :=
  (roundUp start.toNat larger.bytes - start.toNat) / s.bytes

section Region

variable {s larger : PageSize} {r : PagedMemory} {n start : U64}

/-- The first pages of a region are a region. -/
theorem PagedMemory.Whole.take (h : r.Whole s) (hn : n ≤ r.numberOfPages) :
    PagedMemory.Whole s ⟨r.pageStart, n⟩ := by
  refine ⟨h.aligned, ?_⟩
  have hb := PagedMemory.bounded_iff.mp h.bounded
  have hle := Nat.mul_le_mul_right s.bytes (BitVec.le_def.mp hn)
  rw [PagedMemory.bounded_iff]
  exact (Nat.add_le_add_left hle _).trans hb

/-- So are the pages behind them. -/
theorem PagedMemory.Whole.drop (h : r.Whole s) (hn : n.toNat < r.numberOfPages.toNat) :
    (r.drop s n).Whole s := by
  refine ⟨PagedMemory.dvd_page h.aligned, ?_⟩
  have hb := PagedMemory.bounded_iff.mp h.bounded
  have hsum : r.numberOfPages.toNat * s.bytes =
      n.toNat * s.bytes + (r.numberOfPages.toNat - n.toNat) * s.bytes := by
    rw [← Nat.add_mul, Nat.add_sub_cancel' hn.le]
  rw [PagedMemory.bounded_iff, PagedMemory.drop, PagedMemory.toNat_page h.bounded hn,
    BitVec.toNat_sub_of_le (BitVec.le_def.mpr hn.le)]
  omega

/-! ## What the tests compute -/

/-- Every larger page starts at a multiple below the top of the address space, or at the top. -/
theorem larger_bytes_dvd_top (larger : PageSize) : larger.bytes ∣ 2 ^ 64 := by
  cases larger <;> decide

/-- The distance to the first larger page, also where that is the top of the address space. -/
theorem toNat_alignUpValue_sub (larger : PageSize) (start : U64) :
    (alignUpValue start larger.value - start).toNat =
      roundUp start.toNat larger.bytes - start.toNat := by
  have hpos := larger.bytes_pos
  have hbytes := larger.bytes_le
  have hstart := start.isLt
  by_cases hv : start.toNat + (larger.bytes - 1) < 2 ^ 64
  · have hup := toNat_alignUpValue larger.isTwoPow_value hv
    rw [PageSize.toNat_value] at hup
    rw [BitVec.toNat_sub_of_le (by rw [BitVec.le_def, hup]; exact le_roundUp hpos), hup]
  · -- The first larger page is the one at 2 ^ 64, which is 0 as a word.
    have hwrap := alignUpValue_wrap larger.isTwoPow_value (not_lt.mp hv)
    have htop : roundUp start.toNat larger.bytes = 2 ^ 64 := by
      have hprev : larger.bytes ∣ 2 ^ 64 - larger.bytes :=
        Nat.dvd_sub (larger_bytes_dvd_top larger) (Nat.dvd_refl _)
      rw [roundUp_of_lt_of_le hprev (by omega) (by omega)]
      omega
    rw [htop, BitVec.toNat_sub, hwrap]
    omega

/-- The pages before the first larger page are less than make one. -/
theorem pagesToBoundary_lt (hl : s.larger? = some larger) (start : U64) :
    pagesToBoundary larger s start < 512 := by
  have hpos := larger.bytes_pos
  have hlt := roundUp_lt (x := start.toNat) hpos
  rw [pagesToBoundary, Nat.div_lt_iff_lt_mul s.bytes_pos, ← PageSize.larger?_bytes hl]
  omega

/-- The pages from the first larger page on, if there are as many as one makes. -/
theorem toNat_pagesFromAlign (hl : s.larger? = some larger) (hn : 512 ≤ r.numberOfPages.toNat) :
    (pagesFromAlign larger s r).toNat =
      r.numberOfPages.toNat - pagesToBoundary larger s r.pageStart := by
  have hlt := pagesToBoundary_lt hl r.pageStart
  have hmoved : ((alignUpValue r.pageStart larger.value - r.pageStart) / s.value).toNat =
      pagesToBoundary larger s r.pageStart := by
    rw [BitVec.toNat_udiv, toNat_alignUpValue_sub, PageSize.toNat_value, pagesToBoundary]
  rw [pagesFromAlign, BitVec.toNat_sub_of_le (by rw [BitVec.le_def, hmoved]; omega), hmoved]

/-- The tests of `initPMM` as one comparison. -/
theorem promotable_iff_le (hl : s.larger? = some larger) : Promotable larger s r ↔
    pagesToBoundary larger s r.pageStart + 512 ≤ r.numberOfPages.toNat := by
  rw [Promotable, BitVec.le_def, BitVec.le_def]
  change 512 ≤ _ ∧ 512 ≤ _ ↔ _
  constructor
  · rintro ⟨hn, hfrom⟩
    rw [toNat_pagesFromAlign hl hn] at hfrom
    omega
  · intro h
    have hn : 512 ≤ r.numberOfPages.toNat := (Nat.le_add_left _ _).trans h
    rw [toNat_pagesFromAlign hl hn]
    omega

/-- The tests find every region that contains a larger page. -/
theorem PagedMemory.HoldsLarger.promotable (hl : s.larger? = some larger)
    (h : r.HoldsLarger larger s) : Promotable larger s r := by
  obtain ⟨a, hdvd, hge, hle⟩ := h
  have hfirst : roundUp r.pageStart.toNat larger.bytes ≤ a := roundUp_le hdvd hge
  have hdiv := Nat.div_mul_le_self (roundUp r.pageStart.toNat larger.bytes - r.pageStart.toNat)
    s.bytes
  rw [promotable_iff_le hl]
  refine Nat.le_of_mul_le_mul_right ?_ s.bytes_pos
  rw [pagesToBoundary, Nat.add_mul, ← PageSize.larger?_bytes hl]
  omega

/-- Where the first larger page of a region starts, if that is below the end of the region. -/
theorem PagedMemory.Whole.boundary (h : r.Whole s) (hl : s.larger? = some larger)
    (hn : 512 ≤ r.numberOfPages.toNat) :
    (alignUpValue r.pageStart larger.value).toNat = roundUp r.pageStart.toNat larger.bytes ∧
      roundUp r.pageStart.toNat larger.bytes =
        r.pageStart.toNat + pagesToBoundary larger s r.pageStart * s.bytes := by
  have hbytes := PageSize.larger?_bytes hl
  have hlpos := larger.bytes_pos
  have hb := PagedMemory.bounded_iff.mp h.bounded
  have hroom : 512 * s.bytes ≤ r.numberOfPages.toNat * s.bytes := Nat.mul_le_mul_right _ hn
  have hle := le_roundUp (x := r.pageStart.toNat) hlpos
  have hdvd : s.bytes ∣ roundUp r.pageStart.toNat larger.bytes - r.pageStart.toNat :=
    Nat.dvd_sub ((PageSize.bytes_dvd_larger hl).trans dvd_roundUp) h.aligned
  constructor
  · rw [toNat_alignUpValue larger.isTwoPow_value, PageSize.toNat_value]
    change r.pageStart.toNat + (larger.bytes - 1) < 2 ^ 64
    omega
  · rw [pagesToBoundary, Nat.div_mul_cancel hdvd, Nat.add_sub_cancel' hle]

/-- Of the regions that start at a whole page, the tests find no others. -/
theorem promotable_iff (hl : s.larger? = some larger) (h : r.Whole s) :
    Promotable larger s r ↔ r.HoldsLarger larger s := by
  refine ⟨fun hp => ?_, PagedMemory.HoldsLarger.promotable hl⟩
  obtain ⟨-, hround⟩ := h.boundary hl hp.1
  rw [promotable_iff_le hl] at hp
  refine ⟨_, dvd_roundUp, le_roundUp larger.bytes_pos, ?_⟩
  have hmul := Nat.mul_le_mul_right s.bytes hp
  rw [Nat.add_mul, ← PageSize.larger?_bytes hl] at hmul
  omega

/-! ## Regions without a larger page -/

/-- Less than 512 pages hold no larger page. -/
theorem not_promotable_of_lt (h : r.numberOfPages.toNat < 512) : ¬ Promotable larger s r :=
  fun hp => absurd (BitVec.le_def.mp hp.1) (not_le.mpr h)

/-- Some pages further on, the first larger page is at most so many pages nearer. -/
theorem pagesToBoundary_le_add (larger s : PageSize) (start n : U64) :
    pagesToBoundary larger s start ≤ n.toNat + pagesToBoundary larger s (start + n * s.value) := by
  have hspos := s.bytes_pos
  have hstart := start.isLt
  have hbehind := le_roundUp (x := (start + n * s.value).toNat) larger.bytes_pos
  -- The address wraps `k` times at most, and the top is itself a multiple.
  obtain ⟨k, hk⟩ :
      ∃ k, start.toNat + n.toNat * s.bytes = (start + n * s.value).toNat + 2 ^ 64 * k := by
    refine ⟨(start.toNat + n.toNat * s.bytes) / 2 ^ 64, ?_⟩
    have hsum : (start + n * s.value).toNat = (start.toNat + n.toNat * s.bytes) % 2 ^ 64 := by
      rw [BitVec.toNat_add, BitVec.toNat_mul, PageSize.toNat_value, Nat.add_mod_mod]
    rw [hsum, Nat.mod_add_div]
  have hdvd : larger.bytes ∣ roundUp (start + n * s.value).toNat larger.bytes + 2 ^ 64 * k :=
    Nat.dvd_add dvd_roundUp ((larger_bytes_dvd_top larger).mul_right k)
  have hfirst : roundUp start.toNat larger.bytes ≤
      roundUp (start + n * s.value).toNat larger.bytes + 2 ^ 64 * k :=
    roundUp_le hdvd (by omega)
  calc pagesToBoundary larger s start
      ≤ (n.toNat * s.bytes + (roundUp (start + n * s.value).toNat larger.bytes -
          (start + n * s.value).toNat)) / s.bytes := Nat.div_le_div_right (by omega)
    _ = n.toNat + pagesToBoundary larger s (start + n * s.value) := by
        rw [Nat.mul_comm, Nat.mul_add_div hspos, pagesToBoundary]

/-- Without its first pages, a region holds no larger page that it did not hold before. -/
theorem Promotable.of_drop (hl : s.larger? = some larger) (hn : n ≤ r.numberOfPages)
    (hp : Promotable larger s (r.drop s n)) : Promotable larger s r := by
  have hle := pagesToBoundary_le_add larger s r.pageStart n
  have hpages := BitVec.le_def.mp hn
  rw [promotable_iff_le hl, PagedMemory.drop, BitVec.toNat_sub_of_le hn] at hp
  rw [promotable_iff_le hl]
  dsimp only at hp
  omega

/-- Before its first larger page, a region holds none. -/
theorem not_promotable_kept (hl : s.larger? = some larger) (hp : Promotable larger s r) :
    ¬ Promotable larger s (r.drop s (pagesFromAlign larger s r)) := by
  have hlt := pagesToBoundary_lt hl r.pageStart
  have hpages := toNat_pagesFromAlign hl hp.1
  have hle : pagesFromAlign larger s r ≤ r.numberOfPages := by
    rw [BitVec.le_def, hpages]
    exact Nat.sub_le _ _
  have hn : 512 ≤ r.numberOfPages.toNat := hp.1
  refine not_promotable_of_lt ?_
  rw [PagedMemory.drop, BitVec.toNat_sub_of_le hle, hpages]
  omega

/-- What is left over when pages are put together to larger ones. -/
theorem toNat_leftover_lt (n : U64) : (n - alignDownValue n 512).toNat < 512 := by
  obtain ⟨-, hle⟩ := toNat_alignDownValue_512 n
  have hdown : (alignDownValue n 512).toNat = n.toNat / 512 * 512 :=
    toNat_alignDownValue (k := 9) rfl
  rw [BitVec.toNat_sub_of_le (BitVec.le_def.mpr hle)]
  omega

/-- What is left of stolen pages, also where the request is so large that none are stolen. -/
theorem toNat_restOfSteal_lt (n : U64) :
    (toSmallerPages (ceilingDivValue n 512) - n).toNat < 512 := by
  have hn := n.isLt
  have h512 : IsTwoPow (512 : U64) 9 := rfl
  have hsub : (toSmallerPages (ceilingDivValue n 512) - n).toNat =
      (2 ^ 64 - n.toNat + (ceilingDivValue n 512).toNat * 512 % 2 ^ 64) % 2 ^ 64 := by
    rw [BitVec.toNat_sub, toSmallerPages, BitVec.toNat_mul]
    rfl
  by_cases hv : n.toNat + 2 ^ 9 ≤ 2 ^ 64
  · rw [hsub, toNat_ceilingDivValue h512 hv]
    omega
  · rw [hsub, toNat_ceilingDivValue_wrap h512 (not_le.mp hv)]
    omega

end Region

end Homegrown.Memory
