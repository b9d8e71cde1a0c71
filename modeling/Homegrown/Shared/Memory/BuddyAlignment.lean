import Homegrown.Shared.Memory.BuddySweep

/-!
# Merges of buddies

Two blocks of one size are buddies when the pair starts at a multiple of its size. Where only
buddies are merged, every block starts at a multiple of its size, and a sweep of
`coalesceBuddies` over free blocks that finds no pair has found a single block.
-/

namespace Homegrown

/-- The blocks start at multiples of their sizes, the first one at a place. -/
def AlignedFrom (p : Nat) : List BuddyBlock → Prop
  | [] => True
  | b :: blocks => b.size.toNat ∣ p ∧ AlignedFrom (p + b.size.toNat) blocks

/-- The pairs that were merged are buddies. -/
def BuddySweep.MergesBuddies (s : BuddySweep) : Prop := ∀ g ∈ s.merges, g.size ∣ g.start

/-- `coalesceBuddies` merges buddies only. -/
def CoalescesBuddies (blocks : List BuddyBlock) : Prop :=
  ∀ s ∈ coalesceSweeps (blocks.length + 1) blocks, s.MergesBuddies

/-- Where all blocks are free, the last sweep of `coalesceBuddies` merges no pair but one that
starts at the head. -/
def CoalescesAll (blocks : List BuddyBlock) : Prop :=
  (∀ b ∈ blocks, b.isFree = true) → ∀ g ∈ (lastSweep blocks).merges, g.start = 0

instance (s : BuddySweep) : Decidable s.MergesBuddies :=
  inferInstanceAs (Decidable (∀ g ∈ s.merges, g.size ∣ g.start))

instance (blocks : List BuddyBlock) : Decidable (CoalescesBuddies blocks) :=
  inferInstanceAs (Decidable (∀ s ∈ coalesceSweeps (blocks.length + 1) blocks, s.MergesBuddies))

instance (blocks : List BuddyBlock) : Decidable (CoalescesAll blocks) :=
  inferInstanceAs (Decidable ((∀ b ∈ blocks, b.isFree = true) →
    ∀ g ∈ (lastSweep blocks).merges, g.start = 0))

/-! ## Places of blocks -/

section Aligned

variable {p : Nat} {pre post xs ys blocks blocks' : List BuddyBlock} {b c : BuddyBlock}
  {size : U64} {isFree : Bool}

theorem alignedFrom_append : AlignedFrom p (xs ++ ys) ↔
    AlignedFrom p xs ∧ AlignedFrom (p + extent BuddyBlock.size xs) ys := by
  induction xs generalizing p with
  | nil => simp [AlignedFrom]
  | cons x xs ih =>
    rw [List.cons_append, AlignedFrom, ih, AlignedFrom, extent_cons, Nat.add_assoc, and_assoc]

/-- A block starts at a multiple of its size. -/
theorem AlignedFrom.dvd (h : AlignedFrom 0 (pre ++ b :: post)) :
    b.size.toNat ∣ extent BuddyBlock.size pre := by
  have hb := (alignedFrom_append.mp h).2.1
  rwa [Nat.zero_add] at hb

/-- Whether a block is free does not matter. -/
theorem alignedFrom_mark :
    AlignedFrom p (pre ++ ⟨b.size, isFree⟩ :: post) ↔ AlignedFrom p (pre ++ b :: post) := by
  rw [alignedFrom_append, alignedFrom_append, AlignedFrom, AlignedFrom]

/-- Buddies are merged. -/
theorem AlignedFrom.merge (h : AlignedFrom 0 (pre ++ b :: c :: post)) (hsize : b.size = c.size)
    (hdouble : (b.size <<< 1).toNat = 2 * b.size.toNat)
    (hbuddies : 2 * b.size.toNat ∣ extent BuddyBlock.size pre) :
    AlignedFrom 0 (pre ++ ⟨b.size <<< 1, isFree⟩ :: post) := by
  obtain ⟨hpre, -, -, hpost⟩ := alignedFrom_append.mp h
  refine alignedFrom_append.mpr ⟨hpre, ?_, ?_⟩
  · rw [hdouble, Nat.zero_add]
    exact hbuddies
  · rw [← hsize, Nat.add_assoc, ← Nat.two_mul] at hpost
    rwa [hdouble]

/-- A block is split into buddies. -/
theorem AlignedFrom.split (h : AlignedFrom 0 (pre ++ ⟨size, isFree⟩ :: post))
    (hhalf : 2 * (size >>> 1).toNat = size.toNat) :
    AlignedFrom 0 (pre ++ ⟨size >>> 1, isFree⟩ :: ⟨size >>> 1, isFree⟩ :: post) := by
  obtain ⟨hpre, hsize, hpost⟩ := alignedFrom_append.mp h
  dsimp only at hsize hpost
  have hdvd : (size >>> 1).toNat ∣ 0 + extent BuddyBlock.size pre :=
    (Dvd.intro_left 2 hhalf).trans hsize
  refine alignedFrom_append.mpr ⟨hpre, hdvd, Nat.dvd_add hdvd (Nat.dvd_refl _), ?_⟩
  dsimp only
  rwa [Nat.add_assoc, ← Nat.two_mul, hhalf]

/-- The blocks are in use as they were, and start at multiples of their sizes. -/
structure AlignedUse (blocks blocks' : List BuddyBlock) : Prop where
  same : SameUse blocks blocks'
  aligned : AlignedFrom 0 blocks'

theorem AlignedUse.split (h : AlignedUse blocks (pre ++ ⟨size, true⟩ :: post))
    (hlt : 16 < size.toNat) :
    AlignedUse blocks (pre ++ ⟨size >>> 1, true⟩ :: ⟨size >>> 1, true⟩ :: post) := by
  have hhalf := ((h.same.sizes.valid ⟨size, true⟩ (by simp)).half true hlt).1
  exact ⟨h.same.split hlt, h.aligned.split hhalf⟩

/-- Merges keep the places of the blocks as long as they are merges of buddies. -/
theorem AlignedUse.keptByMerge : KeptByMerge fun blocks' merges =>
    SameUse blocks blocks' ∧ ((∀ g ∈ merges, g.size ∣ g.start) → AlignedFrom 0 blocks') := by
  rintro pre b c post merges hb hc hsize ⟨hsame, haligned⟩
  have hdouble := (hsame.sizes.merge hsize true).1
  refine ⟨@SameUse.keptByMerge _ _ _ _ _ merges hb hc hsize hsame, fun hmerges => ?_⟩
  have hbefore := haligned fun g hg => hmerges g (List.mem_append_left _ hg)
  exact hbefore.merge hsize hdouble (hmerges _ (List.mem_append_right _ List.mem_cons_self))

theorem AlignedUse.findBlocks (h : AlignedUse blocks blocks')
    (hmerges : (findBlocks size blocks').1.MergesBuddies) :
    AlignedUse blocks (findBlocks size blocks').1.blocks := by
  obtain ⟨hsame, haligned⟩ :=
    findBlocks_induction AlignedUse.keptByMerge size ⟨h.same, fun _ => h.aligned⟩
  exact ⟨hsame, haligned hmerges⟩

theorem AlignedUse.coalesceBlocks (h : AlignedUse blocks blocks')
    (hmerges : (coalesceBlocks .empty blocks').MergesBuddies) :
    AlignedUse blocks (coalesceBlocks .empty blocks').blocks := by
  obtain ⟨hsame, haligned⟩ :=
    coalesceBlocks_induction AlignedUse.keptByMerge (s := .empty) ⟨h.same, fun _ => h.aligned⟩
  exact ⟨hsame, haligned hmerges⟩

theorem AlignedUse.lastSweep (h : AlignedUse blocks blocks') (hmerges : CoalescesBuddies blocks') :
    AlignedUse blocks (lastSweep blocks').blocks :=
  lastSweep_induction (fun _ hbuddies hs => hs.coalesceBlocks hbuddies) hmerges h

end Aligned

/-! ## A single free block -/

/-- Of two powers of two, twice the smaller one divides the other. -/
theorem two_mul_dvd_of_lt {x y : U64} {j l : Nat} (hx : IsTwoPow x j) (hy : IsTwoPow y l)
    (hlt : x < y) : 2 * x.toNat ∣ y.toNat := by
  rw [BitVec.lt_def, hx, hy, Nat.pow_lt_pow_iff_right (by decide)] at hlt
  rw [hx, hy, ← Nat.pow_succ']
  exact Nat.pow_dvd_pow 2 hlt

/-- A power of two at a multiple of twice itself that ends at a power of two is at zero. -/
theorem eq_zero_of_two_mul_dvd {x : U64} {p j k : Nat} (hx : IsTwoPow x j)
    (hleft : 2 * x.toNat ∣ p) (hend : p + x.toNat = 2 ^ k) : p = 0 := by
  rw [hx] at hleft hend
  rcases Nat.lt_or_ge j k with hlt | hle
  · have hdvd : 2 * 2 ^ j ∣ p + 2 ^ j := by
      rw [hend, ← Nat.pow_succ']
      exact Nat.pow_dvd_pow 2 hlt
    have hself := Nat.le_of_dvd (Nat.two_pow_pos j) ((Nat.dvd_add_right hleft).mp hdvd)
    have hpos := Nat.two_pow_pos j
    omega
  · have hpow := Nat.pow_le_pow_right (show 0 < 2 by decide) hle
    omega

section Single

variable {p k : Nat} {s : BuddySweep} {pre post xs ys rest blocks blocks' : List BuddyBlock}
  {b c : BuddyBlock}

theorem usedSpans_eq_nil_iff : usedSpans p blocks = [] ↔ ∀ b ∈ blocks, b.isFree = true := by
  induction blocks generalizing p with
  | nil => simp [usedSpans]
  | cons b blocks ih =>
    rw [usedSpans, List.append_eq_nil_iff, ih]
    cases hb : b.isFree <;> simp [hb]

/-- Where all blocks are free, they stay free as long as none is put to use. -/
theorem SameUse.all_free (h : SameUse blocks blocks') (hfree : ∀ b ∈ blocks, b.isFree = true) :
    ∀ b ∈ blocks', b.isFree = true := by
  have hused := h.used 0
  rw [usedSpans_eq_nil_iff.mpr hfree] at hused
  exact usedSpans_eq_nil_iff.mp hused

/-- Merges stay merges. -/
theorem coalesceBlocks_merges_ne_nil (h : s.merges ≠ []) : (coalesceBlocks s rest).merges ≠ [] := by
  apply coalesceBlocks_induction (P := fun _ merges => merges ≠ []) _ h
  intro pre b c post merges _ _ _ _
  exact List.append_ne_nil_of_right_ne_nil _ (List.cons_ne_nil _ _)

/-- A sweep over free blocks that merges nothing, from a block on that could be a left buddy,
goes over this block only. -/
theorem coalesceBlocks_single (hfree : ∀ x ∈ b :: rest, x.isFree = true)
    (hvalid : ∀ x ∈ b :: rest, x.Valid) (haligned : AlignedFrom p (b :: rest))
    (hleft : 2 * b.size.toNat ∣ p) (hend : p + extent BuddyBlock.size (b :: rest) = 2 ^ k)
    (hmerges : (coalesceBlocks s (b :: rest)).merges = []) : p = 0 ∧ rest = [] := by
  obtain ⟨j, -, hb⟩ := hvalid b List.mem_cons_self
  induction rest generalizing s p b j with
  | nil =>
    rw [extent_cons, extent_nil, Nat.add_zero] at hend
    exact ⟨eq_zero_of_two_mul_dvd hb hleft hend, rfl⟩
  | cons c rest ih =>
    obtain ⟨l, -, hc⟩ := hvalid c (by simp)
    obtain ⟨-, hdvd, hrest⟩ := haligned
    have hpos := Nat.two_pow_pos j
    rw [← hb] at hpos
    rw [coalesceBlocks] at hmerges
    -- The next block is not larger, as the first one could be a left buddy.
    have hlt : ¬ b.size < c.size := by
      intro hlt
      have hright := (two_mul_dvd_of_lt hb hc hlt).trans hdvd
      have hself := Nat.le_of_dvd hpos ((Nat.dvd_add_right hleft).mp hright)
      omega
    rw [if_neg hlt] at hmerges
    by_cases hgt : c.size < b.size
    · rw [if_pos hgt] at hmerges
      have hdouble := two_mul_dvd_of_lt hc hb hgt
      have hleft' : 2 * c.size.toNat ∣ p + b.size.toNat :=
        Nat.dvd_add ((hdouble.trans (Dvd.intro_left 2 rfl)).trans hleft) hdouble
      obtain ⟨hzero, -⟩ := ih (fun x hx => hfree x (List.mem_cons_of_mem _ hx))
        (fun x hx => hvalid x (List.mem_cons_of_mem _ hx)) ⟨hdvd, hrest⟩ hleft'
        (by rw [← hend, extent_cons, extent_cons, extent_cons, Nat.add_assoc]) hmerges l hc
      omega
    · rw [if_neg hgt, if_pos ⟨hfree b (by simp), hfree c (by simp)⟩] at hmerges
      refine absurd hmerges (coalesceBlocks_merges_ne_nil ?_)
      exact List.append_ne_nil_of_right_ne_nil _ (List.cons_ne_nil _ _)

/-- No block ends within a pair that was merged. -/
theorem merges_keptByMerge : KeptByMerge fun blocks merges => BuddySizes blocks ∧
    ∀ g ∈ merges, ∀ xs ys, blocks = xs ++ ys →
      extent BuddyBlock.size xs ≤ g.start ∨ g.stop ≤ extent BuddyBlock.size xs := by
  rintro pre b c post merges hb hc hsize ⟨hsizes, hcuts⟩
  obtain ⟨hdouble, -, hsizes'⟩ := hsizes.merge hsize true
  refine ⟨hsizes', fun g hg xs ys hcut => ?_⟩
  -- Where the new blocks are cut, the old ones can be cut as well.
  have hold : (∃ ys', pre ++ b :: c :: post = xs ++ ys' ∧
      extent BuddyBlock.size xs ≤ extent BuddyBlock.size pre) ∨
      ∃ zs ys', pre ++ b :: c :: post = zs ++ ys' ∧
        extent BuddyBlock.size zs = extent BuddyBlock.size xs ∧
          extent BuddyBlock.size pre + 2 * b.size.toNat ≤ extent BuddyBlock.size xs := by
    rcases List.append_eq_append_iff.mp hcut with ⟨mid, rfl, hmid⟩ | ⟨mid, rfl, rfl⟩
    · cases mid with
      | nil =>
        left
        exact ⟨b :: c :: post, by simp, by simp⟩
      | cons x mid =>
        obtain ⟨rfl, rfl⟩ := List.cons_eq_cons.mp hmid
        right
        refine ⟨pre ++ b :: c :: mid, ys, by simp, ?_, ?_⟩
        · simp only [extent_append, extent_cons, ← hsize, hdouble]
          omega
        · simp only [extent_append, extent_cons, hdouble]
          omega
    · left
      exact ⟨mid ++ b :: c :: post, by simp, by simp⟩
  rcases List.mem_append.mp hg with hg | hg
  · rcases hold with ⟨ys', hcut', -⟩ | ⟨zs, ys', hcut', hzs, -⟩
    · exact hcuts g hg xs ys' hcut'
    · rw [← hzs]
      exact hcuts g hg zs ys' hcut'
  · rw [List.mem_singleton.mp hg]
    rcases hold with ⟨-, -, hle⟩ | ⟨-, -, -, -, hle⟩
    · exact Or.inl hle
    · exact Or.inr hle

/-- Where all blocks are free and only buddies are merged, a single block is left. -/
theorem lastSweep_single (hsizes : BuddySizes blocks) (haligned : AlignedFrom 0 blocks)
    (hfree : ∀ b ∈ blocks, b.isFree = true) (hend : extent BuddyBlock.size blocks = 2 ^ k)
    (hbuddies : CoalescesBuddies blocks) (hall : CoalescesAll blocks) :
    ∃ b, (lastSweep blocks).blocks = [b] := by
  obtain ⟨last, hlast, -, heq, hmerges⟩ := lastSweep_cases
    (fun _ hbuddies hs => AlignedUse.coalesceBlocks hs hbuddies) hbuddies
    ⟨SameUse.refl hsizes, haligned⟩
  have hstart := hall hfree
  rw [heq] at hstart ⊢
  have hbytes := hlast.same.bytes.trans hend
  have hpos := Nat.two_pow_pos k
  by_cases hnone : (coalesceBlocks .empty last).merges = []
  · cases last with
    | nil =>
      rw [extent_nil] at hbytes
      omega
    | cons b rest =>
      obtain ⟨-, rfl⟩ := coalesceBlocks_single (hlast.same.all_free hfree) hlast.same.sizes.valid
        hlast.aligned (Nat.dvd_zero _) (by rw [Nat.zero_add, hbytes]) hnone
      exact ⟨b, rfl⟩
  · -- The pair that was merged is the whole region, and no block ends within it.
    obtain ⟨g, rest, hg⟩ := List.exists_cons_of_ne_nil hnone
    have hmem : g ∈ (coalesceBlocks .empty last).merges := by simp [hg]
    have hwhole := hmerges g hmem
    obtain ⟨hsizes', hcuts⟩ := @coalesceBlocks_induction _ .empty last merges_keptByMerge
      ⟨hlast.same.sizes, by simp [BuddySweep.empty]⟩
    have hbytes' := (coalesceBlocks_sameUse hlast.same.sizes).bytes
    cases hblocks : (coalesceBlocks .empty last).blocks with
    | nil =>
      rw [hblocks, extent_nil] at hbytes'
      omega
    | cons b rest =>
      rw [hblocks] at hsizes' hbytes'
      have hb := (hsizes'.valid b List.mem_cons_self).le_size
      have hcut := hcuts g hmem [b] rest hblocks
      rw [hstart g hmem, extent_cons, extent_nil] at hcut
      rw [extent_cons] at hbytes'
      cases rest with
      | nil => exact ⟨b, rfl⟩
      | cons c rest =>
        have hc := (hsizes'.valid c (by simp)).le_size
        rw [extent_cons] at hbytes'
        omega

end Single

end Homegrown
