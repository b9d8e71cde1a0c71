import Homegrown.Shared.Memory.BuddyTiles

/-!
# The sweeps of the buddy allocator

What the loops of `findBestBuddy` and `coalesceBuddies` do to the list of blocks. Both go over
the blocks once and merge pairs, and the rules `searchBlocks_induction` and
`coalesceBlocks_induction` say that a property which every merge keeps holds at the end.
-/

namespace Homegrown

/-- The blocks that a sweep leaves, and what the pairs it merged became. -/
structure BuddySweep where
  blocks : List BuddyBlock
  merges : List Span
  deriving DecidableEq, Repr

namespace BuddySweep

/-- Blocks are passed. -/
def add (s : BuddySweep) (blocks : List BuddyBlock) : BuddySweep := ⟨s.blocks ++ blocks, s.merges⟩

/-- A block is merged with the next one. -/
def merge (s : BuddySweep) (b : BuddyBlock) : BuddySweep :=
  ⟨s.blocks ++ [⟨b.size <<< 1, true⟩],
    s.merges ++ [⟨extent BuddyBlock.size s.blocks, 2 * b.size.toNat⟩]⟩

/-- The sweep has not begun. -/
def empty : BuddySweep := ⟨[], []⟩

end BuddySweep

/-- `bestBlock->size`. -/
def sizeAt (blocks : List BuddyBlock) (i : Nat) : U64 := ((blocks[i]?).map BuddyBlock.size).getD 0

/-- `bestBlock` after a look at the block with a number. -/
def betterAt (size : U64) (blocks : List BuddyBlock) (b : BuddyBlock) (i : Nat)
    (best : Option Nat) : Option Nat :=
  if b.isFree ∧ size ≤ b.size ∧ ∀ j ∈ best, b.size < sizeAt blocks j then some i else best

/-- `bestBlock` after a pair was merged to the block with a number. -/
def betterMergedAt (size : U64) (blocks : List BuddyBlock) (b : BuddyBlock) (i : Nat)
    (best : Option Nat) : Option Nat :=
  if size ≤ b.size ∧ ∀ j ∈ best, b.size ≤ sizeAt blocks j then some i else best

/-- The loop of `findBestBuddy` on blocks; `bestBlock` is the number of a block. -/
def searchBlocks (size : U64) (s : BuddySweep) (best : Option Nat) :
    List BuddyBlock → BuddySweep × Option Nat
  | b :: c :: rest =>
    let i := s.blocks.length
    if b.isFree ∧ c.isFree ∧ b.size = c.size then
      let s := s.merge b
      searchBlocks size s (betterMergedAt size s.blocks ⟨b.size <<< 1, true⟩ i best) rest
    else
      let blocks := s.blocks ++ [b, c]
      let best := betterAt size blocks c (i + 1) (betterAt size blocks b i best)
      if b.size < c.size then searchBlocks size (s.add [b, c]) best rest
      else searchBlocks size (s.add [b]) best (c :: rest)
  | rest => (s.add rest, best)

/-- `findBestBuddy` on blocks, up to the call of `splitBuddy`. -/
def findBlocks (size : U64) (blocks : List BuddyBlock) : BuddySweep × Option Nat :=
  match blocks with
  | [⟨whole, true⟩] => (⟨[⟨whole, true⟩], []⟩, some 0)
  | blocks => searchBlocks size .empty none blocks

/-- The blocks in front of the last one when a block is split some times. -/
def halves (size : U64) (n : Nat) : List BuddyBlock :=
  (List.range n).map fun i => ⟨size >>> (i + 1), true⟩

/-- The inner loop of `coalesceBuddies` on blocks. -/
def coalesceBlocks (s : BuddySweep) : List BuddyBlock → BuddySweep
  | b :: c :: rest =>
    if b.size < c.size then coalesceBlocks (s.add [b, c]) rest
    else if c.size < b.size then coalesceBlocks (s.add [b]) (c :: rest)
    else if b.isFree ∧ c.isFree then coalesceBlocks (s.merge b) rest
    else coalesceBlocks (s.add [b, c]) rest
  | rest => s.add rest

/-- The sweeps of `coalesceBuddies`: one more while a pair was merged that does not end the
region. -/
def coalesceSweeps : Nat → List BuddyBlock → List BuddySweep
  | 0, _ => []
  | rounds + 1, blocks =>
    let s := coalesceBlocks .empty blocks
    if ∃ g ∈ s.merges, g.stop < extent BuddyBlock.size blocks then
      s :: coalesceSweeps rounds s.blocks
    else [s]

/-- The last of the sweeps of `coalesceBuddies`. -/
def lastSweep (blocks : List BuddyBlock) : BuddySweep :=
  (coalesceSweeps (blocks.length + 1) blocks).getLastD .empty

/-! ## Rules -/

/-- The property stays when two free blocks of one size are merged. -/
def KeptByMerge (P : List BuddyBlock → List Span → Prop) : Prop :=
  ∀ ⦃pre b c post merges⦄, b.isFree = true → c.isFree = true → b.size = c.size →
    P (pre ++ b :: c :: post) merges →
      P (pre ++ ⟨b.size <<< 1, true⟩ :: post)
        (merges ++ [⟨extent BuddyBlock.size pre, 2 * b.size.toNat⟩])

section Rules

variable {P : List BuddyBlock → List Span → Prop} {s : BuddySweep} {b c : BuddyBlock}
  {rest : List BuddyBlock}

/-- What merging keeps holds when blocks are passed over. -/
theorem KeptByMerge.add {blocks : List BuddyBlock}
    (h : P (s.blocks ++ (blocks ++ rest)) s.merges) :
    P ((s.add blocks).blocks ++ rest) (s.add blocks).merges := by
  rw [BuddySweep.add, List.append_assoc]
  exact h

/-- And when two are merged. -/
theorem KeptByMerge.merge (hP : KeptByMerge P) (hb : b.isFree = true) (hc : c.isFree = true)
    (hsize : b.size = c.size) (h : P (s.blocks ++ b :: c :: rest) s.merges) :
    P ((s.merge b).blocks ++ rest) (s.merge b).merges := by
  have hnext := hP hb hc hsize h
  rw [List.append_cons] at hnext
  exact hnext

/-- What every merge keeps, the search keeps. -/
theorem searchBlocks_induction (hP : KeptByMerge P) {size : U64} {best : Option Nat}
    (h : P (s.blocks ++ rest) s.merges) :
    P (searchBlocks size s best rest).1.blocks (searchBlocks size s best rest).1.merges := by
  fun_induction searchBlocks size s best rest with
  | case1 s best b c rest i hpair s' ih => exact ih (hP.merge hpair.1 hpair.2.1 hpair.2.2 h)
  | case2 s best b c rest i hpair blocks best' hlt ih => exact ih (KeptByMerge.add h)
  | case3 s best b c rest i hpair blocks best' hlt ih => exact ih (KeptByMerge.add h)
  | case4 s best rest hrest => exact h

/-- So it holds of the blocks that a search leaves. -/
theorem findBlocks_induction (hP : KeptByMerge P) (size : U64) {blocks : List BuddyBlock}
    (h : P blocks []) : P (findBlocks size blocks).1.blocks (findBlocks size blocks).1.merges := by
  unfold findBlocks
  split
  · exact h
  · exact searchBlocks_induction (s := .empty) hP h

/-- What every merge keeps, a sweep of the coalescing keeps. -/
theorem coalesceBlocks_induction (hP : KeptByMerge P) (h : P (s.blocks ++ rest) s.merges) :
    P (coalesceBlocks s rest).blocks (coalesceBlocks s rest).merges := by
  fun_induction coalesceBlocks s rest with
  | case1 s b c rest hlt ih => exact ih (KeptByMerge.add h)
  | case2 s b c rest hlt hgt ih => exact ih (KeptByMerge.add h)
  | case3 s b c rest hlt hgt hfree ih =>
    rw [BitVec.lt_def] at hlt hgt
    exact ih (hP.merge hfree.1 hfree.2 (BitVec.eq_of_toNat_eq (by omega)) h)
  | case4 s b c rest hlt hgt hfree ih => exact ih (KeptByMerge.add h)
  | case5 s rest hrest => exact h

end Rules

/-! ## Blocks in use -/

/-- The blocks in use, behind a place. -/
def usedSpans (p : Nat) : List BuddyBlock → List Span
  | [] => []
  | b :: blocks =>
    (if b.isFree then [] else [⟨p, b.size.toNat⟩]) ++ usedSpans (p + b.size.toNat) blocks

/-- Blocks of valid sizes that fit into memory. -/
structure BuddySizes (blocks : List BuddyBlock) : Prop where
  valid : ∀ b ∈ blocks, b.Valid
  fits : extent BuddyBlock.size blocks < 2 ^ 64

section Used

variable {p : Nat} {pre post blocks xs ys : List BuddyBlock} {b c : BuddyBlock}
  {m : U64 → U8} {head tail : U64}

/-- Tiles have block sizes. -/
theorem BuddyTiles.sizes (h : BuddyTiles m head tail blocks) : BuddySizes blocks :=
  ⟨h.valid, by
    have hfits := h.fits
    omega⟩

theorem usedSpans_append :
    usedSpans p (xs ++ ys) = usedSpans p xs ++ usedSpans (p + extent BuddyBlock.size xs) ys := by
  induction xs generalizing p with
  | nil => rfl
  | cons x xs ih =>
    rw [List.cons_append, usedSpans, ih, usedSpans, extent_cons, List.append_assoc, Nat.add_assoc]

/-- A block in use, with the blocks around it. -/
theorem mem_usedSpans {u : Span} : u ∈ usedSpans p blocks ↔ ∃ pre b post,
    blocks = pre ++ b :: post ∧ b.isFree = false ∧
      u = ⟨p + extent BuddyBlock.size pre, b.size.toNat⟩ := by
  induction blocks generalizing p with
  | nil => simp [usedSpans]
  | cons b blocks ih =>
    rw [usedSpans, List.mem_append, ih]
    constructor
    · rintro (hu | ⟨pre, c, post, rfl, hc, rfl⟩)
      · split at hu
        · cases hu
        · rename_i hfree
          exact ⟨[], b, blocks, rfl, by simpa using hfree, List.mem_singleton.mp hu⟩
      · refine ⟨b :: pre, c, post, rfl, hc, ?_⟩
        rw [extent_cons, Nat.add_assoc]
    · rintro ⟨pre, c, post, hblocks, hc, rfl⟩
      cases pre with
      | nil =>
        obtain ⟨rfl, rfl⟩ := List.cons_eq_cons.mp hblocks
        left
        simp [hc]
      | cons b' pre =>
        obtain ⟨rfl, rfl⟩ := List.cons_eq_cons.mp hblocks
        refine Or.inr ⟨pre, c, post, rfl, hc, ?_⟩
        rw [extent_cons, Nat.add_assoc]

/-- A merged pair has the bytes of its two blocks. -/
theorem BuddySizes.merge (h : BuddySizes (pre ++ b :: c :: post)) (hsize : b.size = c.size)
    (isFree : Bool) : (b.size <<< 1).toNat = 2 * b.size.toNat ∧
      extent BuddyBlock.size (pre ++ ⟨b.size <<< 1, isFree⟩ :: post) =
        extent BuddyBlock.size (pre ++ b :: c :: post) ∧
      BuddySizes (pre ++ ⟨b.size <<< 1, isFree⟩ :: post) := by
  have hfits := h.fits
  simp only [extent_append, extent_cons, ← hsize] at hfits
  obtain ⟨hdouble, hvalid⟩ := (h.valid b (by simp)).double isFree (by omega)
  have hbytes : extent BuddyBlock.size (pre ++ ⟨b.size <<< 1, isFree⟩ :: post) =
      extent BuddyBlock.size (pre ++ b :: c :: post) := by
    simp only [extent_append, extent_cons, ← hsize, hdouble]
    omega
  refine ⟨hdouble, hbytes, fun x hx => ?_, hbytes ▸ h.fits⟩
  simp only [List.mem_append, List.mem_cons] at hx
  rcases hx with hx | rfl | hx
  · exact h.valid x (by simp [hx])
  · exact hvalid
  · exact h.valid x (by simp [hx])

/-- The same bytes in the same blocks in use. -/
structure SameUse (blocks blocks' : List BuddyBlock) : Prop where
  sizes : BuddySizes blocks'
  bytes : extent BuddyBlock.size blocks' = extent BuddyBlock.size blocks
  used : ∀ p, usedSpans p blocks' = usedSpans p blocks

theorem SameUse.refl (h : BuddySizes blocks) : SameUse blocks blocks := ⟨h, rfl, fun _ => rfl⟩

theorem SameUse.trans (h : SameUse blocks xs) (h' : SameUse xs ys) : SameUse blocks ys :=
  ⟨h'.sizes, h'.bytes.trans h.bytes, fun p => (h'.used p).trans (h.used p)⟩

/-- A merge of free blocks leaves the blocks in use. -/
theorem SameUse.keptByMerge : KeptByMerge fun blocks' _ => SameUse blocks blocks' := by
  intro pre b c post merges hb hc hsize h
  obtain ⟨hdouble, hbytes, hsizes⟩ := h.sizes.merge hsize true
  refine ⟨hsizes, hbytes.trans h.bytes, fun p => ?_⟩
  rw [← h.used p, usedSpans_append, usedSpans_append]
  simp only [usedSpans, hb, hc, ite_true, List.nil_append, hdouble, ← hsize, Nat.two_mul,
    Nat.add_assoc]

/-- A split of a free block leaves the blocks in use. -/
theorem SameUse.split {size : U64} (h : SameUse blocks (pre ++ ⟨size, true⟩ :: post))
    (hlt : 16 < size.toNat) :
    SameUse blocks (pre ++ ⟨size >>> 1, true⟩ :: ⟨size >>> 1, true⟩ :: post) := by
  obtain ⟨hhalf, hvalid⟩ := (h.sizes.valid ⟨size, true⟩ (by simp)).half true hlt
  dsimp only at hhalf hvalid
  have hbytes : extent BuddyBlock.size (pre ++ ⟨size >>> 1, true⟩ :: ⟨size >>> 1, true⟩ :: post) =
      extent BuddyBlock.size (pre ++ ⟨size, true⟩ :: post) := by
    simp only [extent_append, extent_cons]
    omega
  refine ⟨⟨fun x hx => ?_, hbytes ▸ h.sizes.fits⟩, hbytes.trans h.bytes, fun p => ?_⟩
  · simp only [List.mem_append, List.mem_cons] at hx
    rcases hx with hx | rfl | rfl | hx
    · exact h.sizes.valid x (by simp [hx])
    · exact hvalid
    · exact hvalid
    · exact h.sizes.valid x (by simp [hx])
  · rw [← h.used p, usedSpans_append, usedSpans_append]
    simp only [usedSpans, ite_true, List.nil_append, Nat.add_assoc]
    rw [← Nat.two_mul, hhalf]

@[simp] theorem halves_zero (size : U64) : halves size 0 = [] := rfl

theorem halves_succ (size : U64) (n : Nat) :
    halves size (n + 1) = halves size n ++ [⟨size >>> (n + 1), true⟩] := by
  rw [halves, List.range_succ, List.map_append, List.map_singleton, halves]

theorem shiftRight_succ (size : U64) (n : Nat) : size >>> n >>> 1 = size >>> (n + 1) := by
  apply BitVec.eq_of_toNat_eq
  rw [BitVec.toNat_ushiftRight, BitVec.toNat_ushiftRight, BitVec.toNat_ushiftRight,
    Nat.shiftRight_add]

theorem shiftRight_le (size : U64) (n : Nat) : (size >>> n).toNat ≤ size.toNat := by
  rw [BitVec.toNat_ushiftRight]
  exact Nat.shiftRight_le _ _

/-- What every split of a free block keeps, splitting a block some times keeps. -/
theorem halves_induction {P : List BuddyBlock → Prop} {size : U64} {n : Nat}
    (hP : ∀ pre half post, 16 < half.toNat → P (pre ++ ⟨half, true⟩ :: post) →
      P (pre ++ ⟨half >>> 1, true⟩ :: ⟨half >>> 1, true⟩ :: post))
    (hn : n = 0 ∨ 16 < (size >>> (n - 1)).toNat) (h : P (pre ++ ⟨size, true⟩ :: post)) :
    P (pre ++ (halves size n ++ ⟨size >>> n, true⟩ :: post)) := by
  induction n with
  | zero => simpa using h
  | succ n ih =>
    rw [Nat.add_sub_cancel, or_iff_right (Nat.succ_ne_zero n)] at hn
    have hprev : n = 0 ∨ 16 < (size >>> (n - 1)).toNat := by
      rcases n with _ | n
      · exact Or.inl rfl
      · right
        rw [← shiftRight_succ] at hn
        exact hn.trans_le (shiftRight_le _ _)
    have hsplit := hP (pre ++ halves size n) (size >>> n) post hn (by
      rw [List.append_assoc]
      exact ih hprev)
    rw [shiftRight_succ] at hsplit
    simpa [halves_succ] using hsplit

/-- A search changes no block in use. -/
theorem findBlocks_sameUse (h : BuddySizes blocks) (size : U64) :
    SameUse blocks (findBlocks size blocks).1.blocks :=
  findBlocks_induction SameUse.keptByMerge size (SameUse.refl h)

/-- Nor does a sweep. -/
theorem coalesceBlocks_sameUse (h : BuddySizes blocks) :
    SameUse blocks (coalesceBlocks .empty blocks).blocks :=
  coalesceBlocks_induction SameUse.keptByMerge (SameUse.refl h)

/-- Every merge makes one block less. -/
theorem length_coalesceBlocks (blocks : List BuddyBlock) :
    (coalesceBlocks .empty blocks).blocks.length + (coalesceBlocks .empty blocks).merges.length =
      blocks.length := by
  apply coalesceBlocks_induction (s := .empty)
    (P := fun blocks' merges => blocks'.length + merges.length = blocks.length)
  · intro pre b c post merges _ _ _ h
    simp only [List.length_append, List.length_cons, List.length_nil] at h ⊢
    omega
  · rfl

theorem coalesceSweeps_ne_nil {rounds : Nat} (hrounds : 0 < rounds) :
    coalesceSweeps rounds blocks ≠ [] := by
  obtain ⟨rounds, rfl⟩ : ∃ k, rounds = k + 1 := ⟨rounds - 1, by omega⟩
  rw [coalesceSweeps]
  split <;> exact List.cons_ne_nil _ _

/-- After a sweep that merged a pair which does not end the region, the others follow. -/
theorem coalesceSweeps_of_merge {rounds : Nat} (hrounds : 0 < rounds)
    (hmerge : ∃ g ∈ (coalesceBlocks .empty blocks).merges, g.stop < extent BuddyBlock.size blocks) :
    (coalesceSweeps (rounds + 1) blocks).getLastD .empty =
      (coalesceSweeps rounds (coalesceBlocks .empty blocks).blocks).getLastD .empty := by
  rw [coalesceSweeps, if_pos hmerge]
  obtain ⟨s, sweeps, hsweeps⟩ := List.exists_cons_of_ne_nil (coalesceSweeps_ne_nil hrounds)
  rw [hsweeps]
  rfl

/-- A sweep without a merge is the last one. -/
theorem coalesceSweeps_of_not_merge (rounds : Nat)
    (hmerge : ¬ ∃ g ∈ (coalesceBlocks .empty blocks).merges,
      g.stop < extent BuddyBlock.size blocks) :
    coalesceSweeps (rounds + 1) blocks = [coalesceBlocks .empty blocks] := by
  rw [coalesceSweeps, if_neg hmerge]

/-- What the sweeps of `coalesceBuddies` keep, holds before the last one, which merges no pair
but one that ends the region. -/
theorem lastSweep_cases {Q : List BuddyBlock → Prop} {G : BuddySweep → Prop}
    (hQ : ∀ blocks, G (coalesceBlocks .empty blocks) → Q blocks →
      Q (coalesceBlocks .empty blocks).blocks)
    (hG : ∀ s ∈ coalesceSweeps (blocks.length + 1) blocks, G s) (h : Q blocks) :
    ∃ last, Q last ∧ G (coalesceBlocks .empty last) ∧
      lastSweep blocks = coalesceBlocks .empty last ∧
      ∀ g ∈ (coalesceBlocks .empty last).merges, extent BuddyBlock.size last ≤ g.stop := by
  unfold lastSweep
  generalize hn : blocks.length + 1 = n at *
  replace hn : blocks.length < n := by omega
  induction n generalizing blocks with
  | zero => exact absurd hn (Nat.not_lt_zero _)
  | succ n ih =>
    by_cases hmerge : ∃ g ∈ (coalesceBlocks .empty blocks).merges,
        g.stop < extent BuddyBlock.size blocks
    · have hlength := length_coalesceBlocks blocks
      have hpos : 0 < (coalesceBlocks .empty blocks).merges.length := by
        obtain ⟨g, hg, -⟩ := hmerge
        exact List.length_pos_of_mem hg
      have hsweeps : coalesceSweeps (n + 1) blocks = coalesceBlocks .empty blocks ::
          coalesceSweeps n (coalesceBlocks .empty blocks).blocks := if_pos hmerge
      rw [hsweeps] at hG
      rw [coalesceSweeps_of_merge (by omega) hmerge]
      apply ih
      · exact hQ blocks (hG _ List.mem_cons_self) h
      · exact fun s hs => hG s (List.mem_cons_of_mem _ hs)
      · omega
    · rw [coalesceSweeps_of_not_merge n hmerge] at hG ⊢
      refine ⟨blocks, h, hG _ List.mem_cons_self, rfl, fun g hg => ?_⟩
      by_contra hlt
      exact hmerge ⟨g, hg, not_le.mp hlt⟩

/-- What every sweep keeps, `coalesceBuddies` keeps. -/
theorem lastSweep_induction {Q : List BuddyBlock → Prop} {G : BuddySweep → Prop}
    (hQ : ∀ blocks, G (coalesceBlocks .empty blocks) → Q blocks →
      Q (coalesceBlocks .empty blocks).blocks)
    (hG : ∀ s ∈ coalesceSweeps (blocks.length + 1) blocks, G s) (h : Q blocks) :
    Q (lastSweep blocks).blocks := by
  obtain ⟨last, hlast, hmerges, heq, -⟩ := lastSweep_cases hQ hG h
  rw [heq]
  exact hQ last hmerges hlast

/-- Nor do the sweeps up to the last one. -/
theorem lastSweep_sameUse (h : BuddySizes blocks) : SameUse blocks (lastSweep blocks).blocks :=
  lastSweep_induction (G := fun _ => True)
    (fun _ _ hs => hs.trans (coalesceBlocks_sameUse hs.sizes)) (fun _ _ => trivial)
    (SameUse.refl h)

end Used

end Homegrown
