import Homegrown.Shared.Memory.BuddyLoops

/-!
# The search for a block

`findBestBuddy` merges pairs on its way, and splits the best block it has found until half of it
would be too small.
-/

namespace Homegrown

section Split

variable {m m' : U64 → U8} {head tail block size whole : U64} {blocks pre post : List BuddyBlock}
  {n rounds : Nat}

/-- A free block was split some times, and the last part is the block at a place. -/
structure SplitAt (head tail size : U64) (m : U64 → U8) (pre : List BuddyBlock) (whole : U64)
    (post : List BuddyBlock) (n : Nat) (block : U64) (m' : U64 → U8) : Prop where
  change : BuddyChange head tail m m' (pre ++ (halves whole n ++ ⟨whole >>> n, true⟩ :: post))
  place : block = placeAfter BuddyBlock.size head (pre ++ halves whole n)
  large : n = 0 ∨ size * 2 < whole >>> (n - 1)

theorem SplitAt.tiles (h : SplitAt head tail size m pre whole post n block m') :
    BuddyTiles m' head tail (pre ++ halves whole n ++ ⟨whole >>> n, true⟩ :: post) := by
  rw [List.append_assoc]
  exact h.change.tiles

theorem SplitAt.read_eq (h : SplitAt head tail size m pre whole post n block m') :
    readBuddy m' block = ⟨whole >>> n, true⟩ := by
  rw [h.place]
  exact h.tiles.read_eq

/-- A round splits the block, or leaves it. -/
theorem splitRound_returns (hwrap : 16 ≤ (size * 2).toNat ∨ whole ≤ size * 2)
    (h : SplitAt head tail size m pre whole post n block m') :
    ReturnsWith (splitRound size block m') fun r m'' => match r with
      | .inl next => SplitAt head tail size m pre whole post (n + 1) next m'' ∧
          (readBuddy m'' next).size.toNat < (readBuddy m' block).size.toNat
      | .inr last => last = block ∧ m'' = m' ∧ ¬ size * 2 < whole >>> n := by
  have hread := h.read_eq
  unfold splitRound
  rw [get_bind, hread]
  by_cases hlt : size * 2 < whole >>> n
  · rw [if_pos hlt]
    have hlarge : 16 < (whole >>> n).toNat := by
      have hle := shiftRight_le whole n
      rw [BitVec.lt_def] at hlt
      rw [BitVec.le_def] at hwrap
      omega
    obtain ⟨hbuddy, hchange⟩ := h.tiles.split hlarge h.place rfl
    dsimp only at hbuddy hchange ⊢
    rw [shiftRight_succ] at hbuddy hchange ⊢
    rw [set_bind]
    generalize nextBuddy (putSize m' block (whole >>> (n + 1))) block = buddy at *
    generalize putFree _ buddy true = m'' at *
    have hlist : pre ++ halves whole n ++ ⟨whole >>> (n + 1), true⟩ ::
        ⟨whole >>> (n + 1), true⟩ :: post =
          pre ++ (halves whole (n + 1) ++ ⟨whole >>> (n + 1), true⟩ :: post) := by
      simp [halves_succ]
    have hnext : SplitAt head tail size m pre whole post (n + 1) buddy m'' := by
      refine ⟨hlist ▸ h.change.trans hchange, ?_, Or.inr hlt⟩
      rw [hbuddy, halves_succ, List.append_assoc]
    apply ReturnsWith.pure
    refine ⟨hnext, ?_⟩
    rw [hnext.read_eq]
    dsimp only
    rw [← shiftRight_succ, BitVec.toNat_ushiftRight, Nat.shiftRight_one]
    omega
  · rw [if_neg hlt]
    exact ReturnsWith.pure ⟨rfl, rfl, hlt⟩

/-- `splitBuddy` splits a free block as often as half of it is more than the size. -/
theorem splitBuddy_returns (h : BuddyTiles m head tail (pre ++ ⟨whole, true⟩ :: post))
    (hblock : block = placeAfter BuddyBlock.size head pre) (hsize : size ≠ 0)
    (hwrap : 16 ≤ (size * 2).toNat ∨ whole ≤ size * 2) (hrounds : 2 ^ 64 ≤ rounds) :
    ReturnsWith (splitBuddy rounds block size m) fun r m' => ∃ n last,
      SplitAt head tail size m pre whole post n last m' ∧ ¬ size * 2 < whole >>> n ∧
        r = if size ≤ whole >>> n then last else 0 := by
  have hne : block ≠ 0 := by
    intro h0
    have hplace := h.toNat_place
    have hpos := h.head_pos
    rw [← hblock, h0] at hplace
    change 0 = _ at hplace
    omega
  have hstart : SplitAt head tail size m pre whole post 0 block m := by
    refine ⟨?_, ?_, Or.inl rfl⟩
    · simpa using BuddyChange.refl h
    · simpa using hblock
  unfold splitBuddy
  rw [if_neg hsize, if_neg hne]
  have hloop : ReturnsWith (loop .outOfFuel (splitRound size) rounds block m) fun last m' =>
      ∃ n, SplitAt head tail size m pre whole post n last m' ∧ ¬ size * 2 < whole >>> n := by
    apply loop_returns (fun last m' => ∃ n, SplitAt head tail size m pre whole post n last m')
      (fun last m' => (readBuddy m' last).size.toNat)
    · rintro last m' ⟨n, hs⟩
      apply (splitRound_returns hwrap hs).weaken
      rintro (next | r) m'' hround
      · exact ⟨⟨n + 1, hround.1⟩, hround.2⟩
      · obtain ⟨rfl, rfl, hlarge⟩ := hround
        exact ⟨n, hs, hlarge⟩
    · exact ⟨0, hstart⟩
    · have hlt := (readBuddy m block).size.isLt
      omega
  refine hloop.bind fun last m' ⟨n, hs, hlarge⟩ => ?_
  rw [get_bind, hs.read_eq]
  by_cases hfits : size ≤ whole >>> n
  · rw [if_pos hfits]
    exact ReturnsWith.pure ⟨n, last, hs, hlarge, (if_pos hfits).symm⟩
  · rw [if_neg hfits]
    exact ReturnsWith.pure ⟨n, last, hs, hlarge, (if_neg hfits).symm⟩

end Split

/-! ## The whole search -/

/-- The block that a search of the blocks finds is split where twice the size is less. -/
def Splits (size : U64) (blocks : List BuddyBlock) : Prop :=
  ∃ i ∈ (findBlocks size blocks).2, ∃ b ∈ (findBlocks size blocks).1.blocks[i]?,
    size * 2 < b.size

/-- How a search of the blocks ends. -/
inductive Found (head tail size : U64) (m : U64 → U8) (blocks : List BuddyBlock) :
    U64 → (U64 → U8) → Prop where
  /-- No block is large enough. -/
  | none {m'} (hbest : (findBlocks size blocks).2 = none)
      (hchange : BuddyChange head tail m m' (findBlocks size blocks).1.blocks) :
      Found head tail size m blocks 0 m'
  /-- A block was split; a single one may still be too small. -/
  | split {m' pre whole post n last} (hbest : (findBlocks size blocks).2 = some pre.length)
      (hblocks : (findBlocks size blocks).1.blocks = pre ++ ⟨whole, true⟩ :: post)
      (hsplit : SplitAt head tail size m pre whole post n last m')
      (hlarge : ¬ size * 2 < whole >>> n) :
      Found head tail size m blocks (if size ≤ whole >>> n then last else 0) m'

section Find

variable {m : U64 → U8} {head tail size : U64} {blocks : List BuddyBlock} {rounds : Nat}

theorem findBlocks_of_ne (h : ∀ whole, blocks ≠ [⟨whole, true⟩]) :
    findBlocks size blocks = searchBlocks size .empty none blocks := by
  unfold findBlocks
  split
  · rename_i whole
    exact absurd rfl (h whole)
  · rfl

/-- The test for a single free block. -/
theorem single_iff (h : BuddyTiles m head tail blocks) (hne : blocks ≠ []) :
    (nextBuddy m head = tail ∧ (readBuddy m head).isFree) ↔ ∃ whole, blocks = [⟨whole, true⟩] := by
  obtain ⟨b, rest, rfl⟩ := List.exists_cons_of_ne_nil hne
  have hread := h.walk.1
  have hnext : nextBuddy m (placeAfter BuddyBlock.size head []) =
      placeAfter BuddyBlock.size head ([] ++ [b]) := BuddyTiles.nextBuddy_eq h
  rw [placeAfter_nil, List.nil_append] at hnext
  rw [hread, hnext]
  constructor
  · rintro ⟨htail, hfree⟩
    cases rest with
    | nil => exact ⟨b.size, by rw [← hfree]⟩
    | cons c rest =>
      have hlt : placeAfter BuddyBlock.size head [b] < tail := BuddyTiles.place_lt h
      rw [htail, BitVec.lt_def] at hlt
      exact absurd hlt (Nat.lt_irrefl _)
  · rintro ⟨whole, hwhole⟩
    obtain ⟨rfl, rfl⟩ := List.cons_eq_cons.mp hwhole
    exact ⟨h.place_eq_tail, rfl⟩

/-- `findBestBuddy` searches the blocks. -/
theorem findBestBuddy_returns (h : BuddyTiles m head tail blocks) (hne : blocks ≠ [])
    (hsize : size ≠ 0) (hwrap : 16 ≤ (size * 2).toNat ∨ ¬ Splits size blocks)
    (hrounds : 2 ^ 64 ≤ rounds) :
    ReturnsWith (findBestBuddy rounds head tail size m) (Found head tail size m blocks) := by
  have hsplits {i : Nat} {b : BuddyBlock} (hbest : (findBlocks size blocks).2 = some i)
      (hb : (findBlocks size blocks).1.blocks[i]? = some b) :
      16 ≤ (size * 2).toNat ∨ b.size ≤ size * 2 := by
    rcases hwrap with hwrap | hwrap
    · exact Or.inl hwrap
    · right
      by_contra hlt
      exact hwrap ⟨i, hbest, b, hb, BitVec.not_le.mp hlt⟩
  unfold findBestBuddy
  rw [get_bind, if_neg hsize]
  by_cases hsingle : ∃ whole, blocks = [⟨whole, true⟩]
  · rw [if_pos ((single_iff h hne).mpr hsingle)]
    obtain ⟨whole, rfl⟩ := hsingle
    have htiles : BuddyTiles m head tail ([] ++ ⟨whole, true⟩ :: []) := h
    apply (splitBuddy_returns htiles placeAfter_nil.symm hsize (hsplits rfl rfl) hrounds).weaken
    rintro r m' ⟨n, last, hsplit, hlarge, rfl⟩
    exact .split rfl rfl hsplit hlarge
  · rw [if_neg (mt (single_iff h hne).mp hsingle)]
    have hfind : findBlocks size blocks = searchBlocks size .empty none blocks :=
      findBlocks_of_ne fun whole hwhole => hsingle ⟨whole, hwhole⟩
    apply (searchLoop_returns h hrounds).bind
    rintro bestBlock m₁ ⟨hchange, hplace, hcandidate⟩
    rw [← hfind] at hchange hplace hcandidate
    cases hbest : (findBlocks size blocks).2 with
    | none =>
      rw [hbest, bestPlace] at hplace
      rw [if_neg (not_not.mpr hplace)]
      exact ReturnsWith.pure (.none hbest hchange)
    | some i =>
      obtain ⟨⟨whole, isFree⟩, hb, rfl, hle⟩ := hcandidate i hbest
      rw [hbest, bestPlace] at hplace
      have hread := hchange.tiles.read_best hb
      rw [← hplace] at hread
      rw [if_pos hread.1]
      obtain ⟨hi, hb'⟩ := List.getElem?_eq_some_iff.mp hb
      have hcut : (findBlocks size blocks).1.blocks =
          (findBlocks size blocks).1.blocks.take i ++ ⟨whole, true⟩ ::
            (findBlocks size blocks).1.blocks.drop (i + 1) := by
        rw [← hb', List.getElem_cons_drop, List.take_append_drop]
      have hlength : ((findBlocks size blocks).1.blocks.take i).length = i := by
        rw [List.length_take, Nat.min_eq_left hi.le]
      apply (splitBuddy_returns (hcut ▸ hchange.tiles) hplace hsize (hsplits hbest hb)
        hrounds).weaken
      rintro r m' ⟨n, last, hsplit, hlarge, rfl⟩
      refine .split (by rw [hlength, hbest]) hcut ⟨?_, hsplit.place, hsplit.large⟩ hlarge
      exact hchange.trans hsplit.change

end Find

/-! ## What a search leaves -/

section Served

variable {m m' : U64 → U8} {head tail size r : U64} {blocks : List BuddyBlock} {rounds : Nat}

/-- The blocks have a property, and the block that is returned is free and large enough. -/
structure Served (K : List BuddyBlock → Prop) (head tail size : U64) (m : U64 → U8) (r : U64)
    (m' : U64 → U8) (blocks : List BuddyBlock) : Prop where
  change : BuddyChange head tail m m' blocks
  keeps : K blocks
  found : r ≠ 0 → ∃ pre whole post, blocks = pre ++ ⟨whole, true⟩ :: post ∧
    r = placeAfter BuddyBlock.size head pre ∧ size ≤ whole

/-- A block that was split was wider than twice the size. -/
theorem SplitAt.eq_zero {pre post : List BuddyBlock} {whole last : U64} {n : Nat}
    (h : SplitAt head tail size m pre whole post n last m') (hle : whole ≤ size * 2) : n = 0 := by
  rcases h.large with hn | hlt
  · exact hn
  · have hwhole := shiftRight_le whole (n - 1)
    rw [BitVec.lt_def] at hlt
    rw [BitVec.le_def] at hle
    omega

/-- The block that a search finds is not split, unless it is wider than twice the size. -/
theorem le_of_not_splits (hsplits : ¬ Splits size blocks) {pre post : List BuddyBlock}
    {whole : U64} (hbest : (findBlocks size blocks).2 = some pre.length)
    (hblocks : (findBlocks size blocks).1.blocks = pre ++ ⟨whole, true⟩ :: post) :
    whole ≤ size * 2 := by
  by_contra hlt
  refine hsplits ⟨pre.length, hbest, ⟨whole, true⟩, ?_, BitVec.not_le.mp hlt⟩
  rw [hblocks]
  simp

/-- What a search and every split keep, holds of the blocks that are left. -/
theorem Found.served {K : List BuddyBlock → Prop} (h : Found head tail size m blocks r m')
    (hfound : K (findBlocks size blocks).1.blocks)
    (hK : ∀ pre half post, 16 < half.toNat → K (pre ++ ⟨half, true⟩ :: post) →
      K (pre ++ ⟨half >>> 1, true⟩ :: ⟨half >>> 1, true⟩ :: post))
    (hwrap : 16 ≤ (size * 2).toNat ∨ ¬ Splits size blocks) :
    ∃ blocks', Served K head tail size m r m' blocks' := by
  cases h with
  | none hbest hchange => exact ⟨_, hchange, hfound, fun hne => absurd rfl hne⟩
  | split hbest hblocks hsplit hlarge =>
    rename_i pre whole post n last
    have hn : n = 0 ∨ 16 < (whole >>> (n - 1)).toNat := by
      rcases hwrap with hwrap | hwrap
      · refine hsplit.large.imp_right fun hlt => ?_
        rw [BitVec.lt_def] at hlt
        omega
      · exact Or.inl (hsplit.eq_zero (le_of_not_splits hwrap hbest hblocks))
    rw [hblocks] at hfound
    refine ⟨_, hsplit.change, halves_induction hK hn hfound, fun hne => ?_⟩
    by_cases hfits : size ≤ whole >>> n
    · rw [if_pos hfits]
      exact ⟨pre ++ halves whole n, whole >>> n, post, by simp, hsplit.place, hfits⟩
    · rw [if_neg hfits] at hne
      exact absurd rfl hne

/-- A search that fails without a split leaves its blocks. -/
theorem Found.unsplit (h : Found head tail size m blocks r m') (hsplits : ¬ Splits size blocks) :
    BuddyChange head tail m m' (findBlocks size blocks).1.blocks := by
  cases h with
  | none hbest hchange => exact hchange
  | split hbest hblocks hsplit hlarge =>
    obtain rfl := hsplit.eq_zero (le_of_not_splits hsplits hbest hblocks)
    have hchange := hsplit.change
    rw [hblocks]
    simpa using hchange

/-- The blocks that the second search of `buddyAlloc` goes over. -/
def secondBlocks (size : U64) (blocks : List BuddyBlock) : List BuddyBlock :=
  (lastSweep (findBlocks size blocks).1.blocks).blocks

theorem SameUse.ne_nil {blocks blocks' : List BuddyBlock} (h : SameUse blocks blocks')
    (hpos : 0 < extent BuddyBlock.size blocks) : blocks' ≠ [] := by
  rintro rfl
  have hbytes := h.bytes
  rw [extent_nil] at hbytes
  omega

/-- The two searches of `buddyAlloc` leave the blocks in use. -/
theorem findBuddy_returns (h : BuddyTiles m head tail blocks)
    (hpos : 0 < extent BuddyBlock.size blocks) (hsize : size ≠ 0)
    (hwrap : 16 ≤ (size * 2).toNat ∨
      ¬ Splits size blocks ∧ ¬ Splits size (secondBlocks size blocks))
    (hrounds : 2 ^ 64 ≤ rounds) :
    ReturnsWith (findBuddy rounds ⟨head, tail⟩ size m) fun r m' =>
      ∃ blocks', Served (SameUse blocks) head tail size m r m' blocks' := by
  have hwrap₁ : 16 ≤ (size * 2).toNat ∨ ¬ Splits size blocks := hwrap.imp_right And.left
  have hne := (SameUse.refl h.sizes).ne_nil hpos
  have hsplit {blocks₀ : List BuddyBlock} : ∀ pre half post, 16 < half.toNat →
      SameUse blocks₀ (pre ++ ⟨half, true⟩ :: post) →
        SameUse blocks₀ (pre ++ ⟨half >>> 1, true⟩ :: ⟨half >>> 1, true⟩ :: post) :=
    fun _ _ _ hlt hsame => hsame.split hlt
  unfold findBuddy
  apply (findBestBuddy_returns h hne hsize hwrap₁ hrounds).bind
  intro r m₁ hfound
  obtain ⟨blocks₁, hserved⟩ := hfound.served (findBlocks_sameUse h.sizes size) hsplit hwrap₁
  by_cases hr : r = 0
  · rw [if_pos hr]
    -- Without a wrap any blocks will do for the second search, and otherwise nothing was split.
    have hblocks : ∃ blocks₂, BuddyChange head tail m m₁ blocks₂ ∧ SameUse blocks blocks₂ ∧
        (16 ≤ (size * 2).toNat ∨ ¬ Splits size (lastSweep blocks₂).blocks) := by
      rcases hwrap with hwrap | ⟨hfirst, hsecond⟩
      · exact ⟨blocks₁, hserved.change, hserved.keeps, Or.inl hwrap⟩
      · exact ⟨_, hfound.unsplit hfirst, findBlocks_sameUse h.sizes size, Or.inr hsecond⟩
    obtain ⟨blocks₂, hchange, hsame, hwrap₂⟩ := hblocks
    apply (coalesceBuddies_returns hchange.tiles hrounds).bind
    intro _ m₂ hcoalesced
    have hsame₂ := hsame.trans (lastSweep_sameUse hsame.sizes)
    apply (findBestBuddy_returns hcoalesced.tiles (hsame₂.ne_nil hpos) hsize hwrap₂
      hrounds).weaken
    intro r' m' hfound'
    obtain ⟨blocks', hserved'⟩ := hfound'.served (findBlocks_sameUse hcoalesced.tiles.sizes size)
      hsplit hwrap₂
    exact ⟨blocks', (hchange.trans hcoalesced).trans hserved'.change,
      hsame₂.trans hserved'.keeps, hserved'.found⟩
  · rw [if_neg hr]
    exact ReturnsWith.pure ⟨blocks₁, hserved⟩

end Served

end Homegrown
