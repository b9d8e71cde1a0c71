import Homegrown.Shared.Memory.BuddySweep

/-!
# The loops of the buddy allocator and their sweeps

The programs on memory do to the headers what the sweeps do to the list of blocks.
-/

namespace Homegrown

/-! ## The pair of pointers -/

/-- The pointers `block` and `buddy`, with the blocks in front of them and the rest. -/
structure BuddyPair (head : U64) (done rest : List BuddyBlock) (block buddy : U64) : Prop where
  block_eq : block = placeAfter BuddyBlock.size head done
  buddy_eq : ∀ {b rest'}, rest = b :: rest' →
    buddy = placeAfter BuddyBlock.size head (done ++ [b])

section Pair

variable {m : U64 → U8} {head tail block buddy : U64} {done rest : List BuddyBlock}
  {b c : BuddyBlock}

theorem BuddyTiles.nextBuddy_eq (h : BuddyTiles m head tail (done ++ b :: rest)) :
    nextBuddy m (placeAfter BuddyBlock.size head done) =
      placeAfter BuddyBlock.size head (done ++ [b]) := by
  rw [nextBuddy, h.read_eq, placeAfter_concat]

/-- A place with a block behind it is in front of the tail. -/
theorem BuddyTiles.place_lt (h : BuddyTiles m head tail (done ++ b :: rest)) :
    placeAfter BuddyBlock.size head done < tail := by
  obtain ⟨hle, hsize⟩ := h.header_le
  rw [BitVec.lt_def]
  omega

theorem BuddyTiles.place_eq_tail (h : BuddyTiles m head tail done) :
    placeAfter BuddyBlock.size head done = tail := h.tail_eq.symm

/-- The pointers of a new pair. -/
theorem BuddyTiles.pair (h : BuddyTiles m head tail (done ++ rest))
    (hblock : block = placeAfter BuddyBlock.size head done)
    (hbuddy : block < tail → buddy = nextBuddy m block) : BuddyPair head done rest block buddy := by
  refine ⟨hblock, fun hrest => ?_⟩
  subst hrest
  rw [hbuddy (hblock ▸ h.place_lt), hblock, h.nextBuddy_eq]

/-- The pair behind the block at `buddy`. -/
theorem BuddyTiles.nextPair (h : BuddyTiles m head tail (done ++ rest))
    (hnext : nextBuddy m buddy = placeAfter BuddyBlock.size head done) :
    BuddyPair head done rest (nextPair m tail buddy).1 (nextPair m tail buddy).2 := by
  apply h.pair
  · exact hnext
  · intro hlt
    exact if_pos hlt

/-- The loops go on as long as there are two blocks. -/
theorem BuddyPair.inRange_iff (hp : BuddyPair head done rest block buddy)
    (h : BuddyTiles m head tail (done ++ rest)) :
    (block < tail ∧ buddy < tail) ↔ ∃ b c rest', rest = b :: c :: rest' := by
  constructor
  · rintro ⟨hblock, hbuddy⟩
    rcases rest with _ | ⟨b, _ | ⟨c, rest⟩⟩
    · rw [List.append_nil] at h
      rw [hp.block_eq, h.place_eq_tail, BitVec.lt_def] at hblock
      exact absurd hblock (Nat.lt_irrefl _)
    · rw [hp.buddy_eq rfl, h.place_eq_tail, BitVec.lt_def] at hbuddy
      exact absurd hbuddy (Nat.lt_irrefl _)
    · exact ⟨b, c, rest, rfl⟩
  · rintro ⟨b, c, rest, rfl⟩
    have h' := h
    rw [List.append_cons] at h'
    rw [hp.block_eq, hp.buddy_eq rfl]
    exact ⟨h.place_lt, h'.place_lt⟩

theorem BuddyPair.read_block (hp : BuddyPair head done (b :: rest) block buddy)
    (h : BuddyTiles m head tail (done ++ b :: rest)) : readBuddy m block = b := by
  rw [hp.block_eq, h.read_eq]

theorem BuddyPair.read_buddy (hp : BuddyPair head done (b :: c :: rest) block buddy)
    (h : BuddyTiles m head tail (done ++ b :: c :: rest)) : readBuddy m buddy = c := by
  rw [List.append_cons] at h
  rw [hp.buddy_eq rfl, h.read_eq]

/-- The pair is moved on by one block. -/
theorem BuddyPair.shift (hp : BuddyPair head done (b :: c :: rest) block buddy)
    (h : BuddyTiles m head tail (done ++ b :: c :: rest)) :
    BuddyPair head (done ++ [b]) (c :: rest) buddy (nextBuddy m buddy) := by
  rw [List.append_cons] at h
  exact h.pair (hp.buddy_eq rfl) fun _ => rfl

/-- The pair is moved on by two blocks. -/
theorem BuddyPair.skip (hp : BuddyPair head done (b :: c :: rest) block buddy)
    (h : BuddyTiles m head tail (done ++ b :: c :: rest)) :
    BuddyPair head (done ++ [b, c]) rest (Homegrown.nextPair m tail buddy).1
      (Homegrown.nextPair m tail buddy).2 := by
  have h' := h
  rw [List.append_cons] at h'
  have hnext := h'.nextBuddy_eq
  rw [← hp.buddy_eq rfl, List.append_assoc] at hnext
  apply BuddyTiles.nextPair _ hnext
  rw [List.append_assoc]
  exact h

/-- The pair becomes one block. -/
theorem BuddyPair.merge (hp : BuddyPair head done (b :: c :: rest) block buddy)
    (h : BuddyTiles m head tail (done ++ b :: c :: rest)) (hb : b.isFree = true)
    (hsize : b.size = c.size) {m' : U64 → U8} (hm' : m' = putSize m block (b.size <<< 1)) :
    BuddyChange head tail m m' (done ++ [⟨b.size <<< 1, true⟩] ++ rest) ∧
      readBuddy m' block = ⟨b.size <<< 1, true⟩ ∧
      nextBuddy m' block = placeAfter BuddyBlock.size head (done ++ [⟨b.size <<< 1, true⟩]) ∧
      nextBuddy m' buddy = placeAfter BuddyBlock.size head (done ++ [⟨b.size <<< 1, true⟩]) := by
  have hmerge := h.merge hsize
  rw [← hp.block_eq, ← hm', hb] at hmerge
  have htiles := hmerge.tiles
  obtain ⟨hend, hle⟩ := h.header_le
  have h' := h
  rw [List.append_cons] at h'
  obtain ⟨hend', hle'⟩ := h'.header_le
  have hbuddy := hp.buddy_eq rfl
  have hnext : buddy.toNat = block.toNat + b.size.toNat := by
    have hplace := h.toNat_place
    have hplace' := h'.toNat_place
    rw [extent_append, extent_cons, extent_nil] at hplace'
    rw [hbuddy, hp.block_eq, hplace', hplace]
    omega
  rw [← hbuddy] at hend'
  rw [← hp.block_eq] at hend
  have htail := tail.isLt
  have hread : readBuddy m' buddy = c := by
    rw [hm', readBuddy_putSize_of_disjoint (by omega) (by omega) (by omega), hp.read_buddy h]
  have hblock : nextBuddy m' block =
      placeAfter BuddyBlock.size head (done ++ [⟨b.size <<< 1, true⟩]) := by
    rw [hp.block_eq]
    exact htiles.nextBuddy_eq
  refine ⟨by rwa [← List.append_cons], ?_, hblock, ?_⟩
  · rw [hp.block_eq]
    exact htiles.read_eq
  · have hdouble := (h.sizes.merge hsize true).1
    rw [nextBuddy, hread, placeAfter_concat, ← hp.block_eq]
    apply BitVec.eq_of_toNat_eq
    rw [hsize] at hnext hdouble ⊢
    rw [BitVec.toNat_add, BitVec.toNat_add, hdouble, hnext, Nat.two_mul, Nat.add_assoc]

/-- Blocks that are passed stay as they are. -/
theorem BuddyChange.add {sweep : BuddySweep} {m' : U64 → U8} {xs : List BuddyBlock}
    (h : BuddyChange head tail m m' (sweep.blocks ++ (xs ++ rest))) :
    BuddyChange head tail m m' ((sweep.add xs).blocks ++ rest) := by
  rw [BuddySweep.add, List.append_assoc]
  exact h

/-- What is left to go over becomes less. -/
theorem BuddyPair.left_lt (hp : BuddyPair head done (b :: rest) block buddy)
    (h : BuddyTiles m head tail (done ++ b :: rest)) {m' : U64 → U8} {x : BuddyBlock}
    {xs rest' : List BuddyBlock} {block' buddy' : U64}
    (hp' : BuddyPair head (done ++ x :: xs) rest' block' buddy')
    (h' : BuddyTiles m' head tail (done ++ x :: xs ++ rest')) :
    tail.toNat - block'.toNat < tail.toNat - block.toNat := by
  have hplace := h.toNat_place
  have hplace' := h'.toNat_place
  have hlt := BitVec.lt_def.mp h.place_lt
  have hsize := (h'.valid x (by simp)).le_size
  rw [extent_append, extent_cons] at hplace'
  rw [hp.block_eq, hp'.block_eq]
  omega

end Pair

/-! ## Coalescing -/

/-- The inner loop of `coalesceBuddies` has gone over some blocks, and the rest is to come. -/
structure CoalesceAt (head tail : U64) (m₀ : U64 → U8) (blocks : List BuddyBlock)
    (sweep : BuddySweep) (rest : List BuddyBlock) (s : BuddyPass) (m : U64 → U8) : Prop where
  change : BuddyChange head tail m₀ m (sweep.blocks ++ rest)
  pair : BuddyPair head sweep.blocks rest s.block s.buddy
  flag : s.noCoalesce = false ↔ ∃ g ∈ sweep.merges, g.stop < extent BuddyBlock.size blocks
  result : coalesceBlocks sweep rest = coalesceBlocks .empty blocks

section Coalesce

variable {m₀ m m' : U64 → U8} {head tail buddy : U64} {blocks rest rest' : List BuddyBlock}
  {b c : BuddyBlock} {sweep sweep' : BuddySweep} {s s' : BuddyPass} {noCoalesce : Bool}

theorem coalesceBlocks_of_not_pair (sweep : BuddySweep)
    (h : ¬∃ b c rest', rest = b :: c :: rest') : coalesceBlocks sweep rest = sweep.add rest := by
  rcases rest with _ | ⟨b, _ | ⟨c, rest⟩⟩
  · rfl
  · rfl
  · exact absurd ⟨b, c, rest, rfl⟩ h

/-- A pair is passed. -/
theorem CoalesceAt.skip (h : CoalesceAt head tail m₀ blocks sweep (b :: c :: rest) s m)
    (hresult : coalesceBlocks sweep (b :: c :: rest) = coalesceBlocks (sweep.add [b, c]) rest) :
    CoalesceAt head tail m₀ blocks (sweep.add [b, c]) rest
      ⟨(nextPair m tail s.buddy).1, (nextPair m tail s.buddy).2, s.noCoalesce⟩ m :=
  ⟨h.change.add, h.pair.skip h.change.tiles, h.flag, hresult.symm.trans h.result⟩

/-- The first block of a pair is passed. -/
theorem CoalesceAt.shift (h : CoalesceAt head tail m₀ blocks sweep (b :: c :: rest) s m)
    (hresult : coalesceBlocks sweep (b :: c :: rest) = coalesceBlocks (sweep.add [b]) (c :: rest)) :
    CoalesceAt head tail m₀ blocks (sweep.add [b]) (c :: rest)
      ⟨s.buddy, nextBuddy m s.buddy, s.noCoalesce⟩ m :=
  ⟨h.change.add, h.pair.shift h.change.tiles, h.flag, hresult.symm.trans h.result⟩

/-- A pair is merged; the flag falls when the merged block does not end the region. -/
theorem CoalesceAt.merge (htail : tail.toNat = head.toNat + extent BuddyBlock.size blocks)
    (h : CoalesceAt head tail m₀ blocks sweep (b :: c :: rest) s m) (hb : b.isFree = true)
    (hsize : b.size = c.size) (hm' : m' = putSize m s.block (b.size <<< 1))
    (hresult : coalesceBlocks sweep (b :: c :: rest) = coalesceBlocks (sweep.merge b) rest)
    (hbuddy : nextBuddy m' s.block < tail → buddy = nextBuddy m' (nextBuddy m' s.block))
    (hflag : noCoalesce = false ↔ nextBuddy m' s.block < tail ∨ s.noCoalesce = false) :
    CoalesceAt head tail m₀ blocks (sweep.merge b) rest
      ⟨nextBuddy m' s.block, buddy, noCoalesce⟩ m' := by
  have htiles := h.change.tiles
  obtain ⟨hmerged, -, hnext, -⟩ := h.pair.merge htiles hb hsize hm'
  have hchange := h.change.trans hmerged
  refine ⟨hchange, hchange.tiles.pair hnext hbuddy, ?_, hresult.symm.trans h.result⟩
  have hplace := hchange.tiles.toNat_place
  have hdouble := (htiles.sizes.merge hsize true).1
  have hstop : nextBuddy m' s.block < tail ↔
      extent BuddyBlock.size sweep.blocks + 2 * b.size.toNat < extent BuddyBlock.size blocks := by
    rw [hnext, BitVec.lt_def, hplace, htail, extent_append, extent_cons, extent_nil, hdouble]
    omega
  change noCoalesce = false ↔ _
  rw [hflag, h.flag, hstop, BuddySweep.merge]
  simp only [List.mem_append, List.mem_singleton, or_and_right, exists_or, exists_eq_left,
    Span.stop]
  exact or_comm

theorem CoalesceAt.left_lt {x : BuddyBlock} {xs : List BuddyBlock}
    (h : CoalesceAt head tail m₀ blocks sweep (b :: rest) s m)
    (h' : CoalesceAt head tail m₀ blocks sweep' rest' s' m')
    (hsweep : sweep'.blocks = sweep.blocks ++ x :: xs) :
    tail.toNat - s'.block.toNat < tail.toNat - s.block.toNat :=
  h.pair.left_lt h.change.tiles (hsweep ▸ h'.pair) (hsweep ▸ h'.change.tiles)

/-- A round passes some blocks, or merges a pair. -/
theorem coalesceRound_returns (htail : tail.toNat = head.toNat + extent BuddyBlock.size blocks)
    (h : CoalesceAt head tail m₀ blocks sweep rest s m) :
    ReturnsWith (coalesceRound tail s m) fun r m' => match r with
      | .inl next => (∃ sweep' rest', CoalesceAt head tail m₀ blocks sweep' rest' next m') ∧
          tail.toNat - next.block.toNat < tail.toNat - s.block.toNat
      | .inr noCoalesce => BuddyChange head tail m₀ m' (coalesceBlocks .empty blocks).blocks ∧
          (noCoalesce = false ↔ ∃ g ∈ (coalesceBlocks .empty blocks).merges,
            g.stop < extent BuddyBlock.size blocks) := by
  have htiles := h.change.tiles
  have hrange := h.pair.inRange_iff htiles
  unfold coalesceRound
  rw [get_bind]
  by_cases hpair : ∃ b c rest', rest = b :: c :: rest'
  · rw [if_pos (hrange.mpr hpair)]
    obtain ⟨b, c, rest, rfl⟩ := hpair
    rw [h.pair.read_block htiles, h.pair.read_buddy htiles]
    split_ifs with hlt hgt hfree
    · have hskip := h.skip (by rw [coalesceBlocks, if_pos hlt])
      exact ReturnsWith.pure ⟨⟨_, _, hskip⟩, h.left_lt hskip rfl⟩
    · have hshift := h.shift (by rw [coalesceBlocks, if_neg hlt, if_pos hgt])
      exact ReturnsWith.pure ⟨⟨_, _, hshift⟩, h.left_lt hshift rfl⟩
    · have hresult : coalesceBlocks sweep (b :: c :: rest) =
          coalesceBlocks (sweep.merge b) rest := by
        rw [coalesceBlocks, if_neg hlt, if_neg hgt, if_pos hfree]
      rw [BitVec.lt_def] at hlt hgt
      have hsize : b.size = c.size := BitVec.eq_of_toNat_eq (by omega)
      rw [set_bind]
      split_ifs with hlast
      · have hmerge := h.merge htail hfree.1 hsize rfl hresult (fun _ => rfl)
          (iff_of_true rfl (.inl hlast))
        exact ReturnsWith.pure ⟨⟨_, _, hmerge⟩, h.left_lt hmerge rfl⟩
      · have hbuddy : ∀ {next : U64}, _ → s.buddy = next := fun hlt => absurd hlt hlast
        have hmerge := h.merge htail hfree.1 hsize rfl hresult hbuddy (or_iff_right hlast).symm
        exact ReturnsWith.pure ⟨⟨_, _, hmerge⟩, h.left_lt hmerge rfl⟩
    · have hskip := h.skip (by rw [coalesceBlocks, if_neg hlt, if_neg hgt, if_neg hfree])
      exact ReturnsWith.pure ⟨⟨_, _, hskip⟩, h.left_lt hskip rfl⟩
  · rw [if_neg (mt hrange.mp hpair), ← h.result, coalesceBlocks_of_not_pair sweep hpair]
    exact ReturnsWith.pure ⟨h.change, h.flag⟩

/-- A round of the outer loop is a sweep. -/
theorem coalescePass_returns (h : BuddyTiles m head tail blocks) {rounds : Nat}
    (hrounds : 2 ^ 64 ≤ rounds) :
    ReturnsWith (coalescePass rounds head tail m) fun r m' =>
      BuddyChange head tail m m' (coalesceBlocks .empty blocks).blocks ∧
      (r = .inl () ↔ ∃ g ∈ (coalesceBlocks .empty blocks).merges,
        g.stop < extent BuddyBlock.size blocks) := by
  unfold coalescePass
  rw [get_bind]
  have htail := h.toNat_tail
  have hstart : CoalesceAt head tail m blocks .empty blocks ⟨head, nextBuddy m head, true⟩ m := by
    refine ⟨BuddyChange.refl h, ?_, ?_, rfl⟩
    · apply BuddyTiles.pair h
      · exact placeAfter_nil.symm
      · exact fun _ => rfl
    · simp [BuddySweep.empty]
  have hloop : ReturnsWith
      (loop .outOfFuel (coalesceRound tail) rounds ⟨head, nextBuddy m head, true⟩ m)
      fun noCoalesce m' => BuddyChange head tail m m' (coalesceBlocks .empty blocks).blocks ∧
        (noCoalesce = false ↔ ∃ g ∈ (coalesceBlocks .empty blocks).merges,
          g.stop < extent BuddyBlock.size blocks) := by
    apply loop_returns (fun s m' => ∃ sweep rest, CoalesceAt head tail m blocks sweep rest s m')
      (fun s _ => tail.toNat - s.block.toNat)
    · rintro s m' ⟨sweep, rest, hs⟩
      apply (coalesceRound_returns htail hs).weaken
      rintro (next | r) _ hround <;> exact hround
    · exact ⟨.empty, blocks, hstart⟩
    · have hlt := tail.isLt
      dsimp only
      omega
  refine hloop.bind fun noCoalesce m' ⟨hchange, hflag⟩ => ?_
  cases noCoalesce with
  | false => exact ReturnsWith.pure ⟨hchange, by simpa using hflag⟩
  | true => exact ReturnsWith.pure ⟨hchange, by simpa using hflag⟩

/-- The blocks are no more than the bytes. -/
theorem BuddySizes.length_le (h : BuddySizes blocks) :
    blocks.length ≤ extent BuddyBlock.size blocks := by
  have hvalid := h.valid
  clear h
  induction blocks with
  | nil => exact Nat.zero_le _
  | cons b blocks ih =>
    have hb := (hvalid b List.mem_cons_self).le_size
    have hle := ih fun x hx => hvalid x (List.mem_cons_of_mem _ hx)
    rw [List.length_cons, extent_cons]
    omega

/-- The outer loop makes its sweeps. -/
theorem loop_coalescePass_returns (h : BuddyTiles m head tail blocks) {rounds : Nat}
    (hrounds : 2 ^ 64 ≤ rounds) {n k : Nat} (hn : blocks.length < n) (hk : blocks.length < k) :
    ReturnsWith (loop .outOfFuel (fun _ => coalescePass rounds head tail) k () m) fun _ m' =>
      BuddyChange head tail m m' ((coalesceSweeps n blocks).getLastD .empty).blocks := by
  induction k generalizing n m blocks with
  | zero => exact absurd hk (Nat.not_lt_zero _)
  | succ k ih =>
    obtain ⟨n, rfl⟩ : ∃ j, n = j + 1 := ⟨n - 1, by omega⟩
    obtain ⟨r, m', hpass, hchange, hr⟩ := coalescePass_returns h hrounds
    have hlength := length_coalesceBlocks blocks
    cases r with
    | inl next =>
      have hmerge := hr.mp rfl
      have hpos : 0 < (coalesceBlocks .empty blocks).merges.length := by
        obtain ⟨g, hg, -⟩ := hmerge
        exact List.length_pos_of_mem hg
      rw [loop_succ_of_inl hpass, coalesceSweeps_of_merge (by omega) hmerge]
      apply (ih (n := n) hchange.tiles (by omega) (by omega)).weaken
      exact fun _ _ hrest => hchange.trans hrest
    | inr u =>
      have hmerge := mt hr.mpr (by simp)
      rw [loop_succ_of_inr hpass, coalesceSweeps_of_not_merge n hmerge]
      exact ⟨u, m', rfl, hchange⟩

/-- `coalesceBuddies` leaves the blocks of the last sweep. -/
theorem coalesceBuddies_returns (h : BuddyTiles m head tail blocks) {rounds : Nat}
    (hrounds : 2 ^ 64 ≤ rounds) :
    ReturnsWith (coalesceBuddies rounds head tail m) fun _ m' =>
      BuddyChange head tail m m' (lastSweep blocks).blocks := by
  have hlength := h.sizes.length_le
  have hfits := h.fits
  exact loop_coalescePass_returns h hrounds (Nat.lt_succ_self _) (by omega)

end Coalesce

/-! ## The best block -/

/-- The pointer `bestBlock`. -/
def bestPlace (head : U64) (blocks : List BuddyBlock) : Option Nat → U64
  | none => 0
  | some i => placeAfter BuddyBlock.size head (blocks.take i)

/-- The best block so far is free and large enough. -/
def Candidate (size : U64) (done rest : List BuddyBlock) (best : Option Nat) : Prop :=
  ∀ i ∈ best, i ≤ done.length ∧
    ∃ b, (done ++ rest)[i]? = some b ∧ b.isFree = true ∧ size ≤ b.size

section Best

variable {m : U64 → U8} {head tail size x : U64} {done rest blocks xs : List BuddyBlock}
  {b c : BuddyBlock} {best : Option Nat} {i : Nat}

theorem Candidate.start : Candidate size done rest none := fun _ hi => by cases hi

theorem Candidate.move (xs : List BuddyBlock) (h : Candidate size done (xs ++ rest) best) :
    Candidate size (done ++ xs) rest best := by
  intro i hi
  obtain ⟨hle, b, hb, hfree, hsize⟩ := h i hi
  rw [List.length_append, List.append_assoc]
  exact ⟨by omega, b, hb, hfree, hsize⟩

/-- The best block stays one when it is merged. -/
theorem Candidate.merge (h : Candidate size done (b :: c :: rest) best)
    (hle : b.size ≤ b.size <<< 1) : Candidate size done (⟨b.size <<< 1, true⟩ :: rest) best := by
  intro i hi
  obtain ⟨hi', x, hx, hfree, hsize⟩ := h i hi
  refine ⟨hi', ?_⟩
  rcases hi'.lt_or_eq with hlt | rfl
  · rw [List.getElem?_append_left hlt] at hx ⊢
    exact ⟨x, hx, hfree, hsize⟩
  · rw [List.getElem?_append_right le_rfl, Nat.sub_self, List.getElem?_cons_zero,
      Option.some.injEq] at hx
    rw [List.getElem?_append_right le_rfl, Nat.sub_self]
    refine ⟨⟨b.size <<< 1, true⟩, rfl, rfl, ?_⟩
    rw [BitVec.le_def] at hle hsize ⊢
    rw [← hx] at hsize
    exact hsize.trans hle

theorem sizeAt_append (hi : i < done.length) : sizeAt (done ++ rest) i = sizeAt done i := by
  rw [sizeAt, List.getElem?_append_left hi, sizeAt]

theorem bestPlace_append (xs : List BuddyBlock) (h : ∀ i ∈ best, i ≤ done.length) :
    bestPlace head (done ++ xs) best = bestPlace head done best := by
  cases best with
  | none => rfl
  | some i =>
    rw [bestPlace, List.take_append_of_le_length (h i rfl), bestPlace]

/-- What is read at the best block. -/
theorem BuddyTiles.read_best (h : BuddyTiles m head tail blocks) (hi : blocks[i]? = some b) :
    placeAfter BuddyBlock.size head (blocks.take i) ≠ 0 ∧
      readBuddy m (placeAfter BuddyBlock.size head (blocks.take i)) = b := by
  obtain ⟨hlt, hb⟩ := List.getElem?_eq_some_iff.mp hi
  have hcut : blocks = blocks.take i ++ b :: blocks.drop (i + 1) := by
    rw [← hb, List.getElem_cons_drop, List.take_append_drop]
  rw [hcut] at h
  refine ⟨?_, h.read_eq⟩
  intro h0
  have hplace := h.toNat_place
  have hpos := h.head_pos
  rw [h0] at hplace
  change 0 = _ at hplace
  omega

/-- The comparison with the size of the best block. -/
theorem BuddyTiles.best_iff (h : BuddyTiles m head tail blocks)
    (hbest : ∀ i ∈ best, ∃ b, blocks[i]? = some b) (R : U64 → U64 → Prop) :
    (bestPlace head blocks best = 0 ∨ R x (readBuddy m (bestPlace head blocks best)).size) ↔
      ∀ j ∈ best, R x (sizeAt blocks j) := by
  cases best with
  | none => simp [bestPlace]
  | some i =>
    obtain ⟨b, hb⟩ := hbest i rfl
    obtain ⟨hne, hread⟩ := h.read_best hb
    rw [bestPlace, or_iff_right hne, hread]
    simp [sizeAt, hb]

end Best

/-! ## The search -/

/-- The loop of `findBestBuddy` has gone over some blocks, and the rest is to come. -/
structure SearchAt (head tail size : U64) (m₀ : U64 → U8) (blocks : List BuddyBlock)
    (sweep : BuddySweep) (best : Option Nat) (rest : List BuddyBlock) (s : BuddySearch)
    (m : U64 → U8) : Prop where
  change : BuddyChange head tail m₀ m (sweep.blocks ++ rest)
  pair : BuddyPair head sweep.blocks rest s.block s.buddy
  best_eq : s.bestBlock = bestPlace head sweep.blocks best
  candidate : Candidate size sweep.blocks rest best
  result : searchBlocks size sweep best rest = searchBlocks size .empty none blocks

section Search

variable {m₀ m m' : U64 → U8} {head tail size x : U64} {blocks rest rest' : List BuddyBlock}
  {b c : BuddyBlock} {sweep sweep' : BuddySweep} {best best' : Option Nat} {s s' : BuddySearch}
  {i : Nat}

/-- The comparison with the size of the best block, among the first blocks. -/
theorem Candidate.test_iff {done known more : List BuddyBlock} {bestBlock : U64}
    (h : Candidate size done rest best) (htiles : BuddyTiles m head tail (done ++ rest))
    (hbest : bestBlock = bestPlace head done best) (hknown : done ++ rest = known ++ more)
    (hlength : done.length < known.length) (R : U64 → U64 → Prop) :
    (bestBlock = 0 ∨ R x (readBuddy m bestBlock).size) ↔ ∀ j ∈ best, R x (sizeAt known j) := by
  have hle : ∀ j ∈ best, j ≤ done.length := fun j hj => (h j hj).1
  have hsome : ∀ j ∈ best, ∃ b, (done ++ rest)[j]? = some b := by
    intro j hj
    obtain ⟨-, b, hb, -⟩ := h j hj
    exact ⟨b, hb⟩
  have htest := htiles.best_iff (x := x) hsome R
  rw [bestPlace_append _ hle, ← hbest] at htest
  rw [htest, hknown]
  apply forall₂_congr
  intro j hj
  rw [sizeAt_append (lt_of_le_of_lt (hle j hj) hlength)]

/-- A look at the next block. -/
theorem Candidate.better {done : List BuddyBlock} {block bestBlock : U64}
    (h : Candidate size done (b :: rest) best) (known more : List BuddyBlock)
    (htiles : BuddyTiles m head tail (done ++ b :: rest))
    (hbest : bestBlock = bestPlace head done best)
    (hblock : block = placeAfter BuddyBlock.size head done)
    (hknown : done ++ b :: rest = known ++ more) (hlength : done.length < known.length) :
    betterBlock m size block bestBlock =
        bestPlace head done (betterAt size known b done.length best) ∧
      Candidate size done (b :: rest) (betterAt size known b done.length best) := by
  have hread : readBuddy m block = b := by rw [hblock, htiles.read_eq]
  have htest := h.test_iff (x := b.size) htiles hbest hknown hlength (· < ·)
  unfold betterBlock betterAt
  rw [hread]
  simp only [htest]
  split
  · rename_i hchosen
    refine ⟨by rw [bestPlace, List.take_length, hblock], fun i hi => ?_⟩
    obtain rfl := Option.mem_some.mp hi
    exact ⟨le_rfl, b, by simp, hchosen.1, hchosen.2.1⟩
  · exact ⟨hbest, h⟩

/-- A look at the block that a pair was merged to. -/
theorem Candidate.betterMerged {done known more : List BuddyBlock} {block bestBlock : U64}
    (h : Candidate size done (b :: rest) best)
    (htiles : BuddyTiles m head tail (done ++ b :: rest)) (hfree : b.isFree = true)
    (hbest : bestBlock = bestPlace head done best)
    (hblock : block = placeAfter BuddyBlock.size head done)
    (hknown : done ++ b :: rest = known ++ more) (hlength : done.length < known.length) :
    betterMerged m size block bestBlock =
        bestPlace head done (betterMergedAt size known b done.length best) ∧
      Candidate size done (b :: rest) (betterMergedAt size known b done.length best) := by
  have hread : readBuddy m block = b := by rw [hblock, htiles.read_eq]
  have htest := h.test_iff (x := b.size) htiles hbest hknown hlength (· ≤ ·)
  unfold Homegrown.betterMerged betterMergedAt
  rw [hread]
  simp only [htest]
  split
  · rename_i hchosen
    refine ⟨by rw [bestPlace, List.take_length, hblock], fun i hi => ?_⟩
    obtain rfl := Option.mem_some.mp hi
    exact ⟨le_rfl, b, by simp, hfree, hchosen.1⟩
  · exact ⟨hbest, h⟩

theorem searchBlocks_of_not_pair (sweep : BuddySweep) (best : Option Nat)
    (h : ¬∃ b c rest', rest = b :: c :: rest') :
    searchBlocks size sweep best rest = (sweep.add rest, best) := by
  rcases rest with _ | ⟨b, _ | ⟨c, rest⟩⟩
  · rfl
  · rfl
  · exact absurd ⟨b, c, rest, rfl⟩ h

/-- A pair is merged. -/
theorem SearchAt.merge
    (h : SearchAt head tail size m₀ blocks sweep best (b :: c :: rest) s m)
    (hmerge : b.isFree ∧ c.isFree ∧ b.size = c.size)
    (hm' : m' = putSize m s.block (b.size <<< 1)) :
    SearchAt head tail size m₀ blocks (sweep.merge b)
      (betterMergedAt size (sweep.merge b).blocks ⟨b.size <<< 1, true⟩ sweep.blocks.length best)
      rest ⟨(nextPair m' tail s.buddy).1, (nextPair m' tail s.buddy).2,
        betterMerged m' size s.block s.bestBlock⟩ m' := by
  have htiles := h.change.tiles
  have hresult := h.result
  rw [searchBlocks, if_pos hmerge] at hresult
  obtain ⟨hfree, -, hsize⟩ := hmerge
  obtain ⟨hmerged, -, -, hnext⟩ := h.pair.merge htiles hfree hsize hm'
  have hchange := h.change.trans hmerged
  have htiles' := hchange.tiles
  rw [← List.append_cons] at htiles'
  have hdouble := (htiles.sizes.merge hsize true).1
  have hle : b.size ≤ b.size <<< 1 := by
    rw [BitVec.le_def, hdouble]
    omega
  obtain ⟨hbest, hcand⟩ := (h.candidate.merge hle).betterMerged htiles' rfl h.best_eq
    h.pair.block_eq (List.append_cons _ _ _) (by simp)
  refine ⟨hchange, hchange.tiles.nextPair hnext, ?_, hcand.move [_], hresult⟩
  exact hbest.trans (bestPlace_append _ fun j hj => (hcand j hj).1).symm

/-- A look at both blocks of a pair. -/
theorem SearchAt.better
    (h : SearchAt head tail size m₀ blocks sweep best (b :: c :: rest) s m)
    (hbest' : best' = betterAt size (sweep.blocks ++ [b, c]) c (sweep.blocks.length + 1)
      (betterAt size (sweep.blocks ++ [b, c]) b sweep.blocks.length best)) :
    betterBlock m size s.buddy (betterBlock m size s.block s.bestBlock) =
        bestPlace head (sweep.blocks ++ [b]) best' ∧
      Candidate size (sweep.blocks ++ [b]) (c :: rest) best' := by
  have htiles := h.change.tiles
  have htiles' := htiles
  rw [List.append_cons] at htiles'
  obtain ⟨hbest₁, hcand₁⟩ := h.candidate.better (sweep.blocks ++ [b, c]) rest htiles h.best_eq
    h.pair.block_eq (by simp) (by simp)
  rw [← bestPlace_append [b] fun j hj => (hcand₁ j hj).1] at hbest₁
  have hbetter := (hcand₁.move [b]).better (sweep.blocks ++ [b, c]) rest htiles' hbest₁
    (h.pair.buddy_eq rfl) (by simp) (by simp)
  rw [List.length_append, List.length_singleton, ← hbest'] at hbetter
  exact hbetter

/-- A pair is passed. -/
theorem SearchAt.skip {bestBlock : U64}
    (h : SearchAt head tail size m₀ blocks sweep best (b :: c :: rest) s m)
    (hbest : bestBlock = bestPlace head (sweep.blocks ++ [b]) best')
    (hcand : Candidate size (sweep.blocks ++ [b]) (c :: rest) best')
    (hresult : searchBlocks size sweep best (b :: c :: rest) =
      searchBlocks size (sweep.add [b, c]) best' rest) :
    SearchAt head tail size m₀ blocks (sweep.add [b, c]) best' rest
      ⟨(nextPair m tail s.buddy).1, (nextPair m tail s.buddy).2, bestBlock⟩ m := by
  have hcand' := hcand.move [c]
  rw [List.append_assoc] at hcand'
  refine ⟨h.change.add, h.pair.skip h.change.tiles, ?_, hcand', hresult.symm.trans h.result⟩
  dsimp only
  rw [hbest, ← bestPlace_append [c] fun j hj => (hcand j hj).1, List.append_assoc]
  rfl

theorem SearchAt.left_lt {x : BuddyBlock} {xs : List BuddyBlock}
    (h : SearchAt head tail size m₀ blocks sweep best (b :: rest) s m)
    (h' : SearchAt head tail size m₀ blocks sweep' best' rest' s' m')
    (hsweep : sweep'.blocks = sweep.blocks ++ x :: xs) :
    tail.toNat - s'.block.toNat < tail.toNat - s.block.toNat :=
  h.pair.left_lt h.change.tiles (hsweep ▸ h'.pair) (hsweep ▸ h'.change.tiles)

/-- A round passes some blocks, or merges a pair. -/
theorem searchRound_returns
    (h : SearchAt head tail size m₀ blocks sweep best rest s m) :
    ReturnsWith (searchRound tail size s m) fun r m' => match r with
      | .inl next => (∃ sweep' best' rest',
          SearchAt head tail size m₀ blocks sweep' best' rest' next m') ∧
          tail.toNat - next.block.toNat < tail.toNat - s.block.toNat
      | .inr bestBlock =>
          BuddyChange head tail m₀ m' (searchBlocks size .empty none blocks).1.blocks ∧
          bestBlock = bestPlace head (searchBlocks size .empty none blocks).1.blocks
            (searchBlocks size .empty none blocks).2 ∧
          ∀ i ∈ (searchBlocks size .empty none blocks).2,
            ∃ b, (searchBlocks size .empty none blocks).1.blocks[i]? = some b ∧
              b.isFree = true ∧ size ≤ b.size := by
  have htiles := h.change.tiles
  have hrange := h.pair.inRange_iff htiles
  unfold searchRound
  rw [get_bind]
  by_cases hpair : ∃ b c rest', rest = b :: c :: rest'
  · rw [if_pos (hrange.mpr hpair)]
    obtain ⟨b, c, rest, rfl⟩ := hpair
    rw [h.pair.read_block htiles, h.pair.read_buddy htiles]
    obtain ⟨hbest, hcand⟩ := h.better rfl
    split_ifs with hmerge hlt
    · rw [set_bind]
      have hmerged := h.merge hmerge rfl
      exact ReturnsWith.pure ⟨⟨_, _, _, hmerged⟩, h.left_lt hmerged rfl⟩
    · have hskip := h.skip hbest hcand (by rw [searchBlocks, if_neg hmerge, if_pos hlt])
      exact ReturnsWith.pure ⟨⟨_, _, _, hskip⟩, h.left_lt hskip rfl⟩
    · have hresult := h.result
      rw [searchBlocks, if_neg hmerge, if_neg hlt] at hresult
      have hshift : SearchAt head tail size m₀ blocks (sweep.add [b]) _ (c :: rest)
          ⟨s.buddy, nextBuddy m s.buddy, _⟩ m :=
        ⟨h.change.add, h.pair.shift htiles, hbest, hcand, hresult⟩
      exact ReturnsWith.pure ⟨⟨_, _, _, hshift⟩, h.left_lt hshift rfl⟩
  · rw [if_neg (mt hrange.mp hpair), ← h.result, searchBlocks_of_not_pair sweep best hpair]
    have hle : ∀ j ∈ best, j ≤ sweep.blocks.length := fun j hj => (h.candidate j hj).1
    have hbest := h.best_eq.trans (bestPlace_append rest hle).symm
    exact ReturnsWith.pure ⟨h.change, hbest, fun i hi => (h.candidate i hi).2⟩

/-- The loop of `findBestBuddy` leaves the blocks of the search, and the best one. -/
theorem searchLoop_returns (h : BuddyTiles m head tail blocks) {rounds : Nat}
    (hrounds : 2 ^ 64 ≤ rounds) :
    ReturnsWith (loop .outOfFuel (searchRound tail size) rounds ⟨head, nextBuddy m head, 0⟩ m)
      fun bestBlock m' =>
        BuddyChange head tail m m' (searchBlocks size .empty none blocks).1.blocks ∧
        bestBlock = bestPlace head (searchBlocks size .empty none blocks).1.blocks
          (searchBlocks size .empty none blocks).2 ∧
        ∀ i ∈ (searchBlocks size .empty none blocks).2,
          ∃ b, (searchBlocks size .empty none blocks).1.blocks[i]? = some b ∧
            b.isFree = true ∧ size ≤ b.size := by
  have hstart : SearchAt head tail size m blocks .empty none blocks
      ⟨head, nextBuddy m head, 0⟩ m := by
    refine ⟨BuddyChange.refl h, ?_, rfl, Candidate.start, rfl⟩
    apply BuddyTiles.pair h
    · exact placeAfter_nil.symm
    · exact fun _ => rfl
  apply loop_returns
    (fun s m' => ∃ sweep best rest, SearchAt head tail size m blocks sweep best rest s m')
    (fun s _ => tail.toNat - s.block.toNat)
  · rintro s m' ⟨sweep, best, rest, hs⟩
    apply (searchRound_returns hs).weaken
    rintro (next | r) _ hround <;> exact hround
  · exact ⟨.empty, none, blocks, hstart⟩
  · have hlt := tail.isLt
    dsimp only
    omega

end Search

end Homegrown
