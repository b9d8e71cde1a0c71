import Homegrown.Shared.Memory.BuddyAlignment
import Homegrown.Shared.Memory.BuddySafety

/-!
# What the buddy allocator gives back

`findBestBuddy` and `coalesceBuddies` merge neighbours of one size wherever the pair starts, and
`coalesceBuddies` does not start over after it merged a pair that ends the region. In a run where
this does not happen, every block starts at a multiple of its size, and when everything was given
back the region is one free block (`buddyRun_givesBack`).
-/

namespace Homegrown

/-- The search of the blocks ends with one that is large enough. -/
def Serves (size : U64) (blocks : List BuddyBlock) : Prop :=
  ∃ i ∈ (findBlocks size blocks).2, ∃ b ∈ (findBlocks size blocks).1.blocks[i]?, size ≤ b.size

/-- Where twice the size of a request may wrap, no block is split for it. -/
def SplitsWell (size : U64) (blocks : List BuddyBlock) : Prop :=
  size.toNat < 2 ^ 63 ∨ ¬ Splits size blocks ∧ ¬ Splits size (secondBlocks size blocks)

/-- The searches of a request, and the coalescing between them, merge buddies only. -/
def SearchesBuddies (size : U64) (blocks : List BuddyBlock) : Prop :=
  (findBlocks size blocks).1.MergesBuddies ∧ (Serves size blocks ∨
    CoalescesBuddies (findBlocks size blocks).1.blocks ∧
      (findBlocks size (secondBlocks size blocks)).1.MergesBuddies)

/-- The block behind some bytes is free. -/
def freeAt : Nat → List BuddyBlock → List BuddyBlock
  | _, [] => []
  | 0, b :: blocks => ⟨b.size, true⟩ :: blocks
  | p + 1, b :: blocks => b :: freeAt (p + 1 - b.size.toNat) blocks

/-- The call merges buddies only and splits no block in vain, and when it frees the last block
in use, then its last sweep does not end with a merge that leaves two blocks. -/
def BuddyCall.Returning (s : BuddyState) : BuddyCall → Prop
  | buddyAlloc size count _ =>
    let total := size * count + buddyBlockBytes
    SplitsWell total s.blocks ∧ SearchesBuddies total s.blocks
  | freeBuddy data =>
    let blocks := freeAt (data - buddyBlockBytes - s.allocator.head).toNat s.blocks
    CoalescesBuddies blocks ∧ CoalescesAll blocks
  | store _ _ => True

/-- A valid call that keeps buddies together. -/
def ReturningStep (rounds : Nat) (s t : BuddyState) : Prop :=
  ∃ call : BuddyCall, call.Valid s ∧ call.Returning s ∧ call.run rounds s = .ok t

instance (size : U64) (blocks : List BuddyBlock) : Decidable (Serves size blocks) :=
  inferInstanceAs (Decidable (∃ i ∈ (findBlocks size blocks).2,
    ∃ b ∈ (findBlocks size blocks).1.blocks[i]?, size ≤ b.size))

/-! ## The searches -/

section Find

variable {m m' : U64 → U8} {head tail size r : U64} {blocks pre post : List BuddyBlock}
  {b : BuddyBlock} {rounds : Nat}

/-- Twice a size that is less than half of all sizes is at least a header. -/
theorem wraps_of_splits {P : Prop} (hsize : 16 ≤ size.toNat) (h : size.toNat < 2 ^ 63 ∨ P) :
    16 ≤ (size * 2).toNat ∨ P := by
  apply h.imp_left
  intro hlt
  rw [BitVec.toNat_mul, show (2 : U64).toNat = 2 from rfl, Nat.mod_eq_of_lt (by omega)]
  omega

/-- A search that fails has split nothing, and its block was too small. -/
theorem Found.refused (h : Found head tail size m blocks r m') (hr : r = 0)
    (hsplits : size.toNat < 2 ^ 63 ∨ ¬ Splits size blocks) :
    BuddyChange head tail m m' (findBlocks size blocks).1.blocks ∧ ¬ Serves size blocks := by
  cases h with
  | none hbest hchange =>
    refine ⟨hchange, ?_⟩
    rintro ⟨i, hi, -⟩
    rw [hbest] at hi
    cases hi
  | split hbest hblocks hsplit hlarge =>
    rename_i pre whole post n last
    have hplace : last.toNat = head.toNat + extent BuddyBlock.size (pre ++ halves whole n) := by
      rw [hsplit.place]
      exact hsplit.tiles.toNat_place
    have hpos := hsplit.tiles.head_pos
    have hsmall : ¬ size ≤ whole >>> n := by
      intro hle
      rw [if_pos hle] at hr
      rw [hr] at hplace
      change 0 = _ at hplace
      omega
    -- A part that is more than twice the size has halves that are large enough.
    have hn : n = 0 := by
      rcases hsplits with hlt | hsplits
      · rcases hsplit.large with hn | hlarge'
        · exact hn
        · exfalso
          obtain _ | n := n
          · exact hlarge hlarge'
          · rw [Nat.add_sub_cancel] at hlarge'
            rw [← shiftRight_succ, BitVec.le_def, BitVec.toNat_ushiftRight,
              Nat.shiftRight_one] at hsmall
            rw [BitVec.lt_def, BitVec.toNat_mul, show (2 : U64).toNat = 2 from rfl,
              Nat.mod_eq_of_lt (by omega)] at hlarge'
            omega
      · exact hsplit.eq_zero (le_of_not_splits hsplits hbest hblocks)
    subst hn
    constructor
    · have hchange := hsplit.change
      rw [hblocks]
      simpa using hchange
    · rintro ⟨i, hi, b, hb, hle⟩
      rw [hbest] at hi
      obtain rfl := Option.some.inj hi
      rw [hblocks] at hb
      simp only [List.getElem?_append_right le_rfl, Nat.sub_self, List.getElem?_cons_zero,
        Option.mem_def, Option.some.injEq] at hb
      rw [← hb] at hle
      exact hsmall (by simpa using hle)

/-- What the searches leave where they find nothing. -/
structure Unserved (blocks blocks' : List BuddyBlock) : Prop where
  use : AlignedUse blocks blocks'
  single : ∀ whole, blocks = [⟨whole, true⟩] → blocks' = blocks

/-- The searches of a request that merge buddies only keep the places of the blocks. -/
theorem findBuddy_returning (h : BuddyTiles m head tail blocks)
    (hpos : 0 < extent BuddyBlock.size blocks) (hsize : 16 ≤ size.toNat)
    (haligned : AlignedFrom 0 blocks) (hsplits : SplitsWell size blocks)
    (hbuddies : SearchesBuddies size blocks) (hrounds : 2 ^ 64 ≤ rounds) :
    ReturnsWith (findBuddy rounds ⟨head, tail⟩ size m) fun r m' => ∃ blocks',
      Served (AlignedUse blocks) head tail size m r m' blocks' ∧
        (r = 0 → Unserved blocks blocks') := by
  have huse : AlignedUse blocks blocks := ⟨SameUse.refl h.sizes, haligned⟩
  have hne : size ≠ 0 := by
    rintro rfl
    exact absurd hsize (by decide)
  have hsplit : ∀ pre half post, 16 < half.toNat → AlignedUse blocks (pre ++ ⟨half, true⟩ :: post) →
      AlignedUse blocks (pre ++ ⟨half >>> 1, true⟩ :: ⟨half >>> 1, true⟩ :: post) :=
    fun _ _ _ hlt hsame => hsame.split hlt
  have hsplits₁ : size.toNat < 2 ^ 63 ∨ ¬ Splits size blocks := hsplits.imp_right And.left
  have hsplits₂ : size.toNat < 2 ^ 63 ∨ ¬ Splits size (secondBlocks size blocks) :=
    hsplits.imp_right And.right
  have hwrap₁ := wraps_of_splits hsize hsplits₁
  have hwrap₂ := wraps_of_splits hsize hsplits₂
  have huse₁ := huse.findBlocks hbuddies.1
  unfold findBuddy
  apply (findBestBuddy_returns h (huse.same.ne_nil hpos) hne hwrap₁ hrounds).bind
  intro r m₁ hfound
  by_cases hr : r = 0
  · rw [if_pos hr]
    obtain ⟨hchange, hserves⟩ := hfound.refused hr hsplits₁
    obtain ⟨hcoalesces, hsecond⟩ := hbuddies.2.resolve_left hserves
    have huse₂ : AlignedUse blocks (secondBlocks size blocks) := huse₁.lastSweep hcoalesces
    apply (coalesceBuddies_returns hchange.tiles hrounds).bind
    intro _ m₂ hcoalesced
    have hchange₂ := hchange.trans hcoalesced
    apply (findBestBuddy_returns hcoalesced.tiles (huse₂.same.ne_nil hpos) hne hwrap₂
      hrounds).weaken
    intro r' m' hfound'
    by_cases hr' : r' = 0
    · obtain ⟨hchange', -⟩ := hfound'.refused hr' hsplits₂
      refine ⟨_, ⟨hchange₂.trans hchange', huse₂.findBlocks hsecond, fun hne' => absurd hr' hne'⟩,
        fun _ => ⟨huse₂.findBlocks hsecond, ?_⟩⟩
      rintro whole rfl
      rfl
    · obtain ⟨blocks', hserved⟩ := hfound'.served (huse₂.findBlocks hsecond) hsplit hwrap₂
      exact ⟨blocks', ⟨hchange₂.trans hserved.change, hserved.keeps, hserved.found⟩,
        fun h0 => absurd h0 hr'⟩
  · rw [if_neg hr]
    obtain ⟨blocks', hserved⟩ := hfound.served huse₁ hsplit hwrap₁
    exact ReturnsWith.pure ⟨blocks', hserved, fun h0 => absurd h0 hr⟩

/-- The block that starts behind others is found. -/
theorem freeAt_append (hvalid : ∀ x ∈ pre, x.Valid) :
    freeAt (extent BuddyBlock.size pre) (pre ++ b :: post) = pre ++ ⟨b.size, true⟩ :: post := by
  induction pre with
  | nil => rfl
  | cons x pre ih =>
    have hx := (hvalid x List.mem_cons_self).le_size
    obtain ⟨p, hp⟩ : ∃ p, extent BuddyBlock.size (x :: pre) = p + 1 := by
      rw [extent_cons]
      exact ⟨x.size.toNat + extent BuddyBlock.size pre - 1, by omega⟩
    have hrest : p + 1 - x.size.toNat = extent BuddyBlock.size pre := by
      rw [← hp, extent_cons, Nat.add_sub_cancel_left]
    rw [hp, List.cons_append, freeAt, hrest, ih fun y hy => hvalid y (List.mem_cons_of_mem _ hy),
      List.cons_append]

end Find

/-! ## Runs -/

/-- The blocks of an allocator in use start at multiples of their sizes, and when nothing is
outstanding there is one. -/
structure BuddyState.Whole (m₀ : U64 → U8) (data size : U64) (s : BuddyState)
    (blocks : List BuddyBlock) : Prop where
  inv : s.Inv m₀ data size blocks
  aligned : AlignedFrom 0 blocks
  whole : s.held = [] → blocks = [⟨size, true⟩]

section Runs

variable {m₀ m' : U64 → U8} {data size ptr : U64} {s t : BuddyState} {k rounds bytes : Nat}
  {blocks blocks' pre post : List BuddyBlock} {b : BuddyBlock} {r : BuddyResult}

/-- When nothing is outstanding, all blocks are free. -/
theorem BuddyState.Inv.all_free (hs : s.Inv m₀ data size blocks) (hheld : s.held = []) :
    ∀ b ∈ blocks, b.isFree = true := by
  have hnone : usedSpans data.toNat blocks = [] := by
    apply List.eq_nil_iff_forall_not_mem.mpr
    intro u hu
    obtain ⟨h, hh, -⟩ := hs.held.has_owner u hu
    rw [hheld] at hh
    cases hh
  exact usedSpans_eq_nil_iff.mp hnone

/-- After a request. -/
theorem BuddyState.Whole.alloc (hs : s.Whole m₀ data size blocks)
    (h : Allocated (AlignedUse blocks) (Unserved blocks) data (data + size) s.memory bytes r m') :
    ∃ blocks', (s.answer bytes m' r).Whole m₀ data size blocks' := by
  obtain ⟨blocks', hinv, ⟨hheld, hunserved⟩ | ⟨hheld, pre, whole, post, rfl, huse⟩⟩ :=
    hs.inv.alloc AlignedUse.same (fun hunserved => hunserved.use.same) h
  · refine ⟨blocks', hinv, hunserved.use.aligned, fun hnone => ?_⟩
    rw [hheld] at hnone
    have hblocks := hs.whole hnone
    rw [hunserved.single size hblocks, hblocks]
  · refine ⟨_, hinv, ?_, fun hnone => absurd hnone hheld⟩
    exact (alignedFrom_mark (b := ⟨whole, true⟩)).mpr huse.aligned

/-- After a payload was freed. -/
theorem BuddyState.Whole.free (hs : s.Whole m₀ data size (pre ++ b :: post))
    (hsize : IsTwoPow size k)
    (hptr : ptr.toNat = data.toNat + extent BuddyBlock.size pre + 16)
    (hbuddies : CoalescesBuddies (pre ++ ⟨b.size, true⟩ :: post))
    (hall : CoalescesAll (pre ++ ⟨b.size, true⟩ :: post))
    (hchange : BuddyChange data (data + size) s.memory m'
      (lastSweep (pre ++ ⟨b.size, true⟩ :: post)).blocks) :
    BuddyState.Whole m₀ data size
      ⟨m', s.allocator, s.held.filter fun h => h.start ≠ ptr.toNat⟩
      (lastSweep (pre ++ ⟨b.size, true⟩ :: post)).blocks := by
  have hinv := hs.inv.free hptr hchange
  have hsizes := (hs.inv.change.tiles.putFree true).tiles.sizes
  have haligned : AlignedFrom 0 (pre ++ ⟨b.size, true⟩ :: post) := alignedFrom_mark.mpr hs.aligned
  have huse : AlignedUse _ (lastSweep (pre ++ ⟨b.size, true⟩ :: post)).blocks :=
    AlignedUse.lastSweep ⟨SameUse.refl hsizes, haligned⟩ hbuddies
  refine ⟨hinv, huse.aligned, fun hnone => ?_⟩
  have hfree' := hinv.all_free hnone
  have hfree : ∀ x ∈ pre ++ ⟨b.size, true⟩ :: post, x.isFree = true := by
    have hused := huse.same.used 0
    rw [usedSpans_eq_nil_iff.mpr hfree'] at hused
    exact usedSpans_eq_nil_iff.mp hused.symm
  have hend := huse.same.bytes.symm.trans hinv.bytes
  obtain ⟨c, hc⟩ := lastSweep_single hsizes haligned hfree (hend.trans hsize) hbuddies hall
  have hbytes := hinv.bytes
  rw [hc] at hfree' hbytes ⊢
  rw [extent_cons, extent_nil] at hbytes
  rw [← BitVec.eq_of_toNat_eq hbytes, ← hfree' c List.mem_cons_self]

/-- A valid call that keeps buddies together keeps the invariant. -/
theorem BuddyState.Whole.step (hs : s.Whole m₀ data size blocks) (hsize : IsTwoPow size k)
    (hrounds : 2 ^ 64 ≤ rounds) (hstep : ReturningStep rounds s t) :
    ∃ blocks', t.Whole m₀ data size blocks' := by
  obtain ⟨call, hvalid, hreturning, hrun⟩ := hstep
  cases call with
  | buddyAlloc bytes count flags =>
    obtain ⟨hslt, hfits⟩ := hvalid
    obtain ⟨-, hsum, -⟩ := toNat_total hfits
    rw [BuddyCall.Returning, hs.inv.blocks_eq] at hreturning
    obtain ⟨hsplits, hbuddies⟩ := hreturning
    have hpos : 0 < extent BuddyBlock.size blocks := by
      rw [hs.inv.bytes, hsize]
      exact Nat.two_pow_pos k
    have hfind := findBuddy_returning hs.inv.change.tiles hpos (by omega) hs.aligned hsplits
      hbuddies hrounds
    obtain ⟨r, m', halloc, hallocated⟩ : ReturnsWith
        (buddyAlloc rounds ⟨data, data + size⟩ bytes count flags s.memory) _ :=
      buddyAlloc_returns hslt hfits hfind
    rw [BuddyCall.run, hs.inv.allocator, halloc] at hrun
    obtain rfl := Except.ok.inj hrun
    exact hs.alloc hallocated
  | freeBuddy ptr =>
    obtain ⟨h, hheld, hptr⟩ := hvalid
    obtain ⟨pre, b, post, rfl, -, hstart, -, hplace⟩ := hs.inv.exists_block hheld
    have hptr' : ptr.toNat = data.toNat + extent BuddyBlock.size pre + 16 := by
      rw [← hptr, hstart, hplace]
    have hoffset : (ptr - buddyBlockBytes - data).toNat = extent BuddyBlock.size pre := by
      have hheader : buddyBlockBytes ≤ ptr := by
        rw [BitVec.le_def, hptr']
        exact Nat.le_add_left _ _
      have hsub : (ptr - buddyBlockBytes).toNat = data.toNat + extent BuddyBlock.size pre := by
        rw [BitVec.toNat_sub_of_le hheader, hptr']
        exact Nat.add_sub_cancel _ _
      rw [BitVec.toNat_sub_of_le, hsub, Nat.add_sub_cancel_left]
      rw [BitVec.le_def, hsub]
      exact Nat.le_add_right _ _
    have hvalid : ∀ x ∈ pre, x.Valid := fun x hx => hs.inv.change.tiles.valid x (by simp [hx])
    rw [BuddyCall.Returning, hs.inv.blocks_eq, hs.inv.allocator, hoffset,
      freeAt_append hvalid] at hreturning
    have hfreed := freeBuddy_returns hs.inv.change.tiles (hptr ▸ hstart) hrounds
    rw [← hs.inv.allocator] at hfreed
    rcases hfreed with herror | ⟨u, m', hfree, hchange⟩
    · rw [BuddyCall.run, herror] at hrun
      cases hrun
    · rw [BuddyCall.run, hfree] at hrun
      obtain rfl := Except.ok.inj hrun
      exact ⟨_, hs.free hsize hptr' hreturning.1 hreturning.2 hchange⟩
  | store p bytes =>
    obtain rfl := Except.ok.inj hrun
    exact ⟨blocks, hs.inv.store hvalid, hs.aligned, hs.whole⟩

/-- The bytes of a request for the whole region. -/
theorem whole_request (hheader : 16 < size.toNat) (hlt : size.toNat < 2 ^ 63) :
    (size - buddyBlockBytes).toNat = size.toNat - 16 ∧
      (size - buddyBlockBytes) * 1 + buddyBlockBytes = size ∧
      (0 : I64).slt (size - buddyBlockBytes) = true := by
  have hbytes : buddyBlockBytes.toNat = 16 := rfl
  have hsub : (size - buddyBlockBytes).toNat = size.toNat - 16 := by
    rw [BitVec.toNat_sub_of_le, hbytes]
    rw [BitVec.le_def, hbytes]
    exact hheader.le
  refine ⟨hsub, ?_, ?_⟩
  · rw [show (1 : I64) = 1#64 from rfl, BitVec.mul_one, BitVec.sub_add_cancel]
  · have hint : (size - buddyBlockBytes).toInt = (size - buddyBlockBytes).toNat :=
      BitVec.toInt_eq_toNat_of_lt (by omega)
    have hzero : (0 : I64).toInt = 0 := rfl
    rw [BitVec.slt_eq_decide, decide_eq_true_iff, hint, hzero, hsub]
    omega

/-- A request for the whole region succeeds when it is one free block. -/
theorem BuddyState.Inv.alloc_whole (hs : s.Inv m₀ data size [⟨size, true⟩])
    (hheader : 16 < size.toNat) (hlt : size.toNat < 2 ^ 63) (flags : U8)
    (hrounds : 2 ^ 64 ≤ rounds) :
    ReturnsWith (buddyAlloc rounds s.allocator (size - buddyBlockBytes) 1 flags s.memory)
      fun r _ => r = .payload (data + buddyBlockBytes) := by
  obtain ⟨hsub, htotal, hslt⟩ := whole_request hheader hlt
  have hone : (1 : I64).toNat = 1 := rfl
  have hheader' : buddyBlockBytes.toNat = 16 := rfl
  have hwrap : size.toNat < 2 ^ 63 ∨ ¬ Splits size [⟨size, true⟩] := Or.inl hlt
  have hwrap' := wraps_of_splits hheader.le hwrap
  have hne : size ≠ 0 := by
    rintro rfl
    exact absurd hheader (by decide)
  have htiles := hs.change.tiles
  have hfind (total : U64) (htotal : total = size) :
      ReturnsWith (findBuddy rounds ⟨data, data + size⟩ total s.memory) fun r m' =>
        ∃ blocks, Served (SameUse [⟨size, true⟩]) data (data + size) total s.memory r m' blocks ∧
          (r = 0 → False) := by
    rw [htotal]
    unfold findBuddy
    apply (findBestBuddy_returns htiles (List.cons_ne_nil _ _) hne hwrap' hrounds).bind
    intro r m₁ hfound
    have hr : r ≠ 0 := by
      intro h0
      exact (hfound.refused h0 hwrap).2 ⟨0, rfl, ⟨size, true⟩, rfl, BitVec.le_refl size⟩
    rw [if_neg hr]
    obtain ⟨blocks, hserved⟩ := hfound.served (findBlocks_sameUse htiles.sizes size)
      (fun _ _ _ hlt hsame => hsame.split hlt) hwrap'
    exact ReturnsWith.pure ⟨blocks, hserved, hr⟩
  rw [hs.allocator]
  apply (buddyAlloc_returns hslt (by rw [hsub, hone]; omega) (hfind _ htotal)).weaken
  intro r m' hallocated
  cases hallocated with
  | refused hr hchange hblocks => exact hblocks.elim
  | payload hblocks hchange hbytes =>
    rename_i pre whole post
    have hsum := hblocks.bytes
    rw [hsub, hone] at hbytes
    rw [extent_append, extent_cons, extent_cons, extent_nil] at hsum
    dsimp only at hsum
    rw [placeAfter, show extent BuddyBlock.size pre = 0 by omega]
    change BuddyResult.payload (data + 0#64 + _) = _
    rw [BitVec.add_zero]

/-- In a run that keeps buddies together, every block starts at a multiple of its size, and when
nothing is outstanding the region is one free block, which a request for all of it gets. -/
theorem buddyRun_givesBack {m : U64 → U8} {a : BuddyAllocator} (hdata : data ≠ 0)
    (hfits : data.toNat + size.toNat < 2 ^ 64)
    (hcreate : createBuddyAllocator m₀ data size = some (m, a)) (hrounds : 2 ^ 64 ≤ rounds)
    (hrun : Relation.ReflTransGen (ReturningStep rounds) ⟨m, a, []⟩ s) :
    (∀ pre b post, s.blocks = pre ++ b :: post → b.size.toNat ∣ extent BuddyBlock.size pre) ∧
      (s.held = [] → s.blocks = [⟨size, true⟩] ∧ (size.toNat < 2 ^ 63 → ∀ flags,
        ReturnsWith (buddyAlloc rounds s.allocator (size - buddyBlockBytes) 1 flags s.memory)
          fun r _ => r = .payload (data + buddyBlockBytes))) := by
  obtain ⟨hnew, hheader⟩ := create_inv hdata hfits hcreate
  have hvalid := hnew.change.tiles.valid ⟨size, true⟩ List.mem_cons_self
  obtain ⟨k, -, hsize⟩ := hvalid
  have hwhole : ∃ blocks, s.Whole m₀ data size blocks := by
    induction hrun with
    | refl => exact ⟨_, hnew, ⟨Nat.dvd_zero _, trivial⟩, fun _ => rfl⟩
    | tail _ hstep ih =>
      obtain ⟨blocks, hs⟩ := ih
      exact hs.step hsize hrounds hstep
  obtain ⟨blocks, hs⟩ := hwhole
  rw [hs.inv.blocks_eq]
  constructor
  · rintro pre b post rfl
    exact hs.aligned.dvd
  · intro hheld
    have hblocks := hs.whole hheld
    refine ⟨hblocks, fun hlt flags => ?_⟩
    subst hblocks
    exact hs.inv.alloc_whole hheader hlt flags hrounds

/-- Eight bytes of a region of 64 are handed out and freed. -/
theorem buddyRun_givesBack_64 : ∃ m a s t,
    createBuddyAllocator (fun _ => 0) 4096 64 = some (m, a) ∧
    ReturningStep (2 ^ 64) ⟨m, a, []⟩ s ∧ s.blocks = [⟨32, true⟩, ⟨32, false⟩] ∧
    ReturningStep (2 ^ 64) s t ∧ t.held = [] ∧ t.blocks = [⟨64, true⟩] := by
  obtain ⟨m, hm⟩ : ∃ m, m = putFree (putSize (fun _ => 0) 4096 64) 4096 true := ⟨_, rfl⟩
  have hcreate : createBuddyAllocator (fun _ => 0) 4096 64 = some (m, ⟨4096, 4160⟩) := by
    rw [hm]
    rfl
  have hcalls : ((BuddyCall.buddyAlloc 8 1 0).run (2 ^ 64) ⟨m, ⟨4096, 4160⟩, []⟩).bind (fun s =>
      ((BuddyCall.freeBuddy 4144).run (2 ^ 64) s).map fun t =>
        (s.held, s.allocator, s.blocks, t.held)) =
      .ok ([⟨4144, 8⟩], ⟨4096, 4160⟩, [⟨32, true⟩, ⟨32, false⟩], []) := by
    rw [hm]
    decide +kernel
  cases halloc : (BuddyCall.buddyAlloc 8 1 0).run (2 ^ 64) ⟨m, ⟨4096, 4160⟩, []⟩ with
  | error e =>
    rw [halloc] at hcalls
    cases hcalls
  | ok s =>
    rw [halloc] at hcalls
    obtain ⟨t, hfree, hparts⟩ := exists_ok_of_map hcalls
    simp only [Prod.mk.injEq] at hparts
    obtain ⟨hheld, hallocator, hblocks, hnone⟩ := hparts
    have hstep : ReturningStep (2 ^ 64) ⟨m, ⟨4096, 4160⟩, []⟩ s := by
      refine ⟨.buddyAlloc 8 1 0, ⟨by decide, by decide⟩, ⟨Or.inl (by decide), ?_, Or.inl ?_⟩,
        halloc⟩
      · rw [hm]
        decide +kernel
      · rw [hm]
        decide +kernel
    have hstep' : ReturningStep (2 ^ 64) s t := by
      refine ⟨.freeBuddy 4144, ⟨⟨4144, 8⟩, ?_, rfl⟩, ?_, hfree⟩
      · rw [hheld]
        exact List.mem_cons_self
      · rw [BuddyCall.Returning, hblocks, hallocator]
        decide +kernel
    have hreturned := buddyRun_givesBack (by decide) (by decide) hcreate le_rfl
      (.tail (.single hstep) hstep')
    exact ⟨m, _, s, t, hcreate, hstep, hblocks, hstep', hnone, (hreturned.2 hnone).1⟩

/-- Two blocks in the middle of the region are merged though they are no buddies. When everything
was given back, the block of 128 bytes still starts at 64. -/
theorem findBestBuddy_merges_others : ∃ m a s,
    createBuddyAllocator (fun _ => 0) 4096 256 = some (m, a) ∧
    Relation.ReflTransGen (BuddyStep (2 ^ 64)) ⟨m, a, []⟩ s ∧ s.held = [] ∧
    s.blocks = [⟨64, true⟩, ⟨128, true⟩, ⟨64, true⟩] := by
  have hcalls : (runBuddyCalls (2 ^ 64)
      ⟨putFree (putSize (fun _ => 0) 4096 256) 4096 true, ⟨4096, 4352⟩, []⟩
      [.buddyAlloc 24 1 0, .buddyAlloc 24 1 0, .buddyAlloc 24 1 0, .buddyAlloc 24 1 0,
        .freeBuddy 4176, .freeBuddy 4240, .buddyAlloc 84 1 0, .freeBuddy 4176, .freeBuddy 4112,
        .freeBuddy 4304]).map (fun s => (s.held, s.blocks)) =
      some ([], [⟨64, true⟩, ⟨128, true⟩, ⟨64, true⟩]) := by decide +kernel
  obtain ⟨s, hrun, hparts⟩ := Option.map_eq_some_iff.mp hcalls
  rw [Prod.mk.injEq] at hparts
  exact ⟨_, _, s, rfl, runBuddyCalls_reaches hrun, hparts.1, hparts.2⟩

end Runs

end Homegrown
