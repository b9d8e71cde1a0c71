import Homegrown.Shared.Memory.BuddyFind
import Mathlib.Logic.Relation

/-!
# Safety of the buddy allocator

The blocks tile the region, and the payloads that are outstanding lie in blocks of their own. The
loop in `splitBuddy` compares with twice the size of the request, which may wrap to a number that
is less than a header: then it splits blocks that have no room for the headers of their parts.
In a run whose requests do not do this everything stays in place (`buddyRun_safe`).
-/

namespace Homegrown

/-- An allocator in use: `held` lists the payloads that are outstanding. -/
structure BuddyState where
  memory : U64 → U8
  allocator : BuddyAllocator
  held : List Span

/-- The blocks that `nextBuddy` reaches from the head. -/
def BuddyState.blocks (s : BuddyState) : List BuddyBlock :=
  records (readBuddy s.memory) BuddyBlock.size s.allocator.tail (s.allocator.tail -
    s.allocator.head).toNat s.allocator.head

/-- What the callers of an allocator do: calls, and stores of bytes. -/
inductive BuddyCall where
  | buddyAlloc (size count : I64) (flags : U8)
  | freeBuddy (data : U64)
  | store (p : U64) (data : List U8)

/-- The caller has the payload of some bytes that was returned. -/
def BuddyState.answer (s : BuddyState) (bytes : Nat) (m : U64 → U8) : BuddyResult → BuddyState
  | .payload p => ⟨m, s.allocator, ⟨p.toNat, bytes⟩ :: s.held⟩
  | .nullptr | .longjmp => ⟨m, s.allocator, s.held⟩

/-- The state after a call. -/
def BuddyCall.run (rounds : Nat) (s : BuddyState) : BuddyCall → Except BuddyFault BuddyState
  | buddyAlloc size count flags =>
    match Homegrown.buddyAlloc rounds s.allocator size count flags s.memory with
    | .ok r m => .ok (s.answer (size.toNat * count.toNat) m r)
    | .error e _ => .error e
  | freeBuddy data =>
    match Homegrown.freeBuddy rounds s.allocator data s.memory with
    | .ok _ m => .ok ⟨m, s.allocator, s.held.filter fun h => h.start ≠ data.toNat⟩
    | .error e _ => .error e
  | store p data => .ok ⟨storeBytes s.memory p data, s.allocator, s.held⟩

/-- Requests are for elements of some size and do not overflow, and callers free and store into
payloads that are outstanding. -/
def BuddyCall.Valid (s : BuddyState) : BuddyCall → Prop
  | buddyAlloc size count _ =>
    (0 : I64).slt size ∧ size.toNat * count.toNat + buddyBlockBytes.toNat < 2 ^ 64
  | freeBuddy data => ∃ h ∈ s.held, h.start = data.toNat
  | store p data => ∃ h ∈ s.held, h.start ≤ p.toNat ∧ p.toNat + data.length ≤ h.stop

instance (s : BuddyState) : (call : BuddyCall) → Decidable (call.Valid s)
  | .buddyAlloc size count _ => inferInstanceAs (Decidable
      ((0 : I64).slt size ∧ size.toNat * count.toNat + buddyBlockBytes.toNat < 2 ^ 64))
  | .freeBuddy data => inferInstanceAs (Decidable (∃ h ∈ s.held, h.start = data.toNat))
  | .store p data => inferInstanceAs (Decidable
      (∃ h ∈ s.held, h.start ≤ p.toNat ∧ p.toNat + data.length ≤ h.stop))

/-- Twice the total size does not wrap to less than a header, or no search of the call splits a
block. -/
def BuddyCall.Unwrapped (s : BuddyState) : BuddyCall → Prop
  | buddyAlloc size count _ =>
    let total := size * count + buddyBlockBytes
    buddyBlockBytes ≤ total * 2 ∨
      ¬ Splits total s.blocks ∧ ¬ Splits total (secondBlocks total s.blocks)
  | _ => True

/-- A valid call that returns. -/
def BuddyStep (rounds : Nat) (s t : BuddyState) : Prop :=
  ∃ call : BuddyCall, call.Valid s ∧ call.run rounds s = .ok t

/-- Calls in a row, while they are valid and return. -/
def runBuddyCalls (rounds : Nat) (s : BuddyState) : List BuddyCall → Option BuddyState
  | [] => some s
  | call :: calls =>
    if call.Valid s then
      match call.run rounds s with
      | .ok t => runBuddyCalls rounds t calls
      | .error _ => none
    else none

/-- A valid call that does not split by a wrapped size. -/
def UnwrappedStep (rounds : Nat) (s t : BuddyState) : Prop :=
  ∃ call : BuddyCall, call.Valid s ∧ call.Unwrapped s ∧ call.run rounds s = .ok t

/-- The payloads that are outstanding lie in blocks of their own, behind the headers. -/
structure PayloadsSafe (head : U64) (blocks : List BuddyBlock) (held : List Span) : Prop where
  inside : ∀ h ∈ held, ∃ pre b post, blocks = pre ++ b :: post ∧ b.isFree = false ∧
    h.start = (placeAfter BuddyBlock.size head pre).toNat + 16 ∧
    h.stop ≤ (placeAfter BuddyBlock.size head pre).toNat + b.size.toNat
  disjoint : held.Pairwise Span.Disjoint
  headers : ∀ h ∈ held, ∀ pre b post, blocks = pre ++ b :: post →
    (Span.mk (placeAfter BuddyBlock.size head pre).toNat 16).Disjoint h

/-- The blocks tile the region, the payloads are safe, and nothing outside was changed. -/
structure BuddyState.Safe (m₀ : U64 → U8) (data size : U64) (s : BuddyState) : Prop where
  allocator : s.allocator = ⟨data, data + size⟩
  change : BuddyChange data (data + size) m₀ s.memory s.blocks
  payloads : PayloadsSafe data s.blocks s.held

/-! ## Calls -/

section Calls

variable {m m' : U64 → U8} {head tail : U64} {blocks : List BuddyBlock} {size count : I64}
  {flags : U8} {rounds bytes : Nat}

/-- How a request for some bytes ends. The blocks that are left have the first property when it
is served, and the second one when it is not. -/
inductive Allocated (K L : List BuddyBlock → Prop) (head tail : U64) (m : U64 → U8)
    (bytes : Nat) : BuddyResult → (U64 → U8) → Prop where
  /-- There is no block. -/
  | refused {r m' blocks} (hr : r = .nullptr ∨ r = .longjmp)
      (hchange : BuddyChange head tail m m' blocks) (hblocks : L blocks) :
      Allocated K L head tail m bytes r m'
  /-- A free block with room for the bytes is in use now. -/
  | payload {m' pre whole post} (hblocks : K (pre ++ ⟨whole, true⟩ :: post))
      (hchange : BuddyChange head tail m m' (pre ++ ⟨whole, false⟩ :: post))
      (hbytes : bytes + 16 ≤ whole.toNat) :
      Allocated K L head tail m bytes
        (.payload (placeAfter BuddyBlock.size head pre + buddyBlockBytes)) m'

/-- The payload of a block starts behind its header. -/
theorem BuddyTiles.toNat_payload {pre post : List BuddyBlock} {b : BuddyBlock}
    (h : BuddyTiles m head tail (pre ++ b :: post)) :
    (placeAfter BuddyBlock.size head pre + buddyBlockBytes).toNat =
      (placeAfter BuddyBlock.size head pre).toNat + 16 := by
  obtain ⟨hle, hsize⟩ := h.header_le
  have hlt := tail.isLt
  rw [BitVec.toNat_add, show buddyBlockBytes.toNat = 16 from rfl, Nat.mod_eq_of_lt (by omega)]

/-- The bytes of a request, with those of the header. -/
theorem toNat_total (hfits : size.toNat * count.toNat + buddyBlockBytes.toNat < 2 ^ 64) :
    (size * count).toNat = size.toNat * count.toNat ∧
      (size * count + buddyBlockBytes).toNat = size.toNat * count.toNat + 16 ∧
      size * count + buddyBlockBytes ≠ 0 := by
  have hheader : buddyBlockBytes.toNat = 16 := rfl
  have htotal : (size * count).toNat = size.toNat * count.toNat := by
    rw [BitVec.toNat_mul, Nat.mod_eq_of_lt (by omega)]
  have hsum : (size * count + buddyBlockBytes).toNat = size.toNat * count.toNat + 16 := by
    rw [BitVec.toNat_add, htotal, hheader, Nat.mod_eq_of_lt (by omega)]
  refine ⟨htotal, hsum, fun h0 => ?_⟩
  rw [h0] at hsum
  change 0 = _ at hsum
  omega

/-- `buddyAlloc` marks the block that its searches find. -/
theorem buddyAlloc_returns {K L : List BuddyBlock → Prop} (hslt : (0 : I64).slt size)
    (hfits : size.toNat * count.toNat + buddyBlockBytes.toNat < 2 ^ 64)
    (hfind : ReturnsWith (findBuddy rounds ⟨head, tail⟩ (size * count + buddyBlockBytes) m)
      fun r m' => ∃ blocks,
        Served K head tail (size * count + buddyBlockBytes) m r m' blocks ∧ (r = 0 → L blocks)) :
    ReturnsWith (buddyAlloc rounds ⟨head, tail⟩ size count flags m)
      (Allocated K L head tail m (size.toNat * count.toNat)) := by
  obtain ⟨htotal, hsum, -⟩ := toNat_total hfits
  unfold buddyAlloc
  rw [if_pos hslt]
  apply hfind.bind
  rintro r m₁ ⟨blocks', hserved, hrefused⟩
  by_cases hr : r = 0
  · rw [if_neg (not_not.mpr hr)]
    split
    · exact ReturnsWith.pure (.refused (.inl rfl) hserved.change (hrefused hr))
    · exact ReturnsWith.pure (.refused (.inr rfl) hserved.change (hrefused hr))
  · rw [if_pos hr]
    obtain ⟨pre, whole, post, rfl, rfl, hle⟩ := hserved.found hr
    rw [BitVec.le_def, hsum] at hle
    have htiles := hserved.change.tiles
    have hplace := htiles.toNat_payload
    have hmarked := htiles.putFree false
    dsimp only at hmarked
    generalize hzeros : (if flags &&& zeroMemory ≠ 0 then
      List.replicate (size * count).toNat (0 : U8) else []) = zeros
    have hlength : zeros.length ≤ size.toNat * count.toNat := by
      rw [← hzeros]
      split
      · rw [List.length_replicate, htotal]
      · exact Nat.zero_le _
    have hstored := hmarked.tiles.store _ zeros hplace.ge (by
      rw [hplace]
      dsimp only
      omega)
    refine ⟨_, _, rfl, .payload hserved.keeps ?_ hle⟩
    exact (hserved.change.trans hmarked).trans hstored

/-- A block in use is free again, and the blocks are coalesced. -/
theorem freeBuddy_returns {pre post : List BuddyBlock} {b : BuddyBlock} {data : U64}
    (h : BuddyTiles m head tail (pre ++ b :: post))
    (hdata : data.toNat = (placeAfter BuddyBlock.size head pre).toNat + 16)
    (hrounds : 2 ^ 64 ≤ rounds) :
    freeBuddy rounds ⟨head, tail⟩ data m = .error .assertion m ∨
      ReturnsWith (freeBuddy rounds ⟨head, tail⟩ data m) fun _ m' =>
        BuddyChange head tail m m' (lastSweep (pre ++ ⟨b.size, true⟩ :: post)).blocks := by
  unfold freeBuddy
  by_cases hassert : head ≤ data ∧ data < tail
  · right
    rw [if_pos hassert, modify_bind]
    have hplace : data - buddyBlockBytes = placeAfter BuddyBlock.size head pre := by
      apply BitVec.eq_of_toNat_eq
      have hle : buddyBlockBytes ≤ data := by
        rw [BitVec.le_def, hdata]
        exact Nat.le_add_left _ _
      rw [BitVec.toNat_sub_of_le hle, hdata]
      exact Nat.add_sub_cancel _ _
    rw [hplace]
    have hmarked := h.putFree true
    apply (coalesceBuddies_returns hmarked.tiles hrounds).weaken
    exact fun _ _ hcoalesced => hmarked.trans hcoalesced
  · left
    rw [if_neg hassert]
    rfl

end Calls

/-! ## Runs -/

/-- The payloads that are outstanding are those of the blocks in use. -/
structure HeldUsed (head : U64) (blocks : List BuddyBlock) (held : List Span) : Prop where
  in_block : ∀ h ∈ held, ∃ u ∈ usedSpans head.toNat blocks, h.start = u.start + 16 ∧ h.stop ≤ u.stop
  has_owner : ∀ u ∈ usedSpans head.toNat blocks, ∃ h ∈ held, h.start = u.start + 16
  starts : held.Pairwise fun h h' => h.start ≠ h'.start

section Held

variable {m : U64 → U8} {head tail : U64} {blocks blocks' pre post : List BuddyBlock}
  {held : List Span} {size : U64} {b c : BuddyBlock}

theorem HeldUsed.congr (h : HeldUsed head blocks held)
    (hused : ∀ p, usedSpans p blocks' = usedSpans p blocks) : HeldUsed head blocks' held := by
  refine ⟨?_, ?_, h.starts⟩
  · rw [hused]
    exact h.in_block
  · rw [hused]
    exact h.has_owner

/-- Where the spans of two blocks in use start. -/
theorem mem_usedSpans_append {p : Nat} {u : Span} : u ∈ usedSpans p (pre ++ b :: post) ↔
    u ∈ usedSpans p (pre ++ ⟨b.size, true⟩ :: post) ∨
      b.isFree = false ∧ u = ⟨p + extent BuddyBlock.size pre, b.size.toNat⟩ := by
  rw [usedSpans_append, usedSpans_append]
  cases hb : b.isFree with
  | true => simp [usedSpans, hb]
  | false =>
    simp only [usedSpans, hb, Bool.false_eq_true, ite_false, ite_true, List.mem_append,
      List.mem_singleton, List.nil_append, true_and]
    tauto

/-- Another block in use starts elsewhere than a free one. -/
theorem start_ne_of_mem_usedSpans (hsizes : BuddySizes (pre ++ ⟨size, true⟩ :: post)) {p : Nat}
    {u : Span} (hu : u ∈ usedSpans p (pre ++ ⟨size, true⟩ :: post)) :
    u.start ≠ p + extent BuddyBlock.size pre := by
  obtain ⟨pre', b', post', hblocks, hused, rfl⟩ := mem_usedSpans.mp hu
  have hb := (hsizes.valid ⟨size, true⟩ (by simp)).le_size
  have hb' := (hsizes.valid b' (by simp [hblocks])).le_size
  dsimp only at hb ⊢
  rcases extent_cut BuddyBlock.size hblocks with ⟨-, rfl, -⟩ | hle | hle
  · cases hused
  · dsimp only at hle
    omega
  · omega

/-- A free block is handed out. -/
theorem HeldUsed.alloc (h : HeldUsed head (pre ++ ⟨size, true⟩ :: post) held)
    (hsizes : BuddySizes (pre ++ ⟨size, true⟩ :: post)) {s : Span}
    (hstart : s.start = head.toNat + extent BuddyBlock.size pre + 16)
    (hstop : s.stop ≤ head.toNat + extent BuddyBlock.size pre + size.toNat) :
    HeldUsed head (pre ++ ⟨size, false⟩ :: post) (s :: held) := by
  have hmem (u : Span) : u ∈ usedSpans head.toNat (pre ++ ⟨size, false⟩ :: post) ↔
      u ∈ usedSpans head.toNat (pre ++ ⟨size, true⟩ :: post) ∨
        u = ⟨head.toNat + extent BuddyBlock.size pre, size.toNat⟩ := by
    rw [mem_usedSpans_append (b := ⟨size, false⟩)]
    simp
  constructor
  · intro g hg
    rcases List.mem_cons.mp hg with rfl | hg
    · exact ⟨_, (hmem _).mpr (Or.inr rfl), hstart, hstop⟩
    · obtain ⟨u, hu, hfit⟩ := h.in_block g hg
      exact ⟨u, (hmem u).mpr (Or.inl hu), hfit⟩
  · intro u hu
    rcases (hmem u).mp hu with hu | rfl
    · obtain ⟨g, hg, hgu⟩ := h.has_owner u hu
      exact ⟨g, List.mem_cons_of_mem _ hg, hgu⟩
    · exact ⟨s, List.mem_cons_self, hstart⟩
  · refine List.pairwise_cons.mpr ⟨fun g hg => ?_, h.starts⟩
    obtain ⟨u, hu, hgu, -⟩ := h.in_block g hg
    have hne := start_ne_of_mem_usedSpans hsizes hu
    omega

/-- A block in use is given back. -/
theorem HeldUsed.free (h : HeldUsed head (pre ++ b :: post) held)
    (hsizes : BuddySizes (pre ++ b :: post)) {data : Nat}
    (hdata : data = head.toNat + extent BuddyBlock.size pre + 16) :
    HeldUsed head (pre ++ ⟨b.size, true⟩ :: post) (held.filter fun g => g.start ≠ data) := by
  have hsizes' : BuddySizes (pre ++ ⟨b.size, true⟩ :: post) := by
    have hbytes : extent BuddyBlock.size (pre ++ ⟨b.size, true⟩ :: post) =
        extent BuddyBlock.size (pre ++ b :: post) := by
      simp only [extent_append, extent_cons]
    refine ⟨fun x hx => ?_, hbytes ▸ hsizes.fits⟩
    simp only [List.mem_append, List.mem_cons] at hx
    rcases hx with hx | rfl | hx
    · exact hsizes.valid x (by simp [hx])
    · exact hsizes.valid b (by simp)
    · exact hsizes.valid x (by simp [hx])
  constructor
  · intro g hg
    obtain ⟨hg, hne⟩ := List.mem_filter.mp hg
    rw [decide_eq_true_iff] at hne
    obtain ⟨u, hu, hgu, hstop⟩ := h.in_block g hg
    rcases mem_usedSpans_append.mp hu with hu | ⟨-, rfl⟩
    · exact ⟨u, hu, hgu, hstop⟩
    · exact absurd (hgu.trans hdata.symm) hne
  · intro u hu
    have hne := start_ne_of_mem_usedSpans hsizes' hu
    obtain ⟨g, hg, hgu⟩ := h.has_owner u (mem_usedSpans_append.mpr (Or.inl hu))
    refine ⟨g, List.mem_filter.mpr ⟨hg, ?_⟩, hgu⟩
    rw [decide_eq_true_iff]
    omega
  · exact h.starts.filter _

end Held

/-- What holds of an allocator in use. -/
structure BuddyState.Inv (m₀ : U64 → U8) (data size : U64) (s : BuddyState)
    (blocks : List BuddyBlock) : Prop where
  allocator : s.allocator = ⟨data, data + size⟩
  change : BuddyChange data (data + size) m₀ s.memory blocks
  bytes : extent BuddyBlock.size blocks = size.toNat
  held : HeldUsed data blocks s.held

section Runs

variable {m₀ m' : U64 → U8} {data size : U64} {s t : BuddyState} {blocks pre post : List BuddyBlock}
  {rounds bytes : Nat} {b : BuddyBlock} {K L : List BuddyBlock → Prop} {r : BuddyResult}

/-- The blocks that are reached. -/
theorem BuddyState.Inv.blocks_eq (hs : s.Inv m₀ data size blocks) : s.blocks = blocks := by
  have htiles := hs.change.tiles
  have hlength := htiles.sizes.length_le
  unfold BuddyState.blocks
  rw [hs.allocator]
  apply htiles.walk.records_eq _ htiles.fits
  · have hsub : data + size - data = size := by rw [BitVec.add_comm, BitVec.add_sub_cancel]
    rw [hsub, ← hs.bytes]
    exact hlength
  · intro x hx
    have hle := (htiles.valid x hx).le_size
    omega

/-- The blocks in use may be found in other blocks. -/
theorem BuddyState.Inv.sameUse (hs : s.Inv m₀ data size blocks) {blocks' : List BuddyBlock}
    (hsame : SameUse blocks blocks')
    (hchange : BuddyChange data (data + size) s.memory m' blocks') :
    BuddyState.Inv m₀ data size ⟨m', s.allocator, s.held⟩ blocks' :=
  ⟨hs.allocator, hs.change.trans hchange, hsame.bytes.trans hs.bytes, hs.held.congr hsame.used⟩

/-- After a request, the blocks are those it left. -/
theorem BuddyState.Inv.alloc (hs : s.Inv m₀ data size blocks)
    (hK : ∀ {blocks'}, K blocks' → SameUse blocks blocks')
    (hL : ∀ {blocks'}, L blocks' → SameUse blocks blocks')
    (h : Allocated K L data (data + size) s.memory bytes r m') :
    ∃ blocks', (s.answer bytes m' r).Inv m₀ data size blocks' ∧
      ((s.answer bytes m' r).held = s.held ∧ L blocks' ∨ (s.answer bytes m' r).held ≠ [] ∧
        ∃ pre whole post, blocks' = pre ++ ⟨whole, false⟩ :: post ∧
          K (pre ++ ⟨whole, true⟩ :: post)) := by
  cases h with
  | refused hr hchange hblocks =>
    have hinv := hs.sameUse (hL hblocks) hchange
    rcases hr with rfl | rfl
    · exact ⟨_, hinv, Or.inl ⟨rfl, hblocks⟩⟩
    · exact ⟨_, hinv, Or.inl ⟨rfl, hblocks⟩⟩
  | payload hblocks hchange hbytes =>
    rename_i pre whole post
    have hsame := hK hblocks
    have hplace := hchange.tiles.toNat_payload
    have hplace' := hchange.tiles.toNat_place
    refine ⟨_, ⟨hs.allocator, hs.change.trans hchange, ?_, ?_⟩, Or.inr ⟨List.cons_ne_nil _ _,
      pre, whole, post, rfl, hblocks⟩⟩
    · have hsum := hsame.bytes.trans hs.bytes
      simp only [extent_append, extent_cons] at hsum ⊢
      exact hsum
    · apply (hs.held.congr hsame.used).alloc hsame.sizes
      · dsimp only
        rw [hplace, hplace']
      · rw [Span.stop]
        dsimp only
        rw [hplace, hplace']
        omega

/-- The block of a payload that is outstanding. -/
theorem BuddyState.Inv.exists_block (hs : s.Inv m₀ data size blocks) {h : Span}
    (hheld : h ∈ s.held) : ∃ pre b post, blocks = pre ++ b :: post ∧ b.isFree = false ∧
      h.start = (placeAfter BuddyBlock.size data pre).toNat + 16 ∧
      h.stop ≤ (placeAfter BuddyBlock.size data pre).toNat + b.size.toNat ∧
      (placeAfter BuddyBlock.size data pre).toNat = data.toNat + extent BuddyBlock.size pre := by
  obtain ⟨u, hu, hstart, hstop⟩ := hs.held.in_block h hheld
  obtain ⟨pre, b, post, rfl, hused, rfl⟩ := mem_usedSpans.mp hu
  have hplace := hs.change.tiles.toNat_place
  refine ⟨pre, b, post, rfl, hused, ?_, ?_, hplace⟩
  · rw [hplace]
    exact hstart
  · rw [hplace]
    exact hstop

/-- A payload is freed. -/
theorem BuddyState.Inv.free (hs : s.Inv m₀ data size (pre ++ b :: post)) {ptr : U64}
    (hptr : ptr.toNat = data.toNat + extent BuddyBlock.size pre + 16)
    (hchange : BuddyChange data (data + size) s.memory m'
      (lastSweep (pre ++ ⟨b.size, true⟩ :: post)).blocks) :
    BuddyState.Inv m₀ data size
      ⟨m', s.allocator, s.held.filter fun h => h.start ≠ ptr.toNat⟩
      (lastSweep (pre ++ ⟨b.size, true⟩ :: post)).blocks := by
  have htiles := hs.change.tiles
  have hmarked := (htiles.putFree true).tiles
  have hsame := lastSweep_sameUse hmarked.sizes
  refine ⟨hs.allocator, hs.change.trans hchange, ?_, ?_⟩
  · have hsum := hs.bytes
    rw [hsame.bytes]
    simp only [extent_append, extent_cons] at hsum ⊢
    exact hsum
  · exact (hs.held.free htiles.sizes hptr).congr hsame.used

/-- A store into a payload. -/
theorem BuddyState.Inv.store (hs : s.Inv m₀ data size blocks) {p : U64} {bytes : List U8}
    (hvalid : (BuddyCall.store p bytes).Valid s) :
    BuddyState.Inv m₀ data size ⟨storeBytes s.memory p bytes, s.allocator, s.held⟩ blocks := by
  obtain ⟨h, hheld, hle, hfit⟩ := hvalid
  obtain ⟨pre, b, post, rfl, -, hstart, hstop, -⟩ := hs.exists_block hheld
  have hstored := hs.change.tiles.store p bytes (by omega) (by omega)
  exact ⟨hs.allocator, hs.change.trans hstored, hs.bytes, hs.held⟩

/-- Calls in a row are a run. -/
theorem runBuddyCalls_reaches {calls : List BuddyCall}
    (h : runBuddyCalls rounds s calls = some t) :
    Relation.ReflTransGen (BuddyStep rounds) s t := by
  induction calls generalizing s with
  | nil =>
    obtain rfl := Option.some.inj h
    exact .refl
  | cons call calls ih =>
    rw [runBuddyCalls] at h
    split at h
    · rename_i hvalid
      split at h
      · rename_i u hrun
        exact .head ⟨call, hvalid, hrun⟩ (ih h)
      · cases h
    · cases h

/-- A new allocator has one free block. -/
theorem create_inv {m : U64 → U8} {a : BuddyAllocator} (hdata : data ≠ 0)
    (hfits : data.toNat + size.toNat < 2 ^ 64)
    (hcreate : createBuddyAllocator m₀ data size = some (m, a)) :
    BuddyState.Inv m₀ data size ⟨m, a, []⟩ [⟨size, true⟩] ∧ 16 < size.toNat := by
  unfold createBuddyAllocator at hcreate
  split at hcreate
  · rename_i hasserts
    obtain ⟨hpos, hpow, hheader⟩ := hasserts
    have hlt : 16 < size.toNat := BitVec.lt_def.mp hheader
    have hne : size ≠ 0 := by
      rintro rfl
      exact absurd hlt (by decide)
    obtain ⟨k, hk⟩ := exists_isTwoPow_of_and hne hpow
    have hvalid : BuddyBlock.Valid ⟨size, true⟩ := by
      refine ⟨k, ?_, hk⟩
      rw [hk, show 16 = 2 ^ 4 from rfl, Nat.pow_lt_pow_iff_right (by decide)] at hlt
      omega
    have hread : readBuddy (putFree (putSize m₀ data size) data true) data = ⟨size, true⟩ := by
      rw [readBuddy_putFree_self (by omega), readBuddy_putSize_self (by omega)]
    have hnext : nextBuddy (putFree (putSize m₀ data size) data true) data = data + size := by
      rw [nextBuddy, hread]
    dsimp only at hcreate
    rw [hnext, Option.some.injEq, Prod.mk.injEq] at hcreate
    obtain ⟨rfl, rfl⟩ := hcreate
    have hend : (data + size).toNat = data.toNat + size.toNat := by
      rw [BitVec.toNat_add, Nat.mod_eq_of_lt hfits]
    refine ⟨⟨rfl, ⟨⟨⟨hread, rfl⟩, ?_, BitVec.toNat_pos_of_ne_zero hdata, ?_⟩, fun a ha => ?_⟩, ?_,
      ⟨by simp, by simp [usedSpans], List.Pairwise.nil⟩⟩, hlt⟩
    · intro x hx
      rw [List.mem_singleton.mp hx]
      exact hvalid
    · rw [extent_cons, extent_nil]
      exact hfits
    · rw [hend] at ha
      have hout : a.toNat ∉ Span.mk data.toNat 16 := by
        rw [Span.mem_mk]
        omega
      dsimp only
      rw [putFree_of_notMem (by omega) hout, putSize_of_notMem (by omega) hout]
    · rw [extent_cons, extent_nil]
      rfl
  · cases hcreate

/-- A request that does not split by a wrapped size leaves the blocks in use. -/
theorem alloc_returns (hs : s.Inv m₀ data size blocks) (hsize : 0 < size.toNat)
    {bytes count : I64} {flags : U8} (hvalid : (BuddyCall.buddyAlloc bytes count flags).Valid s)
    (hunwrapped : (BuddyCall.buddyAlloc bytes count flags).Unwrapped s)
    (hrounds : 2 ^ 64 ≤ rounds) :
    ReturnsWith (buddyAlloc rounds s.allocator bytes count flags s.memory)
      (Allocated (SameUse blocks) (SameUse blocks) data (data + size) s.memory
        (bytes.toNat * count.toNat)) := by
  obtain ⟨hslt, hfits⟩ := hvalid
  obtain ⟨-, -, hne⟩ := toNat_total hfits
  rw [BuddyCall.Unwrapped, hs.blocks_eq] at hunwrapped
  have hpos : 0 < extent BuddyBlock.size blocks := hs.bytes ▸ hsize
  rw [hs.allocator]
  apply buddyAlloc_returns hslt hfits
  apply (findBuddy_returns hs.change.tiles hpos hne hunwrapped hrounds).weaken
  rintro r m' ⟨blocks', hserved⟩
  exact ⟨blocks', hserved, fun _ => hserved.keeps⟩

/-- A valid call that does not split by a wrapped size keeps the invariant, and ends. -/
theorem BuddyState.Inv.step (hs : s.Inv m₀ data size blocks) (hsize : 0 < size.toNat)
    {call : BuddyCall} (hvalid : call.Valid s) (hunwrapped : call.Unwrapped s)
    (hrounds : 2 ^ 64 ≤ rounds) : call.run rounds s = .error .assertion ∨
      ∃ t blocks', call.run rounds s = .ok t ∧ t.Inv m₀ data size blocks' := by
  cases call with
  | buddyAlloc bytes count flags =>
    obtain ⟨r, m', hrun, hallocated⟩ := alloc_returns hs hsize hvalid hunwrapped hrounds
    obtain ⟨blocks', hinv, -⟩ := hs.alloc id id hallocated
    refine Or.inr ⟨_, blocks', ?_, hinv⟩
    rw [BuddyCall.run, hrun]
  | freeBuddy ptr =>
    obtain ⟨h, hheld, hptr⟩ := hvalid
    obtain ⟨pre, b, post, rfl, -, hstart, -, hplace⟩ := hs.exists_block hheld
    have hfreed := freeBuddy_returns hs.change.tiles (hptr ▸ hstart) hrounds
    rw [← hs.allocator] at hfreed
    rcases hfreed with herror | ⟨u, m', hrun, hchange⟩
    · left
      rw [BuddyCall.run, herror]
    · refine Or.inr ⟨_, _, ?_, hs.free (by rw [← hptr, hstart, hplace]) hchange⟩
      rw [BuddyCall.run, hrun]
  | store p bytes => exact Or.inr ⟨_, blocks, rfl, hs.store hvalid⟩

/-- The payloads of an allocator in use are safe. -/
theorem BuddyState.Inv.safe (hs : s.Inv m₀ data size blocks) : s.Safe m₀ data size := by
  have hblocks := hs.blocks_eq
  have htiles := hs.change.tiles
  refine ⟨hs.allocator, hblocks ▸ hs.change, hblocks ▸ ⟨fun h hheld => ?_, ?_, ?_⟩⟩
  · obtain ⟨pre, b, post, hcut, hused, hstart, hstop, -⟩ := hs.exists_block hheld
    exact ⟨pre, b, post, hcut, hused, hstart, hstop⟩
  · refine hs.held.starts.imp_of_mem fun {h h'} hheld hheld' hne => ?_
    obtain ⟨pre, b, post, rfl, -, hstart, hstop, hplace⟩ := hs.exists_block hheld
    obtain ⟨pre', b', post', hcut', -, hstart', hstop', hplace'⟩ := hs.exists_block hheld'
    rcases extent_cut BuddyBlock.size hcut' with ⟨rfl, -, -⟩ | hle | hle
    · exact absurd (hstart.trans hstart'.symm) hne
    · exact Span.disjoint_of_stop_le (by omega)
    · exact (Span.disjoint_of_stop_le (by omega)).symm
  · intro h hheld pre' b' post' hcut'
    obtain ⟨pre, b, post, rfl, -, hstart, hstop, hplace⟩ := hs.exists_block hheld
    have hsize' := (htiles.valid b' (by simp [hcut'])).le_size
    have hplace' : (placeAfter BuddyBlock.size data pre').toNat =
        data.toNat + extent BuddyBlock.size pre' := (hcut' ▸ htiles).toNat_place
    rcases extent_cut BuddyBlock.size hcut' with ⟨rfl, -, -⟩ | hle | hle
    · apply Span.disjoint_of_stop_le
      rw [Span.stop]
      dsimp only
      omega
    · exact (Span.disjoint_of_stop_le (by dsimp only; omega)).symm
    · apply Span.disjoint_of_stop_le
      rw [Span.stop]
      dsimp only
      omega

/-- In a run without a split by a wrapped size, the blocks tile the region and the payloads are
safe in every state, and every valid call that does not split so ends. -/
theorem buddyRun_safe {m : U64 → U8} {a : BuddyAllocator} (hdata : data ≠ 0)
    (hfits : data.toNat + size.toNat < 2 ^ 64)
    (hcreate : createBuddyAllocator m₀ data size = some (m, a)) (hrounds : 2 ^ 64 ≤ rounds)
    (hrun : Relation.ReflTransGen (UnwrappedStep rounds) ⟨m, a, []⟩ s) :
    s.Safe m₀ data size ∧ ∀ call : BuddyCall, call.Valid s → call.Unwrapped s →
      call.run rounds s ≠ .error .outOfFuel := by
  obtain ⟨hnew, hheader⟩ := create_inv hdata hfits hcreate
  have hsize : 0 < size.toNat := by omega
  have hinv : ∃ blocks, s.Inv m₀ data size blocks := by
    induction hrun with
    | refl => exact ⟨_, hnew⟩
    | tail _ hstep ih =>
      obtain ⟨blocks, hs⟩ := ih
      obtain ⟨call, hvalid, hunwrapped, hcall⟩ := hstep
      rcases hs.step hsize hvalid hunwrapped hrounds with herror | ⟨t, blocks', hok, ht⟩
      · rw [hcall] at herror
        cases herror
      · obtain rfl := Except.ok.inj (hcall.symm.trans hok)
        exact ⟨blocks', ht⟩
  obtain ⟨blocks, hs⟩ := hinv
  refine ⟨hs.safe, fun call hvalid hunwrapped hfuel => ?_⟩
  rcases hs.step hsize hvalid hunwrapped hrounds with herror | ⟨t, blocks', hok, -⟩
  · rw [hfuel] at herror
    cases herror
  · rw [hfuel] at hok
    cases hok

/-- Eight bytes of a region of 64 are outstanding. -/
theorem buddyRun_safe_64 : ∃ m a s, createBuddyAllocator (fun _ => 0) 4096 64 = some (m, a) ∧
    Relation.ReflTransGen (UnwrappedStep (2 ^ 64)) ⟨m, a, []⟩ s ∧ s.held = [⟨4144, 8⟩] ∧
    s.Safe (fun _ => 0) 4096 64 := by
  obtain ⟨m, hm⟩ : ∃ m, m = putFree (putSize (fun _ => 0) 4096 64) 4096 true := ⟨_, rfl⟩
  have hcall : ((BuddyCall.buddyAlloc 8 1 0).run (2 ^ 64) ⟨m, ⟨4096, 4160⟩, []⟩).map
      BuddyState.held = .ok [⟨4144, 8⟩] := by
    rw [hm]
    decide +kernel
  obtain ⟨s, hok, hheld⟩ := exists_ok_of_map hcall
  have hstep : UnwrappedStep (2 ^ 64) ⟨m, ⟨4096, 4160⟩, []⟩ s := by
    refine ⟨.buddyAlloc 8 1 0, ?_, ?_, hok⟩
    · exact ⟨by decide, by decide⟩
    · exact Or.inl (by decide)
  have hcreate : createBuddyAllocator (fun _ => 0) 4096 64 = some (m, ⟨4096, 4160⟩) := by
    rw [hm]
    rfl
  exact ⟨_, _, s, hcreate, .single hstep, hheld,
    (buddyRun_safe (by decide) (by decide) hcreate le_rfl (.single hstep)).1⟩

/-- Twice the bytes of the request wrap to six: the region is split down to four bytes, and the
header of the last block lies over the one in front of it. -/
theorem buddyAlloc_overlaps_headers : ∃ m a s,
    createBuddyAllocator (fun _ => 0) 4096 32 = some (m, a) ∧
    Relation.ReflTransGen (BuddyStep (2 ^ 64)) ⟨m, a, []⟩ s ∧
    s.blocks = [⟨16, true⟩, ⟨8, true⟩, ⟨2 ^ 34 + 4, false⟩] ∧
    ¬ ∀ b ∈ s.blocks, ∃ k, IsTwoPow b.size k := by
  have hcalls : (runBuddyCalls (2 ^ 64)
      ⟨putFree (putSize (fun _ => 0) 4096 32) 4096 true, ⟨4096, 4128⟩, []⟩
      [.buddyAlloc (BitVec.ofNat 64 (2 ^ 63 - 13)) 1 nullptrOnFail]).map BuddyState.blocks =
        some [⟨16, true⟩, ⟨8, true⟩, ⟨2 ^ 34 + 4, false⟩] := by decide +kernel
  obtain ⟨s, hrun, hblocks⟩ := Option.map_eq_some_iff.mp hcalls
  refine ⟨_, _, s, rfl, runBuddyCalls_reaches hrun, hblocks, fun hpow => ?_⟩
  obtain ⟨k, hk⟩ := hpow ⟨2 ^ 34 + 4, false⟩ (by simp [hblocks])
  replace hk : 2 ^ 34 + 4 = 2 ^ k := hk
  rcases Nat.lt_or_ge 34 k with hlt | hle
  · have hpow := Nat.pow_le_pow_right (show 0 < 2 by decide) hlt
    omega
  · have hpow := Nat.pow_le_pow_right (show 0 < 2 by decide) hle
    omega

end Runs

end Homegrown
