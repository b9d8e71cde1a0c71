import Homegrown.Memory.Policy.Chunks

/-!
# Pages and what is behind them

A call of `allocAndMapExplicit` puts four parts together: the conversion of the page size, the
virtual addresses, the chunks of physical memory, and the mapper, which takes frames for page
tables out of the same physical memory while it maps the chunks. `allocAndMapExplicit_serves`
states what the caller gets, and that the state is as sound afterwards as it was before.
-/

namespace Homegrown.Memory

open Radix

/-- The caller has got the pages from an address on: they are mapped, each to a frame of its own
that was free before, is free no longer and is not used as a page table; only these frames and
those of page tables are free no longer; what was mapped before is still looked up the same. -/
structure MappedMemory.Serves (m m' : MappedMemory) (use use' : MemoryUse) (s : PageSize)
    (n : Nat) (v : U64) (pages : List VirtualPage) : Prop where
  aligned : s.bytes ∣ v.toNat
  virt_eq : pages.map (fun p => p.virt.toNat) = pagesFrom s v.toNat n
  size_eq : ∀ p ∈ pages, p.size = s
  looked : ∀ p ∈ pages, ∀ a : U64, a.toNat ∈ p.span →
    m'.lookUp a = ⟨pageEntry s p.frame 0, s.value⟩
  frame_aligned : ∀ p ∈ pages, s.bytes ∣ p.frame.toNat
  distinct : (pages.map VirtualPage.frameSpan).Pairwise Span.Disjoint
  wasFree : ∀ p ∈ pages, ∀ a ∈ p.frameSpan, a ∈ m.free
  notFree : ∀ p ∈ pages, ∀ a ∈ p.frameSpan, a ∉ m'.free
  notTable : ∀ p ∈ pages, ∀ t ∈ use'.tree.tables, p.frameSpan.Disjoint (tableFrame t).span
  free_eq : m'.free = m.free \ {a | (∃ p ∈ pages, a ∈ p.frameSpan) ∨
    ∃ t ∈ use'.tree.tables, a ∈ (tableFrame t).span}
  kept : ∀ (a : U64) level e, use.tree.leaf (path a level) = some e → m'.lookUp a = m.lookUp a

section Serves

variable {m m' : MappedMemory} {use use' : MemoryUse} {usable : Set Nat} {s : PageSize}
  {n depth : Nat} {v : U64} {next : VirtualRegion} {p : PhysicalMemory}
  {chunks : List PagedMemory}

/-! ## The run -/

/-- What a call has done before it maps: it has taken virtual addresses that fit and chunks of
physical memory. -/
structure MappedMemory.Takes (m : MappedMemory) (use : MemoryUse) (s : PageSize) (n : Nat)
    (v : U64) (next : VirtualRegion) (chunks : List PagedMemory) (p : PhysicalMemory) :
    Prop where
  aligned : s.bytes ∣ v.toNat
  start_le : m.higherHalfRegion.start.toNat ≤ v.toNat
  stop_eq : next.start.toNat = v.toNat + n * s.bytes
  stop_le : v.toNat + n * s.bytes ≤ m.higherHalfRegion.limit.toNat
  limit_eq : next.limit = m.higherHalfRegion.limit
  pages : pagesIn chunks = n
  noted : p.MovesNoted
  moves : Moves callScope (m.paging.allocator.fresh, use.inHand)
    (p, chunks.map (Holding.mk s) ++ use.inHand)

/-- The chunks fit below the top of the address space. -/
theorem MappedMemory.Takes.fits (h : m.Takes use s n v next chunks p) :
    v.toNat + pagesIn chunks * s.bytes < 2 ^ 64 := by
  have hlimit := m.higherHalfRegion.limit.isLt
  have hstop := h.stop_le
  rw [h.pages]
  omega

/-- While the chunks are mapped, the mapper avoids the tables that are in use. -/
theorem MappedMemory.Takes.avoids (h : m.Takes use s n v next chunks p)
    (hm : m.Sound use usable) : AvoidsTables m.paging.allocator use.inHand
      (chunks.map (Holding.mk s) ++ use.outstanding) p use.tree.tables := by
  refine ⟨h.noted, use.tables, hm.mem_tables, h.moves.trans (moves_reorder ?_)⟩
  rw [MemoryUse.inHand, ← List.append_assoc, ← List.append_assoc]
  exact List.perm_append_comm.append_right _

/-- The tree grows by the pages of the chunks, the state is sound with them in hand, and only
page tables were written. -/
theorem MappedMemory.Takes.grows (h : m.Takes use s n v next chunks p) (hm : m.Sound use usable)
    (hmap : mapChunks depth s v chunks ⟨next, { m.paging with allocator := p }⟩ = .ok () m')
    (hfull : m'.NoneFull) :
    ∃ use', use'.outstanding = chunks.map (Holding.mk s) ++ use.outstanding ∧
      GrownBy use.tree use'.tree (Leaves (chunkCalls s v chunks)) ∧ m'.Sound use' usable ∧
      (∀ a, Span.count m'.paging.allocator.freeSpans a +
          Span.count (use'.inHand.map Holding.span) a =
        Span.count m.paging.allocator.freeSpans a + Span.count (use.inHand.map Holding.span) a) ∧
      SameOutside use'.tree.tables m.paging.words m'.paging.words := by
  obtain ⟨paging, hrun, rfl⟩ := mapChunks_eq_ok.mp hmap
  have hhalf : higherHalfStart.toNat ≤ v.toNat := hm.inHigherHalf.1.trans h.start_le
  have hcall : ∀ c ∈ chunkCalls s v chunks, ChunkCall s v chunks c := fun c hc =>
    chunkCall_of_mem h.aligned h.fits hc
  have hvalid : ∀ c ∈ chunkCalls s v chunks, c.Valid := fun c hc =>
    (hcall c hc).valid h.fits hhalf
  have hlength : ∀ {q}, (use.tree.leaf q).isSome → q.length ≤ 4 := by
    intro q hq
    obtain ⟨e, he⟩ := Option.isSome_iff_exists.mp hq
    obtain ⟨t, ht, -⟩ := hm.directory.page he
    rw [ht]
    exact pageSizeToDepth_le t
  -- The addresses of the chunks lie in what was left of the higher half.
  have hwithin : ∀ c ∈ chunkCalls s v chunks, ∀ a ∈ c.span,
      v.toNat ≤ a ∧ a < v.toNat + n * s.bytes := by
    intro c hc a ha
    have hstart := (hcall c hc).start_le
    have hstop := (hcall c hc).stop_le
    simp only [MapCall.span, Span.mem_mk, (hcall c hc).pageType] at ha
    rw [h.pages] at hstop
    omega
  have hmapped : Mapped _ { m.paging with allocator := p } use.tree :=
    ⟨hm.directory, h.avoids hm⟩
  obtain ⟨tree', hgrown, hpruned, ⟨hdirectory, hnoted, tables', htables, hmoves⟩, -, hsame⟩ :=
    hmapped.mapRegions (handsOutFrames_allocate4KiBPage hm.owns) hvalid
      (chunkCalls_pairwise h.aligned h.fits) hm.pruned (fun c hc j hj q hq =>
        apart_of_unmapped (hvalid c hc) hj hq (hlength hq) fun a ha =>
          hm.unmapped a
            (h.start_le.trans (hwithin c hc _ (MapCall.pageSpan_subset hj ha)).1)
            ((hwithin c hc _ (MapCall.pageSpan_subset hj ha)).2.trans_le h.stop_le))
      hrun hfull
  obtain ⟨howns, hcount⟩ := Moves.exchange hmoves hm.owns hnoted hfull
  refine ⟨⟨tree', tables', chunks.map (Holding.mk s) ++ use.outstanding⟩, rfl, hgrown,
    ⟨hdirectory, hpruned, htables, howns, ⟨?_, h.limit_eq.trans hm.inHigherHalf.2⟩, ?_⟩, hcount,
    hsame⟩
  · change higherHalfStart.toNat ≤ next.start.toNat
    rw [h.stop_eq]
    omega
  · intro a hstart hlimit level
    change next.start.toNat ≤ a.toNat at hstart
    change a < next.limit at hlimit
    rw [h.stop_eq] at hstart
    rw [h.limit_eq] at hlimit
    by_contra hne
    obtain ⟨e, he⟩ := Option.ne_none_iff_exists'.mp hne
    rcases (hgrown.leaf_iff _ _).mp he with hold | ⟨c, hc, k, -, hk, hpath, -⟩
    · rw [hm.unmapped a (by
        change m.higherHalfRegion.start.toNat ≤ a.toNat
        have := h.start_le
        omega) hlimit level] at hold
      cases hold
    · obtain ⟨haligned, hcanonical, hspan⟩ := (hvalid c hc).page hk
      have hlevel := congrArg List.length hpath
      rw [length_path, MapCall.pagePath, length_path] at hlevel
      rw [MapCall.pagePath, hlevel] at hpath
      have hin := (path_eq_page_iff haligned hcanonical (.inr ?_)).mp hpath
      · rw [hspan] at hin
        have hbelow := (hwithin c hc _ (MapCall.pageSpan_subset hk hin)).2
        omega
      · have hhalf' : higherHalfStart.toNat = 2 ^ 64 - 2 ^ 47 := rfl
        omega

/-- How often one address is free, in a page table and behind a page of the call, before the call
and after it. -/
structure Ledger (free free' tables tables' pages : Nat) : Prop where
  exchanged : free' + tables' + pages = free + tables
  once : free' + tables' + pages ≤ 1
  kept : tables' = 0 → tables = 0

/-- How often an address is in a page table. -/
def MemoryUse.tableCount (use : MemoryUse) (a : Nat) : Nat :=
  Span.count (use.tables.map fun t => (tableFrame t).span) a

/-- How often an address is behind one of the pages. -/
def frameCount (pages : List VirtualPage) (a : Nat) : Nat :=
  Span.count (pages.map VirtualPage.frameSpan) a

theorem frameCount_pos {pages : List VirtualPage} {a : Nat} :
    0 < frameCount pages a ↔ ∃ p ∈ pages, a ∈ p.frameSpan := by
  simp only [frameCount, Span.count_pos_iff, List.mem_map, exists_exists_and_eq_and]

theorem MappedMemory.Sound.tableCount_pos (h : m.Sound use usable) {a : Nat} :
    0 < use.tableCount a ↔ ∃ t ∈ use.tree.tables, a ∈ (tableFrame t).span := by
  simp only [MemoryUse.tableCount, Span.count_pos_iff, List.mem_map, exists_exists_and_eq_and,
    h.mem_tables]

/-- What is in hand are the page tables and what callers hold. -/
theorem MemoryUse.count_inHand (use : MemoryUse) (a : Nat) :
    Span.count (use.inHand.map Holding.span) a =
      use.tableCount a + Span.count (use.outstanding.map Holding.span) a := by
  rw [MemoryUse.inHand, List.map_append, Span.count_append, List.map_map]
  rfl

/-- The free memory that a call uses up is in page tables and behind its pages. -/
theorem MappedMemory.Sound.ledger (hm : m.Sound use usable) (hm' : m'.Sound use' usable)
    (hout : use'.outstanding = chunks.map (Holding.mk s) ++ use.outstanding)
    (hgrown : GrownBy use.tree use'.tree (Leaves (chunkCalls s v chunks)))
    (hcount : ∀ a, Span.count m'.paging.allocator.freeSpans a +
        Span.count (use'.inHand.map Holding.span) a =
      Span.count m.paging.allocator.freeSpans a + Span.count (use.inHand.map Holding.span) a)
    (a : Nat) :
    Ledger (Span.count m.paging.allocator.freeSpans a)
      (Span.count m'.paging.allocator.freeSpans a) (use.tableCount a) (use'.tableCount a)
      (frameCount (chunkPages s v chunks) a) := by
  have hbounded : ∀ chunk ∈ chunks, chunk.Bounded s := by
    intro chunk hc
    refine hm'.owns.sound.bounded_inHand (x := Holding.mk s chunk) ?_
    change _ ∈ use'.inHand
    rw [MemoryUse.inHand, hout]
    exact List.mem_append_right _ (List.mem_append_left _ (List.mem_map_of_mem hc))
  have hheld : Span.count (use'.outstanding.map Holding.span) a =
      frameCount (chunkPages s v chunks) a +
        Span.count (use.outstanding.map Holding.span) a := by
    rw [frameCount, count_frameSpans hbounded, hout, List.map_append, Span.count_append,
      List.map_map]
    rfl
  have hexchanged := hcount a
  have honce := hm'.owns.count_le a
  dsimp only at honce
  rw [use.count_inHand, use'.count_inHand, hheld] at hexchanged
  rw [use'.count_inHand, hheld] at honce
  refine ⟨by omega, by omega, fun hzero => ?_⟩
  -- The tables from before are among those that are in use now.
  by_contra hpos
  obtain ⟨t, ⟨path, hpath⟩, ha⟩ := hm.tableCount_pos.mp (Nat.pos_of_ne_zero hpos)
  exact absurd (hm'.tableCount_pos.mpr ⟨t, ⟨path, hgrown.kept hpath⟩, ha⟩) (by omega)

/-- What the caller gets. -/
theorem MappedMemory.Takes.serves (h : m.Takes use s n v next chunks p) (hm : m.Sound use usable)
    (hmap : mapChunks depth s v chunks ⟨next, { m.paging with allocator := p }⟩ = .ok () m')
    (hfull : m'.NoneFull) :
    ∃ use', use'.outstanding = chunks.map (Holding.mk s) ++ use.outstanding ∧
      m'.Sound use' usable ∧ m.Serves m' use use' s n v (chunkPages s v chunks) := by
  obtain ⟨use', hout, hgrown, hm', hcount, -⟩ := h.grows hm hmap hfull
  refine ⟨use', hout, hm', ?_⟩
  have hhalf : higherHalfStart.toNat ≤ v.toNat := hm.inHigherHalf.1.trans h.start_le
  have hcall : ∀ c ∈ chunkCalls s v chunks, ChunkCall s v chunks c := fun c hc =>
    chunkCall_of_mem h.aligned h.fits hc
  have hledger := hm.ledger hm' hout hgrown hcount
  constructor
  case aligned => exact h.aligned
  case virt_eq => rw [map_virt_chunkPages h.aligned h.fits hhalf, h.pages]
  case size_eq =>
    intro q hq
    obtain ⟨c, hc, k, -, rfl⟩ := mem_chunkPages.mp hq
    exact (hcall c hc).pageType
  case looked =>
    intro q hq a ha
    obtain ⟨c, hc, k, hk, rfl⟩ := mem_chunkPages.mp hq
    have hvalid := (hcall c hc).valid h.fits hhalf
    rw [hvalid.span_eq hk] at ha
    have hleaf : use'.tree.leaf (path a (pageSizeToDepth c.pageType)) = some (c.entry k) := by
      rw [hvalid.path_eq hk ha]
      exact (hgrown.leaf_iff _ _).mpr (.inr ⟨c, hc, k, Nat.zero_le k, hk, rfl, rfl⟩)
    rw [MappedMemory.lookUp, hm'.directory.getMappedPage_eq hleaf, ← MapCall.pageEntry_eq,
      (hcall c hc).pageType, (hcall c hc).flags]
  case frame_aligned =>
    intro q hq
    obtain ⟨c, hc, k, -, rfl⟩ := mem_chunkPages.mp hq
    have hmem : Holding.mk s c.memory ∈ use'.inHand := by
      rw [MemoryUse.inHand, hout]
      exact List.mem_append_right _
        (List.mem_append_left _ (List.mem_map_of_mem (hcall c hc).memory))
    have haligned := hm'.owns.sound.aligned.inHand _ hmem
    change s.bytes ∣ (c.physical k).toNat
    rw [MapCall.physical, (hcall c hc).pageType]
    exact PagedMemory.dvd_page haligned
  case distinct =>
    rw [Span.pairwise_disjoint_iff_count]
    intro a
    exact (Nat.le_add_left _ _).trans (hledger a).once
  case wasFree =>
    intro q hq a ha
    have hframe := frameCount_pos.mpr ⟨q, hq, ha⟩
    obtain ⟨hexchanged, honce, hkept⟩ := hledger a
    rw [MappedMemory.free, PhysicalMemory.mem_free_iff]
    omega
  case notFree =>
    intro q hq a ha hfree
    have hframe := frameCount_pos.mpr ⟨q, hq, ha⟩
    have honce := (hledger a).once
    rw [MappedMemory.free, PhysicalMemory.mem_free_iff] at hfree
    omega
  case notTable =>
    intro q hq t ht a ha hat
    have hframe := frameCount_pos.mpr ⟨q, hq, ha⟩
    have hused := hm'.tableCount_pos.mpr ⟨t, ht, hat⟩
    have honce := (hledger a).once
    omega
  case free_eq =>
    ext a
    obtain ⟨hexchanged, honce, hkept⟩ := hledger a
    rw [Set.mem_sdiff, Set.mem_ofPred_eq, ← frameCount_pos, ← hm'.tableCount_pos,
      MappedMemory.free, MappedMemory.free, PhysicalMemory.mem_free_iff,
      PhysicalMemory.mem_free_iff]
    omega
  case kept =>
    intro a level e he
    obtain ⟨size, hlevel, -⟩ := hm.directory.page he
    rw [length_path] at hlevel
    subst hlevel
    have he' := (hgrown.leaf_iff _ _).mpr (.inl he)
    rw [MappedMemory.lookUp, MappedMemory.lookUp, hm'.directory.getMappedPage_eq he',
      hm.directory.getMappedPage_eq he]

end Serves

section Explicit

variable {m m' : MappedMemory} {use : MemoryUse} {usable : Set Nat} {s : PageSize}
  {np preferred v : U64} {depth : Nat}

/-- A call that returns has taken virtual addresses and chunks, and has mapped them. -/
theorem allocAndMapExplicit_takes (hm : m.Sound use usable)
    (hsize : PageSize.ofValue? (convertPreferredPageToAvailablePages preferred).pageSize = some s)
    (hroom : roundUp m.higherHalfRegion.start.toNat s.bytes +
        (np * (convertPreferredPageToAvailablePages preferred).numberOfPages).toNat * s.bytes ≤
      m.higherHalfRegion.limit.toNat)
    (hrun : allocAndMapExplicit depth np preferred m.fresh = .ok v m') :
    ∃ next chunks p,
      m.Takes use s (np * (convertPreferredPageToAvailablePages preferred).numberOfPages).toNat v
        next chunks p ∧
      mapChunks depth s v chunks ⟨next, { m.paging with allocator := p }⟩ = .ok () m' := by
  simp only [allocAndMapExplicit, onRegion, onPhysical, bind_eq_ok, pure_eq_ok, zoom_eq_ok] at hrun
  obtain ⟨⟨pages, size⟩, _, hconverted, v', _, ⟨next, hregion, rfl⟩, chunks, _, ⟨p, halloc, rfl⟩,
    _, _, hmap, rfl, rfl⟩ := hrun
  obtain ⟨rfl, hpages, hle, hsize'⟩ := convertedPages_eq_ok hconverted
  obtain rfl : s = size := Option.some.inj (hsize.symm.trans hsize')
  change pages = _ at hpages
  change pages.toNat ≤ 512 at hle
  rw [← hpages] at hroom ⊢
  have hbytes : (s.value * pages).toNat = pages.toNat * s.bytes := by
    have hmul : pages.toNat * s.bytes ≤ 512 * 2 ^ 30 := Nat.mul_le_mul hle s.bytes_le
    rw [BitVec.mul_comm, BitVec.toNat_mul, PageSize.toNat_value]
    exact Nat.mod_eq_of_lt (by omega)
  have hresult := toNat_getVirtualMemory hm.inHigherHalf.start_pos hregion
  change v'.toNat = roundUp m.higherHalfRegion.start.toNat s.bytes at hresult
  obtain ⟨hlimit, hstop, hstart⟩ := getVirtualMemory_next hregion (by
    rw [hbytes, hresult]
    exact hroom)
  have hlen : pages.toNat < 2 ^ 32 := by omega
  refine ⟨next, chunks, p, ⟨?_, hstart, ?_, ?_, hlimit, ?_, ?_, ?_⟩, hmap⟩
  · rw [hresult]
    exact dvd_roundUp
  · rw [hstop, hbytes]
  · rw [hresult]
    exact hroom
  · exact pagesIn_allocPhysicalPages hlen halloc
  · exact (keeps_allocPhysicalPagesWithManager depth 0 pages s).of_ok
      PhysicalMemory.movesNoted_fresh halloc
  · have hslot : ∀ k, callScope.slot k := fun _ => trivial
    exact (conducts_allocPhysicalPagesWithManager le_rfl hslot).ok halloc use.inHand

/-- `allocAndMapExplicit` end to end: when the pages fit in what is left of the higher half and
no table of a manager is full during the call, a call that returns serves its caller, and leaves
the state sound with the chunks among what callers hold. -/
theorem allocAndMapExplicit_serves (hm : m.Sound use usable)
    (hsize : PageSize.ofValue? (convertPreferredPageToAvailablePages preferred).pageSize = some s)
    (hroom : roundUp m.higherHalfRegion.start.toNat s.bytes +
        (np * (convertPreferredPageToAvailablePages preferred).numberOfPages).toNat * s.bytes ≤
      m.higherHalfRegion.limit.toNat)
    (hrun : allocAndMapExplicit depth np preferred m.fresh = .ok v m') (hfull : m'.NoneFull) :
    ∃ chunks use', use'.outstanding = chunks.map (Holding.mk s) ++ use.outstanding ∧
      m'.Sound use' usable ∧
      m.Serves m' use use' s
        (np * (convertPreferredPageToAvailablePages preferred).numberOfPages).toNat v
        (chunkPages s v chunks) := by
  obtain ⟨next, chunks, p, htakes, hmap⟩ := allocAndMapExplicit_takes hm hsize hroom hrun
  obtain ⟨use', hserves⟩ := htakes.serves hm hmap hfull
  exact ⟨chunks, use', hserves⟩

end Explicit

/-- Memory with 16 free frames, and a level-4 table without entries behind the tables of the
managers. -/
def sixteenFrames : MappedMemory :=
  ⟨higherHalfRegion, fun _ => 0, 0x14000, ⟨0x1000, [⟨0x2000, 16⟩], 256, 1⟩,
    ⟨0x12000, [], 256, 1⟩, ⟨0x13000, [], 256, 1⟩, []⟩

theorem sixteenFrames_sound : sixteenFrames.Sound ⟨emptyRadix 0x14000, [0x14000], []⟩
    {a | ∃ x ∈ Custody.spans (sixteenFrames.paging.allocator, [tableFrame 0x14000]), a ∈ x} := by
  refine MappedMemory.Sound.of_zero (by decide) (fun _ => rfl)
    (Custody.owns_of_sorted ?_ ?_ ⟨fun s => ?_, fun s => ?_, ?_⟩) ⟨le_rfl, rfl⟩
  · decide +kernel
  · decide +kernel
  · cases s <;> decide
  · cases s <;> decide
  · decide

/-- A run that only wrote a slot saw no full table. -/
theorem noneFull_of_journal {m : MappedMemory} {slot : Nat}
    (h : m.paging.allocator.journal = [.slotWritten slot]) : m.NoneFull := by
  intro t ht
  rw [h] at ht
  simp at ht

/-- Three frames are mapped, and three more become page tables. -/
theorem allocAndMapExplicit_serves_three :
    ∃ v m' chunks use', allocAndMapExplicit 1 3 0x1000 sixteenFrames.fresh = .ok v m' ∧
      sixteenFrames.Serves m' ⟨emptyRadix 0x14000, [0x14000], []⟩ use' .basePage 3 v
        (chunkPages .basePage v chunks) := by
  obtain ⟨v, m', hrun, hjournal⟩ : ReturnsWith (allocAndMapExplicit 1 3 0x1000 sixteenFrames.fresh)
      fun _ m' => m'.paging.allocator.journal = [.slotWritten 0] := by decide +kernel
  have hfull := noneFull_of_journal hjournal
  have hsize : PageSize.ofValue? (convertPreferredPageToAvailablePages 0x1000).pageSize =
      some .basePage := by decide +kernel
  have hroom : roundUp sixteenFrames.higherHalfRegion.start.toNat PageSize.basePage.bytes +
      ((3 : U64) * (convertPreferredPageToAvailablePages 0x1000).numberOfPages).toNat *
        PageSize.basePage.bytes ≤ sixteenFrames.higherHalfRegion.limit.toNat := by
    decide +kernel
  have hpages : ((3 : U64) * (convertPreferredPageToAvailablePages 0x1000).numberOfPages).toNat =
      3 := by decide +kernel
  obtain ⟨chunks, use', -, -, hserves⟩ :=
    allocAndMapExplicit_serves sixteenFrames_sound hsize hroom hrun hfull
  rw [hpages] at hserves
  exact ⟨v, m', chunks, use', hrun, hserves⟩

end Homegrown.Memory
