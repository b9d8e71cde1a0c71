import Homegrown.Memory.Policy.GiveBack

/-!
# Handing pages over

Physical memory is taken and given back in regions, and callers hold it in pages. What a call of
the allocator leaves in hand as chunks is held as the pages that are looked up behind the returned
address, and what callers hold as pages is given back as the regions that `freeMapped` joins.
-/

namespace Homegrown.Memory

open Radix

section Regroup

variable {m : MappedMemory} {use : MemoryUse} {usable : Set Nat} {outstanding : List Holding}

/-- What callers hold may be cut and joined, as long as it covers the same addresses. -/
theorem MappedMemory.Sound.regroup (h : m.Sound use usable) (outstanding : List Holding)
    (hcount : ∀ a, Span.count (outstanding.map Holding.span) a =
      Span.count (use.outstanding.map Holding.span) a)
    (haligned : ∀ x ∈ outstanding, x.pageSize.bytes ∣ x.memory.pageStart.toNat) :
    m.Sound { use with outstanding } usable := by
  refine ⟨h.directory, h.pruned, h.mem_tables, h.owns.congr (fun a => ?_)
    ⟨h.owns.sound.aligned.listed, h.owns.sound.aligned.tables, fun x hx => ?_⟩,
    h.inHigherHalf, h.unmapped⟩
  · simp only [Custody.count_spans, MemoryUse.count_inHand, hcount]
    rfl
  · rcases List.mem_append.mp hx with hx | hx
    · exact h.owns.sound.aligned.inHand x (List.mem_append_left _ hx)
    · exact haligned x hx

end Regroup

/-! ## Pages in hand -/

namespace VirtualPage

/-- A page in hand: one page at its frame. -/
def holding (p : VirtualPage) : Holding := ⟨p.size, ⟨p.frame, 1⟩⟩

@[simp] theorem span_holding (p : VirtualPage) : p.holding.span = p.frameSpan := by
  simp [holding, Holding.span, PagedMemory.span, frameSpan]

@[simp] theorem sizedSpan_sizedFrame (p : VirtualPage) : sizedSpan p.sizedFrame = p.frameSpan := by
  rw [sizedSpan, sizedFrame, PageSize.toNat_value, frameSpan]

end VirtualPage

theorem map_span_holding (pages : List VirtualPage) :
    (pages.map VirtualPage.holding).map Holding.span = pages.map VirtualPage.frameSpan := by
  rw [List.map_map]
  exact List.map_congr_left fun p _ => p.span_holding

/-- The page so many pages behind an address. -/
theorem toNat_nthPage {s : PageSize} {v : U64} {k : Nat} (hend : v.toNat + k * s.bytes < 2 ^ 64) :
    (v + BitVec.ofNat 64 k * s.value).toNat = v.toNat + k * s.bytes := by
  have hpos := Nat.le_mul_of_pos_right k s.bytes_pos
  have hwide : (BitVec.ofNat 64 k).toNat = k := by
    rw [BitVec.toNat_ofNat]
    exact Nat.mod_eq_of_lt (by omega)
  have hnext := toNat_add_pages (v := v) (n := BitVec.ofNat 64 k) (s := s) (by rwa [hwide])
  rwa [hwide] at hnext

/-- The pages from an address on, with the frames that are looked up for them. -/
def MappedMemory.pagesAt (m : MappedMemory) (s : PageSize) (v : U64) (n : Nat) :
    List VirtualPage :=
  (List.range n).map fun k =>
    let virt := v + BitVec.ofNat 64 k * s.value
    ⟨virt, s, getPhysicalAddressFrame (m.lookUp virt).entry⟩

section PagesAt

variable {m : MappedMemory} {s : PageSize} {v : U64} {n k : Nat} {q : VirtualPage}

/-- The pages start one behind the other. -/
theorem MappedMemory.exists_index_pagesAt (hend : v.toNat + n * s.bytes < 2 ^ 64)
    (hq : q ∈ m.pagesAt s v n) : q.size = s ∧ ∃ k < n, q.virt.toNat = v.toNat + k * s.bytes := by
  rw [pagesAt, List.mem_map] at hq
  obtain ⟨k, hk, rfl⟩ := hq
  rw [List.mem_range] at hk
  have hle := Nat.mul_le_mul_right s.bytes hk.le
  exact ⟨rfl, k, hk, toNat_nthPage (by omega)⟩

/-- Each of the pages has its place. -/
theorem MappedMemory.exists_page_pagesAt (hend : v.toNat + n * s.bytes < 2 ^ 64) (hk : k < n) :
    ∃ q ∈ m.pagesAt s v n, q.size = s ∧ q.virt.toNat = v.toNat + k * s.bytes := by
  have hle := Nat.mul_le_mul_right s.bytes hk.le
  exact ⟨_, List.mem_map_of_mem (List.mem_range.mpr hk), rfl, toNat_nthPage (by omega)⟩

/-- The pages cover the addresses from the first one on. -/
theorem MappedMemory.mem_span_pagesAt (hend : v.toNat + n * s.bytes < 2 ^ 64) {a : Nat} :
    a ∈ Span.mk v.toNat (n * s.bytes) ↔ ∃ q ∈ m.pagesAt s v n, a ∈ q.span := by
  rw [Span.mem_mul_iff s.bytes_pos]
  constructor
  · rintro ⟨k, hk, ha⟩
    obtain ⟨q, hq, hsize, hvirt⟩ := exists_page_pagesAt (m := m) hend hk
    refine ⟨q, hq, ?_⟩
    rwa [VirtualPage.span, hsize, hvirt]
  · rintro ⟨q, hq, ha⟩
    obtain ⟨hsize, k, hk, hvirt⟩ := exists_index_pagesAt hend hq
    rw [VirtualPage.span, hsize, hvirt] at ha
    exact ⟨k, hk, ha⟩

end PagesAt

section Taken

variable {m m' : MappedMemory} {use use' : MemoryUse} {usable : Set Nat} {s : PageSize}
  {n depth : Nat} {v : U64} {next : VirtualRegion} {p : PhysicalMemory}
  {chunks : List PagedMemory} {q : VirtualPage}

/-- What is in hand below bit 48. -/
theorem MappedMemory.Sound.holding_lt (h : m.Sound use usable) (hbelow : ∀ a ∈ usable, a < 2 ^ 48)
    {x : Holding} (hx : x ∈ use.outstanding) {a : Nat} (ha : a ∈ x.span) : a < 2 ^ 48 :=
  hbelow a ((h.owns.cover.covers a).mpr ⟨x.span, List.mem_append_right _
    (List.mem_map_of_mem (List.mem_append_right _ hx)), ha⟩)

/-- A page of a chunk that is in hand: the leaf on the paths of its addresses, and its frame. -/
structure Backed (tree : Radix (BitVec 9) U64 U64) (p : VirtualPage) : Prop where
  virt_aligned : p.size.bytes ∣ p.virt.toNat
  frame_aligned : p.size.bytes ∣ p.frame.toNat
  frame_lt : p.frame.toNat + p.size.bytes ≤ 2 ^ 48
  leaf : ∀ a : U64, a.toNat ∈ p.span →
    tree.leaf (path a (pageSizeToDepth p.size)) = some (pageEntry p.size p.frame 0)

/-- The frame that is looked up for a page is the frame of the page. -/
theorem Backed.frame_eq {tree : Radix (BitVec 9) U64 U64}
    (h : Backed tree q) : getPhysicalAddressFrame (pageEntry q.size q.frame 0) = q.frame := by
  have hpos := q.size.bytes_pos
  have hlt := h.frame_lt
  rw [getPhysicalAddressFrame_pageEntry (by decide)]
  exact (getPhysicalAddressFrame_eq_iff (q.size.pageFrameSize_dvd.trans h.frame_aligned)).mpr
    (by omega)

/-- The chunks that were handed out back the pages that were mapped to them. -/
theorem MappedMemory.Takes.backed (h : m.Takes use s n v next chunks p) (hm : m.Sound use usable)
    (hm' : m'.Sound use' usable) (hbelow : ∀ a ∈ usable, a < 2 ^ 48)
    (hout : use'.outstanding = chunks.map (Holding.mk s) ++ use.outstanding)
    (hgrown : GrownBy use.tree use'.tree (Leaves (chunkCalls s v chunks)))
    (hq : q ∈ chunkPages s v chunks) : q.size = s ∧ Backed use'.tree q := by
  have hhalf : higherHalfStart.toNat ≤ v.toNat := hm.inHigherHalf.1.trans h.start_le
  obtain ⟨c, hc, k, hk, rfl⟩ := mem_chunkPages.mp hq
  have hcall := chunkCall_of_mem h.aligned h.fits hc
  have hvalid := hcall.valid h.fits hhalf
  have hchunk : Holding.mk s c.memory ∈ use'.outstanding := by
    rw [hout]
    exact List.mem_append_left _ (List.mem_map_of_mem hcall.memory)
  have hhand : Holding.mk s c.memory ∈ use'.inHand := List.mem_append_right _ hchunk
  have haligned := hm'.owns.sound.aligned.inHand _ hhand
  have hframe : (c.physical k).toNat = c.memory.pageStart.toNat + k * s.bytes := by
    have hwide : (BitVec.ofNat 64 k).toNat = k := by
      rw [BitVec.toNat_ofNat]
      exact Nat.mod_eq_of_lt (hk.trans c.memory.numberOfPages.isLt)
    have hpage := PagedMemory.toNat_page (hm'.owns.sound.bounded_inHand hhand)
      (n := BitVec.ofNat 64 k) (by rwa [hwide])
    rw [hwide] at hpage
    rw [MapCall.physical, hcall.pageType]
    exact hpage
  refine ⟨hcall.pageType, ?_, ?_, ?_, ?_⟩
  · exact (hvalid.page hk).1
  · change c.pageType.bytes ∣ (c.physical k).toNat
    rw [hframe, hcall.pageType]
    exact Nat.dvd_add haligned (Nat.dvd_mul_left _ _)
  · -- The last address of the page is in hand.
    have hpos := s.bytes_pos
    have hle := Nat.mul_le_mul_right s.bytes (Nat.succ_le_of_lt hk)
    rw [Nat.succ_mul] at hle
    have hlast := hm'.holding_lt hbelow hchunk
      (a := c.memory.pageStart.toNat + k * s.bytes + (s.bytes - 1)) (by
        change _ ∈ Span.mk c.memory.pageStart.toNat (c.pages * s.bytes)
        rw [Span.mem_mk]
        omega)
    change (c.physical k).toNat + c.pageType.bytes ≤ _
    rw [hframe, hcall.pageType]
    omega
  · intro a ha
    rw [hvalid.span_eq hk] at ha
    change use'.tree.leaf (path a (pageSizeToDepth c.pageType)) =
      some (pageEntry c.pageType (c.physical k) 0)
    rw [← hcall.flags, MapCall.pageEntry_eq, hvalid.path_eq hk ha]
    exact (hgrown.leaf_iff _ _).mpr (.inr ⟨c, hc, k, Nat.zero_le k, hk, rfl, rfl⟩)

/-- The pages that were mapped are those that are looked up. -/
theorem MappedMemory.Takes.pagesAt_eq (h : m.Takes use s n v next chunks p)
    (hm : m.Sound use usable) (hm' : m'.Sound use' usable)
    (hbacked : ∀ q ∈ chunkPages s v chunks, q.size = s ∧ Backed use'.tree q) :
    m'.pagesAt s v n = chunkPages s v chunks := by
  have hhalf : higherHalfStart.toNat ≤ v.toNat := hm.inHigherHalf.1.trans h.start_le
  have hvirt : (chunkPages s v chunks).map VirtualPage.virt =
      (List.range n).map fun k => v + BitVec.ofNat 64 k * s.value := by
    have htoNat := map_virt_chunkPages h.aligned h.fits hhalf
    rw [h.pages] at htoNat
    have hinjective : Function.Injective (List.map (BitVec.toNat : U64 → Nat)) :=
      List.map_injective_iff.mpr fun _ _ => BitVec.eq_of_toNat_eq
    apply hinjective
    rw [List.map_map, List.map_map]
    refine htoNat.trans (List.map_congr_left fun k hk => ?_)
    have hle := Nat.mul_le_mul_right s.bytes (List.mem_range.mp hk).le
    have hfits := h.fits
    rw [h.pages] at hfits
    exact (toNat_nthPage (by omega)).symm
  have hpage : ∀ q ∈ chunkPages s v chunks,
      VirtualPage.mk q.virt s (getPhysicalAddressFrame (m'.lookUp q.virt).entry) = q := by
    intro q hq
    obtain ⟨rfl, hb⟩ := hbacked q hq
    rw [MappedMemory.lookUp, hm'.directory.getMappedPage_eq (hb.leaf _ q.virt_mem_span),
      hb.frame_eq]
  have hmap := congrArg (List.map fun virt => VirtualPage.mk virt s
    (getPhysicalAddressFrame (m'.lookUp virt).entry)) hvirt
  rw [List.map_map, List.map_map] at hmap
  exact hmap.symm.trans ((List.map_congr_left hpage).trans (List.map_id _))

end Taken

/-! ## Regions that are given back -/

/-- A region in hand, as `freePhysicalPage` is called for it. -/
def Holding.region (x : Holding) : PagedMemory × U64 := (x.memory, x.pageSize.value)

section Freed

variable {depth : Nat} {m m' : MappedMemory} {x : Holding} {freed : List Holding} {u : Unit}
  {pages : List VirtualPage} {c : FreeCalls}

/-- The regions of a run, as they were in hand. -/
theorem FreeCalls.Filled.exists_freed (h : c.Filled) :
    ∃ freed : List Holding, freed.map Holding.region = c.freed := by
  have hall : c.freed ∈ Set.range (List.map Holding.region) := by
    rw [Set.range_list_map]
    intro f hf
    obtain ⟨-, s, hs⟩ := h f hf
    exact ⟨⟨s, f.1⟩, Prod.ext rfl hs.symm⟩
  exact hall

/-- The frames of a region cover what the region covers. -/
theorem Holding.count_framesOf (hpos : 0 < x.memory.numberOfPages.toNat)
    (hbelow : ∀ y ∈ framesOf x.region, y.1.toNat < 2 ^ 48) (a : Nat) :
    Span.count ((framesOf x.region).map sizedSpan) a = Span.count [x.span] a := by
  have hbounded : x.memory.Bounded x.pageSize := by
    have hbytes := x.pageSize.bytes_le
    have hlast := toNat_frame hbelow (Nat.sub_lt hpos Nat.one_pos)
    have hlt := hlast.symm.trans_lt
      (hbelow _ (List.mem_map_of_mem (List.mem_range.mpr (Nat.sub_lt hpos Nat.one_pos))))
    have hsplit : (x.memory.numberOfPages.toNat - 1) * x.pageSize.bytes + x.pageSize.bytes =
        x.memory.numberOfPages.toNat * x.pageSize.bytes := by
      rw [← Nat.succ_mul]
      congr 1
      omega
    rw [PagedMemory.bounded_iff]
    omega
  have hcount := count_frames hbounded le_rfl a
  rw [framesOf, List.map_map]
  refine Eq.trans (congrArg (fun l => Span.count l a) (List.map_congr_left fun k _ => ?_)) hcount
  simp only [Function.comp, sizedSpan, Holding.region, PageSize.toNat_value]

/-- The frames of all regions cover what the regions cover. -/
theorem count_framesOf (hfilled : ∀ x ∈ freed, 0 < x.memory.numberOfPages.toNat)
    (hbelow : ∀ y ∈ (freed.map Holding.region).flatMap framesOf, y.1.toNat < 2 ^ 48) (a : Nat) :
    Span.count (((freed.map Holding.region).flatMap framesOf).map sizedSpan) a =
      Span.count (freed.map Holding.span) a := by
  induction freed with
  | nil => rfl
  | cons x freed ih =>
    rw [List.forall_mem_cons] at hfilled
    rw [List.map_cons, List.flatMap_cons, List.forall_mem_append] at hbelow
    rw [List.map_cons, List.flatMap_cons, List.map_append, Span.count_append,
      Holding.count_framesOf hfilled.1 hbelow.1, ih hfilled.2 hbelow.2, ← Span.count_append,
      List.singleton_append, List.map_cons]

/-- Regions that are freed go from the caller's hand to the managers, and nothing else changes. -/
theorem freeRegions_moves (hrun : freeRegions depth (freed.map Holding.region) m = .ok u m') :
    ∃ p, m' = { m with paging := { m.paging with allocator := p } } ∧
      (m.paging.allocator.MovesNoted → p.MovesNoted) ∧
      ∀ hand, Moves callScope (m.paging.allocator, freed ++ hand) (p, hand) := by
  induction freed generalizing m with
  | nil =>
    obtain ⟨-, rfl⟩ := pure_eq_ok.mp hrun
    exact ⟨m.paging.allocator, rfl, id, fun _ => .refl⟩
  | cons x freed ih =>
    rw [List.map_cons, Holding.region, freeRegions, bind_eq_ok, freePageOfSize_value] at hrun
    obtain ⟨_, m₁, hfirst, hrest⟩ := hrun
    obtain ⟨p, hfree, rfl⟩ := zoom_eq_ok.mp hfirst
    obtain ⟨p', rfl, hnoted, hmoves⟩ := ih hrest
    have hgive : Conducts (Move callScope) (freePhysicalPages depth [x.memory] x.pageSize)
        m.paging.allocator [x] (fun _ => []) :=
      conducts_freePhysicalPages le_rfl (conducts_allocContiguousPhysicalPages le_rfl) [x.memory]
    have hconducts := hgive.ok hfree
    refine ⟨p', rfl, fun h => hnoted ?_,
      fun hand => (hconducts (freed ++ hand)).trans (hmoves hand)⟩
    exact (keeps_freePhysicalPagesWithManager
      (fun n => AddsToJournal.allocContiguousPhysicalPagesWithManager depth n _) x.pageSize _).of_ok
      h hfree

end Freed

end Homegrown.Memory
