import Homegrown.Memory.Policy.Backing
import Homegrown.Memory.Policy.Freeing

/-!
# Giving back what was allocated

`freeMapped` never sees the allocation: it looks the pages up again and joins the frames that
follow each other. It gives back what `allocAndMap` took, in other regions than it was taken in.
For a number of bytes so large that the number of pages wraps to zero, `allocAndMap` returns an
address at which nothing is mapped, and `freeMapped` frees a page nobody has taken.
-/

namespace Homegrown.Memory

section Served

variable {m m' : MappedMemory} {use use' : MemoryUse} {usable : Set Nat} {s : PageSize}
  {n depth rounds : Nat} {v bytes : U64} {pages : List VirtualPage} {p : VirtualPage}
  {c : FreeCalls} {u : Unit}

/-! ## The pages of a call -/

/-- All free memory is usable. -/
theorem MappedMemory.Sound.free_subset (h : m.Sound use usable) : m.free ⊆ usable := by
  rintro a ⟨x, hx, ha⟩
  obtain ⟨t, r, hr, rfl⟩ := PhysicalMemory.mem_freeSpans.mp hx
  exact (h.owns.cover.covers a).mpr ⟨_, List.mem_append_left _
    (PhysicalMemory.mem_spans_iff.mpr ⟨t, List.mem_cons_of_mem _ (List.mem_map_of_mem hr)⟩), ha⟩

/-- The frames behind the pages are usable memory. -/
theorem MappedMemory.Serves.frame_lt (h : m.Serves m' use use' s n v pages)
    (hm : m.Sound use usable) (hbelow : ∀ a ∈ usable, a < 2 ^ 48) (hp : p ∈ pages) :
    p.frame.toNat < 2 ^ 48 := by
  have hpos := p.size.bytes_pos
  refine hbelow _ (hm.free_subset (h.wasFree p hp _ ?_))
  rw [VirtualPage.frameSpan, Span.mem_mk]
  omega

/-- A page starts at one of the addresses. -/
theorem MappedMemory.Serves.exists_index (h : m.Serves m' use use' s n v pages) (hp : p ∈ pages) :
    ∃ k < n, v.toNat + k * s.bytes = p.virt.toNat := by
  have hmem := List.mem_map_of_mem (f := fun p : VirtualPage => p.virt.toNat) hp
  rw [h.virt_eq, pagesFrom, List.mem_map] at hmem
  simpa only [List.mem_range] using hmem

/-- At each of the addresses a page starts. -/
theorem MappedMemory.Serves.exists_page (h : m.Serves m' use use' s n v pages) {k : Nat}
    (hk : k < n) : ∃ p ∈ pages, p.virt.toNat = v.toNat + k * s.bytes := by
  have hmem : v.toNat + k * s.bytes ∈ pagesFrom s v.toNat n :=
    List.mem_map_of_mem (List.mem_range.mpr hk)
  rw [← h.virt_eq, List.mem_map] at hmem
  exact hmem

/-- The pages do not overlap. -/
theorem MappedMemory.Serves.pairwise (h : m.Serves m' use use' s n v pages) :
    pages.Pairwise fun p q => p.span.Disjoint q.span := by
  have hsorted : (pages.map fun p => p.virt.toNat).Pairwise fun a b => a + s.bytes ≤ b := by
    rw [h.virt_eq, pagesFrom, List.pairwise_map]
    refine List.pairwise_lt_range.imp fun {j k} hjk => ?_
    have hle := Nat.mul_le_mul_right s.bytes (Nat.succ_le_of_lt hjk)
    rw [Nat.succ_mul] at hle
    omega
  rw [List.pairwise_map] at hsorted
  refine hsorted.imp_of_mem fun {p q} hp _ hpq => Span.disjoint_of_stop_le ?_
  rw [VirtualPage.span, Span.stop, h.size_eq p hp]
  exact hpq

/-- The pages of a call are laid out for the bytes that were asked for. -/
theorem MappedMemory.Serves.laidOut (h : m.Serves m' use use' s n v pages)
    (hframe : ∀ p ∈ pages, p.frame.toNat < 2 ^ 48) (hfits : v.toNat + n * s.bytes < 2 ^ 64)
    (henough : bytes.toNat ≤ n * s.bytes) :
    LaidOut m'.lookUp pages ⟨v.toNat, bytes.toNat⟩ := by
  constructor
  case aligned =>
    intro p hp
    obtain ⟨k, -, hk⟩ := h.exists_index hp
    rw [h.size_eq p hp, ← hk]
    exact Nat.dvd_add h.aligned (Nat.dvd_mul_left _ _)
  case fits =>
    intro p hp
    obtain ⟨k, hlt, hk⟩ := h.exists_index hp
    have hle := Nat.mul_le_mul_right s.bytes (Nat.succ_le_of_lt hlt)
    rw [Nat.succ_mul] at hle
    rw [h.size_eq p hp]
    omega
  case disjoint => exact h.pairwise
  case covered =>
    intro a ha
    have hin : a ∈ Span.mk v.toNat (n * s.bytes) := by
      rw [Span.mem_mk] at ha ⊢
      omega
    obtain ⟨k, hk, hak⟩ := (Span.mem_mul_iff s.bytes_pos).mp hin
    obtain ⟨p, hp, hvirt⟩ := h.exists_page hk
    refine ⟨p, hp, ?_⟩
    rwa [VirtualPage.span, h.size_eq p hp, hvirt]
  case looked =>
    intro p hp a _ ha
    have haligned : pageFrameSize ∣ p.frame.toNat :=
      s.pageFrameSize_dvd.trans (h.frame_aligned p hp)
    rw [h.looked p hp a ha, h.size_eq p hp]
    refine ⟨rfl, ?_⟩
    rw [getPhysicalAddressFrame_pageEntry (by decide)]
    exact (getPhysicalAddressFrame_eq_iff haligned).mpr (hframe p hp)

/-- All pages of a call start within the bytes, if there is no whole page too much. -/
theorem MappedMemory.Serves.pagesStartingIn_eq (h : m.Serves m' use use' s n v pages)
    (hwaste : n * s.bytes < bytes.toNat + s.bytes) :
    pagesStartingIn pages ⟨v.toNat, bytes.toNat⟩ = pages := by
  rw [pagesStartingIn, List.filter_eq_self]
  intro p hp
  obtain ⟨k, hlt, hk⟩ := h.exists_index hp
  have hle := Nat.mul_le_mul_right s.bytes (Nat.succ_le_of_lt hlt)
  rw [Nat.succ_mul] at hle
  rw [decide_eq_true_iff, Span.mem_mk]
  omega

/-- Where the frames of the pages are freed, only those of page tables are missing of what was
free. -/
theorem MappedMemory.Serves.free_after (h : m.Serves m' use use' s n v pages)
    (hframe : ∀ p ∈ pages, p.frame.toNat < 2 ^ 48)
    (hcalls : freeMappedCalls m'.lookUp rounds v bytes ⟨[], []⟩ = .ok u c)
    (hframes : c.frames.Perm (pages.map VirtualPage.sizedFrame))
    (hfull : (final (freeMapped lookUpPage (freePageOfSize depth) rounds v bytes m')).NoneFull) :
    ReturnsWith (freeMapped lookUpPage (freePageOfSize depth) rounds v bytes m') fun _ m'' =>
      m''.free = m.free \ {a | ∃ t ∈ use'.tree.tables, a ∈ (tableFrame t).span} := by
  have hfilled := (freeMappedCalls_filled (exists_pageSize_getMappedPage _ _) hcalls).1
  have hmem {x : U64 × U64} : x ∈ c.frames ↔ ∃ p ∈ pages, p.sizedFrame = x := by
    rw [hframes.mem_iff, List.mem_map]
  have hbelow : ∀ x ∈ c.frames, x.1.toNat < 2 ^ 48 := by
    intro x hx
    obtain ⟨p, hp, rfl⟩ := hmem.mp hx
    exact hframe p hp
  have hspan (p : VirtualPage) : sizedSpan p.sizedFrame = p.frameSpan := by
    rw [sizedSpan, VirtualPage.sizedFrame, PageSize.toNat_value, VirtualPage.frameSpan]
  have hfreed (a : Nat) : (∃ f ∈ c.freed, a ∈ freedSpan f) ↔ ∃ p ∈ pages, a ∈ p.frameSpan := by
    rw [hfilled.mem_freed hbelow]
    constructor
    · rintro ⟨x, hx, ha⟩
      obtain ⟨p, hp, rfl⟩ := hmem.mp hx
      exact ⟨p, hp, hspan p ▸ ha⟩
    · rintro ⟨p, hp, ha⟩
      exact ⟨_, hmem.mpr ⟨p, hp, rfl⟩, (hspan p).symm ▸ ha⟩
  rw [freeMapped_eq_freeRegions hcalls] at hfull ⊢
  refine (freeRegions_returns (fun f hf => (hfilled f hf).2) hfull).weaken fun _ m'' hfree => ?_
  rw [hfree, h.free_eq]
  ext a
  rw [Set.mem_union, Set.mem_sdiff, Set.mem_sdiff, Set.mem_ofPred_eq, Set.mem_ofPred_eq,
    Set.mem_ofPred_eq, hfreed]
  constructor
  · rintro (⟨ha, hnot⟩ | ⟨p, hp, ha⟩)
    · exact ⟨ha, fun htable => hnot (.inr htable)⟩
    · refine ⟨h.wasFree p hp a ha, ?_⟩
      rintro ⟨t, ht, hat⟩
      exact h.notTable p hp t ht a ha hat
  · rintro ⟨ha, hnot⟩
    by_cases hpage : ∃ p ∈ pages, a ∈ p.frameSpan
    · exact .inr hpage
    · exact .inl ⟨ha, fun hin => hin.elim hpage hnot⟩

end Served

/-! ## The pages of a number of bytes -/

/-- The page size that `allocAndMap` chooses. -/
def chosenPageSize (bytes : U64) : PageSize :=
  if ceilingDivValue bytes PageSize.basePage.value ≤
      BitVec.ofNat 64 (PageTableFormat.entries / 2) then .basePage
  else if ceilingDivValue bytes PageSize.largePage.value ≤
      BitVec.ofNat 64 (PageTableFormat.entries / 2) then .largePage
  else .hugePage

/-- The number of pages that `allocAndMap` takes. -/
def chosenPages (bytes : U64) : U64 := ceilingDivValue bytes (chosenPageSize bytes).value

section Chosen

variable {depth : Nat} {bytes : U64}

theorem allocAndMap_eq (depth : Nat) (bytes : U64) : allocAndMap depth bytes =
    allocAndMapExplicit depth (chosenPages bytes) (chosenPageSize bytes).value := by
  rw [chosenPages, allocAndMap, allocAndMapFrom, allocAndMapFrom, allocAndMapFrom, chosenPageSize]
  split
  · rfl
  · split <;> rfl

/-- A page size is not converted. -/
theorem converted_pages (np : U64) (s : PageSize) :
    PageSize.ofValue? (convertPreferredPageToAvailablePages s.value).pageSize = some s ∧
      np * (convertPreferredPageToAvailablePages s.value).numberOfPages = np := by
  obtain ⟨hconverted, hvalue⟩ := convertPreferredPageToAvailablePages_value s
  rw [hconverted]
  exact ⟨hvalue, BitVec.mul_one np⟩

/-- The pages are as many as the bytes need. -/
theorem chosenPages_bounds (h : bytes.toNat ≤ 2 ^ 64 - 2 ^ 30) :
    bytes.toNat ≤ (chosenPages bytes).toNat * (chosenPageSize bytes).bytes ∧
      (chosenPages bytes).toNat * (chosenPageSize bytes).bytes <
        bytes.toNat + (chosenPageSize bytes).bytes := by
  rw [chosenPages]
  generalize chosenPageSize bytes = s
  obtain ⟨hsize, hpages⟩ := converted_pages (ceilingDivValue bytes s.value) s
  have hfor : Grant.For ⟨s, (ceilingDivValue bytes s.value).toNat, []⟩
      (ceilingDivValue bytes s.value) s.value := by
    refine ⟨hsize, ?_⟩
    rw [hpages]
  exact hfor.bytes_bounds h

/-- Where rounding up does not wrap, so many bytes are too many for half a table. -/
theorem not_le_half_of_lt {s : PageSize} (h : 2 ^ 64 - 2 ^ 30 < bytes.toNat)
    (hwrap : bytes.toNat + s.bytes ≤ 2 ^ 64) :
    ¬ ceilingDivValue bytes s.value ≤ BitVec.ofNat 64 (PageTableFormat.entries / 2) := by
  have hpos := s.bytes_pos
  have hvalue := toNat_ceilingDivValue s.isTwoPow_value hwrap
  change _ = (bytes.toNat + (s.bytes - 1)) / s.bytes at hvalue
  rw [BitVec.le_def, hvalue]
  change ¬ (bytes.toNat + (s.bytes - 1)) / s.bytes ≤ 256
  rw [Nat.not_le, Nat.lt_div_iff_mul_lt hpos]
  omega

/-- From the last page of the largest size on, there are none. -/
theorem chosenPages_eq_zero (h : 2 ^ 64 - 2 ^ 30 < bytes.toNat) :
    (chosenPages bytes).toNat = 0 := by
  have hwrap : 2 ^ 64 < bytes.toNat + (chosenPageSize bytes).bytes := by
    unfold chosenPageSize
    split
    · rename_i hhalf
      by_contra hfits
      exact not_le_half_of_lt h (not_lt.mp hfits) hhalf
    · split
      · rename_i hhalf
        by_contra hfits
        exact not_le_half_of_lt h (not_lt.mp hfits) hhalf
      · rw [PageSize.bytes_hugePage]
        omega
  exact toNat_ceilingDivValue_wrap (chosenPageSize bytes).isTwoPow_value hwrap

end Chosen

/-! ## The pair of calls -/

/-- `freeMapped` gives back what `allocAndMap` has taken: it frees exactly the frames of the pages
of the call, each once and at the size it was taken in, and if no table becomes full meanwhile,
what was free before the pair is free after it, but for the frames of page tables. -/
def MappedMemory.GivesBack (m m' : MappedMemory) (use : MemoryUse) (usable : Set Nat) (depth : Nat)
    (v bytes : U64) : Prop :=
  ∃ use' pages rounds, m'.Sound use' usable ∧
    m.Serves m' use use' (chosenPageSize bytes) (chosenPages bytes).toNat v pages ∧
    (ReturnsWith (freeMappedCalls m'.lookUp rounds v bytes ⟨[], []⟩) fun _ c =>
      c.frames.Perm (pages.map VirtualPage.sizedFrame)) ∧
    ((final (freeMapped lookUpPage (freePageOfSize depth) rounds v bytes m')).NoneFull →
      ReturnsWith (freeMapped lookUpPage (freePageOfSize depth) rounds v bytes m') fun _ m'' =>
        m''.free = m.free \ {a | ∃ t ∈ use'.tree.tables, a ∈ (tableFrame t).span})

/-- The pages for the bytes fit in what is left of the higher half. -/
def MappedMemory.HasRoom (m : MappedMemory) (bytes : U64) : Prop :=
  roundUp m.higherHalfRegion.start.toNat (chosenPageSize bytes).bytes +
    (chosenPages bytes).toNat * (chosenPageSize bytes).bytes ≤ m.higherHalfRegion.limit.toNat

section Pair

variable {m m' : MappedMemory} {use use' : MemoryUse} {usable : Set Nat} {depth : Nat}
  {v bytes : U64} {s : PageSize} {chunks : List PagedMemory} {pages : List VirtualPage} {u : Unit}

/-- Chunks without pages are mapped without a change. -/
theorem mapChunks_of_no_pages (hzero : pagesIn chunks = 0)
    (h : mapChunks depth s v chunks m = .ok u m') : m = m' := by
  induction chunks generalizing v m with
  | nil => exact (pure_eq_ok.mp h).2
  | cons chunk chunks ih =>
    rw [pagesIn_cons, Nat.add_eq_zero_iff] at hzero
    simp only [mapChunks, onPaging, bind_eq_ok, zoom_eq_ok] at h
    obtain ⟨_, _, ⟨paging, hcall, rfl⟩, hrest⟩ := h
    simp only [mapVirtualRegion, mapVirtualRegionWithFlags, hzero.1, mapPages, bind_eq_ok,
      get_eq_ok, assert_eq_ok, pure_eq_ok] at hcall
    obtain ⟨_, _, ⟨rfl, rfl⟩, _, _, ⟨-, rfl⟩, _, _, ⟨-, rfl⟩, _, _, ⟨-, rfl⟩, _, _, ⟨-, rfl⟩, -,
      rfl⟩ := hcall
    exact ih hzero.2 hrest

/-- What a run has taken, as a call of `getVirtualMemory` and the chunks that are mapped. -/
theorem allocAndMap_of_ok (hrun : allocAndMap depth bytes m = .ok v m') :
    ∃ g : Grant, g.Of depth v m m' ∧ g.pageSize = chosenPageSize bytes ∧
      g.pages = (chosenPages bytes).toNat ∧ g.pages ≤ 512 := by
  rw [allocAndMap_eq] at hrun
  obtain ⟨g, hof, hfor, hle⟩ := allocAndMapExplicit_of_ok hrun
  exact ⟨g, hof, hfor.of_value.1, hfor.of_value.2, hle⟩

/-- The pages have room, since none of them wraps: an end behind the top is turned down. -/
theorem hasRoom_of_serves (hm : m.Sound use usable)
    (hrun : allocAndMap depth bytes m.fresh = .ok v m')
    (h : m.Serves m' use use' (chosenPageSize bytes) (chosenPages bytes).toNat v pages) :
    m.HasRoom bytes := by
  obtain ⟨g, ⟨⟨next, p, hregion, -⟩, -⟩, hsize, hpages, hle⟩ := allocAndMap_of_ok hrun
  change getVirtualMemory _ _ m.higherHalfRegion = _ at hregion
  have haligned := h.aligned
  have hpage : 0 < (chosenPages bytes).toNat → ∃ p ∈ pages, p.virt.toNat =
      v.toNat + ((chosenPages bytes).toNat - 1) * (chosenPageSize bytes).bytes :=
    fun hpos => h.exists_page (by omega)
  rw [MappedMemory.HasRoom]
  rw [← hsize, ← hpages] at *
  have hbytes : (BitVec.ofNat 64 g.bytes).toNat = g.pages * g.pageSize.bytes := by
    have hmul : g.bytes ≤ 512 * 2 ^ 30 := Nat.mul_le_mul hle g.pageSize.bytes_le
    rw [BitVec.toNat_ofNat]
    exact Nat.mod_eq_of_lt (by omega)
  have hv := toNat_getVirtualMemory hm.inHigherHalf.start_pos hregion
  obtain ⟨-, hstart, hlimit, -, -, -⟩ := getVirtualMemory_eq_ok hregion
  -- The pages end at the top of the address space at most.
  have htop : v.toNat + g.pages * g.pageSize.bytes ≤ 2 ^ 64 := by
    rcases Nat.eq_zero_or_pos g.pages with hzero | hpos
    · rw [hzero, Nat.zero_mul]
      exact v.isLt.le
    · obtain ⟨p, -, hvirt⟩ := hpage hpos
      obtain ⟨i, hi⟩ := haligned
      obtain ⟨j, hj⟩ : g.pageSize.bytes ∣ 2 ^ 64 := by cases g.pageSize <;> decide
      have hlt : g.pageSize.bytes * (i + (g.pages - 1)) < g.pageSize.bytes * j := by
        rw [← hj, Nat.mul_add, ← hi, Nat.mul_comm _ (g.pages - 1), ← hvirt]
        exact p.virt.isLt
      have hij : i + g.pages ≤ j := by
        have := Nat.lt_of_mul_lt_mul_left hlt
        omega
      rw [hj, hi, Nat.mul_comm g.pages, ← Nat.mul_add]
      exact Nat.mul_le_mul_left _ hij
  have hfits := (getVirtualMemory_fits_iff hm.inHigherHalf.start_pos hregion).mpr (by
    rw [VirtualCall.OvershootSeen, ← hv, hbytes]
    rw [BitVec.le_def] at hstart hlimit
    change _ + m.higherHalfRegion.start.toNat ≤ m.higherHalfRegion.limit.toNat + _
    omega)
  rwa [← hv, ← hbytes]

/-- A call that returns has taken virtual addresses and chunks, and has mapped them. -/
theorem allocAndMap_takes (hm : m.Sound use usable)
    (hrun : allocAndMap depth bytes m.fresh = .ok v m') (hroom : m.HasRoom bytes) :
    ∃ next chunks p, m.Takes use (chosenPageSize bytes) (chosenPages bytes).toNat v next chunks p ∧
      mapChunks depth (chosenPageSize bytes) v chunks
        ⟨next, { m.paging with allocator := p }⟩ = .ok () m' := by
  obtain ⟨hsize, hpages⟩ := converted_pages (chosenPages bytes) (chosenPageSize bytes)
  rw [allocAndMap_eq] at hrun
  have htakes := allocAndMapExplicit_takes hm hsize (by rw [hpages]; exact hroom) hrun
  rwa [hpages] at htakes

/-- Where the number of pages has wrapped, nothing is mapped. -/
theorem allocAndMap_of_lt (hlarge : 2 ^ 64 - 2 ^ 30 < bytes.toNat)
    (hrun : allocAndMap depth bytes m.fresh = .ok v m') :
    m'.lookUp = m.lookUp ∧
      v = alignUpValue m.higherHalfRegion.start (chosenPageSize bytes).value := by
  obtain ⟨g, ⟨⟨next, p, hregion, hmap⟩, hchunks⟩, hsize, hpages, -⟩ := allocAndMap_of_ok hrun
  rw [hpages, chosenPages_eq_zero hlarge] at hchunks
  have hsame := mapChunks_of_no_pages hchunks hmap
  obtain ⟨-, -, -, -, hv, -⟩ := getVirtualMemory_eq_ok hregion
  rw [← hsame, ← hsize]
  exact ⟨rfl, hv⟩

/-- A call that serves its caller with no page has no pages. -/
theorem pages_eq_nil (hlarge : 2 ^ 64 - 2 ^ 30 < bytes.toNat)
    (h : m.Serves m' use use' (chosenPageSize bytes) (chosenPages bytes).toNat v pages) :
    pages = [] := by
  have hvirt := h.virt_eq
  rw [chosenPages_eq_zero hlarge] at hvirt
  exact List.map_eq_nil_iff.mp hvirt

/-- Nothing that was not taken is given back only if the walk stops at once. -/
theorem stopsAtOnce_of_givesBack (hlarge : 2 ^ 64 - 2 ^ 30 < bytes.toNat)
    (hrun : allocAndMap depth bytes m.fresh = .ok v m')
    (h : m.GivesBack m' use usable depth v bytes) :
    StopsAtOnce m.lookUp (alignUpValue m.higherHalfRegion.start (chosenPageSize bytes).value)
      bytes := by
  obtain ⟨use', pages, rounds, -, hserves, ⟨_, c, hcalls, hframes⟩, -⟩ := h
  obtain ⟨hlookUp, hv⟩ := allocAndMap_of_lt hlarge hrun
  rw [pages_eq_nil hlarge hserves, List.map_nil, List.perm_nil] at hframes
  obtain ⟨hfilled, hstops⟩ := freeMappedCalls_filled (exists_pageSize_getMappedPage _ _) hcalls
  rw [← hlookUp, ← hv]
  exact hstops (hfilled.freed_eq_nil hframes)

/-- The calls of `freeMapped` are for the frames of the pages. -/
theorem freeMappedCalls_frames (hm : m.Sound use usable) (hbelow : ∀ a ∈ usable, a < 2 ^ 48)
    (hbytes : bytes ≠ 0) (hrun : allocAndMap depth bytes m.fresh = .ok v m')
    (hfits : v.toNat + (chosenPages bytes).toNat * (chosenPageSize bytes).bytes < 2 ^ 64)
    (h : m.Serves m' use use' (chosenPageSize bytes) (chosenPages bytes).toNat v pages)
    (hstops : bytes.toNat ≤ 2 ^ 64 - 2 ^ 30 ∨ StopsAtOnce m.lookUp
      (alignUpValue m.higherHalfRegion.start (chosenPageSize bytes).value) bytes) :
    ∃ rounds, ReturnsWith (freeMappedCalls m'.lookUp rounds v bytes ⟨[], []⟩) fun _ c =>
      c.frames.Perm (pages.map VirtualPage.sizedFrame) := by
  by_cases hsmall : bytes.toNat ≤ 2 ^ 64 - 2 ^ 30
  · obtain ⟨henough, hwaste⟩ := chosenPages_bounds hsmall
    have hlaid := h.laidOut (fun p hp => h.frame_lt hm hbelow hp) hfits henough
    refine ⟨2 ^ 64, (freeMappedCalls_returns hlaid hbytes (by omega)).weaken fun _ c hexact => ?_⟩
    have hframes := hexact.frames
    rwa [h.pagesStartingIn_eq hwaste] at hframes
  · obtain ⟨hlookUp, hv⟩ := allocAndMap_of_lt (not_le.mp hsmall) hrun
    have hstop := hstops.resolve_left hsmall
    rw [← hlookUp, ← hv] at hstop
    refine ⟨0, (), _, freeMappedCalls_of_stopsAtOnce hstop 0, ?_⟩
    rw [pages_eq_nil (not_le.mp hsmall) h]
    exact List.Perm.nil

/-- Allocation and release are inverse on physical memory exactly when the pages have room and
their number has not wrapped, or `freeMapped` stops at once. -/
theorem allocAndMap_givesBack_iff (hm : m.Sound use usable) (hbelow : ∀ a ∈ usable, a < 2 ^ 48)
    (hbytes : bytes ≠ 0) (hrun : allocAndMap depth bytes m.fresh = .ok v m')
    (hfull : m'.NoneFull) :
    m.GivesBack m' use usable depth v bytes ↔
      m.HasRoom bytes ∧ (bytes.toNat ≤ 2 ^ 64 - 2 ^ 30 ∨ StopsAtOnce m.lookUp
        (alignUpValue m.higherHalfRegion.start (chosenPageSize bytes).value) bytes) := by
  constructor
  · intro h
    refine ⟨?_, ?_⟩
    · obtain ⟨use', pages, -, -, hserves, -⟩ := h
      exact hasRoom_of_serves hm hrun hserves
    · rcases Nat.lt_or_ge (2 ^ 64 - 2 ^ 30) bytes.toNat with hlarge | hsmall
      · exact .inr (stopsAtOnce_of_givesBack hlarge hrun h)
      · exact .inl hsmall
  · rintro ⟨hroom, hstops⟩
    obtain ⟨next, chunks, p, htakes, hmap⟩ := allocAndMap_takes hm hrun hroom
    obtain ⟨use', -, hm', hserves⟩ := htakes.serves hm hmap hfull
    have hlimit := m.higherHalfRegion.limit.isLt
    obtain ⟨rounds, u, c, hcalls, hframes⟩ := freeMappedCalls_frames hm hbelow hbytes hrun
      (htakes.stop_le.trans_lt hlimit) hserves hstops
    exact ⟨use', _, rounds, hm', hserves, ⟨u, c, hcalls, hframes⟩,
      hserves.free_after (fun q hq => hserves.frame_lt hm hbelow hq) hcalls hframes⟩

end Pair

theorem sixteenFrames_lt : ∀ a ∈ {a | ∃ x ∈ Custody.spans (sixteenFrames.paging.allocator,
    [tableFrame 0x14000]), a ∈ x}, a < 2 ^ 48 := by
  rintro a ⟨x, hx, ha⟩
  have hstop : ∀ x ∈ Custody.spans (sixteenFrames.paging.allocator, [tableFrame 0x14000]),
      x.stop ≤ 2 ^ 48 := by decide +kernel
  exact ha.2.trans_le (hstop x hx)

/-- The two pages of 5000 bytes. -/
theorem allocAndMap_givesBack_iff_two : ∃ v m',
    allocAndMap 1 5000 sixteenFrames.fresh = .ok v m' ∧
      sixteenFrames.GivesBack m' ⟨emptyRadix 0x14000, [0x14000], []⟩
        {a | ∃ x ∈ Custody.spans (sixteenFrames.paging.allocator, [tableFrame 0x14000]), a ∈ x} 1 v
        5000 := by
  obtain ⟨v, m', hrun, hjournal⟩ : ReturnsWith (allocAndMap 1 5000 sixteenFrames.fresh)
      fun _ m' => m'.paging.allocator.journal = [.slotWritten 0] := by decide +kernel
  have hfull := noneFull_of_journal hjournal
  have hroom : sixteenFrames.HasRoom 5000 := by
    rw [MappedMemory.HasRoom]
    decide +kernel
  exact ⟨v, m', hrun, (allocAndMap_givesBack_iff sixteenFrames_sound sixteenFrames_lt (by decide)
    hrun hfull).mpr ⟨hroom, .inl (by decide)⟩⟩

/-- After a request for all but one byte of the address space, for which nothing was taken,
`freeMapped` gives back a page at address zero. -/
theorem allocAndMap_gives_too_much :
    ¬ ∀ (depth : Nat) (m m' : MappedMemory) (use : MemoryUse) (usable : Set Nat) (v bytes : U64),
      m.Sound use usable → (∀ a ∈ usable, a < 2 ^ 48) → bytes ≠ 0 →
      allocAndMap depth bytes m.fresh = .ok v m' → m'.NoneFull →
      m.GivesBack m' use usable depth v bytes := by
  intro h
  obtain ⟨v, m', hrun, hjournal⟩ : ReturnsWith
      (allocAndMap 1 (BitVec.allOnes 64) sixteenFrames.fresh)
      fun _ m' => m'.paging.allocator.journal = [.slotWritten 0] := by decide +kernel
  have hfull := noneFull_of_journal hjournal
  have hgives := h 1 sixteenFrames m' _ _ v _ sixteenFrames_sound sixteenFrames_lt (by decide) hrun
    hfull
  have hstops := stopsAtOnce_of_givesBack (by decide) hrun hgives
  revert hstops
  decide +kernel

end Homegrown.Memory
