import Homegrown.Memory.Policy.Sound

/-!
# Chunks laid out back to back

The loop of `allocAndMapExplicit` maps the chunks of physical memory one behind the other. Each
round is a call of `mapVirtualRegion`; the pages of these calls are the pages from the first
virtual address on, and their frames are the pages of the chunks.
-/

namespace Homegrown.Memory

/-- The calls of `mapVirtualRegion` in the loop over the chunks. -/
def chunkCalls (s : PageSize) : U64 → List PagedMemory → List MapCall
  | _, [] => []
  | virtualRegion, chunk :: chunks =>
    ⟨virtualRegion, chunk, s, 0⟩ ::
      chunkCalls s (virtualRegion + chunk.numberOfPages * s.value) chunks

/-- The virtual pages of the loop, with the frames behind them. -/
def chunkPages (s : PageSize) (virtualRegion : U64) (chunks : List PagedMemory) :
    List VirtualPage :=
  (chunkCalls s virtualRegion chunks).flatMap MapCall.virtualPages

/-- The addresses of the frame of a page. -/
def VirtualPage.frameSpan (p : VirtualPage) : Span := ⟨p.frame.toNat, p.size.bytes⟩

section Loop

variable {depth : Nat} {s : PageSize} {m m' : MappedMemory} {v : U64}
  {chunks : List PagedMemory} {u : Unit}

/-- The loop makes these calls. -/
theorem mapChunks_eq_ok : mapChunks depth s v chunks m = .ok u m' ↔
    ∃ paging, mapRegions (allocate4KiBPage depth) (chunkCalls s v chunks) m.paging =
      .ok u paging ∧ { m with paging } = m' := by
  induction chunks generalizing v m with
  | nil =>
    rw [mapChunks, chunkCalls, mapRegions, pure_eq_ok]
    constructor
    · rintro ⟨-, rfl⟩
      exact ⟨m.paging, rfl, rfl⟩
    · rintro ⟨_, hrun, rfl⟩
      obtain ⟨-, rfl⟩ := pure_eq_ok.mp hrun
      exact ⟨rfl, rfl⟩
  | cons chunk chunks ih =>
    simp only [mapChunks, chunkCalls, mapRegions, onPaging, bind_eq_ok, zoom_eq_ok]
    constructor
    · rintro ⟨_, _, ⟨paging, hcall, rfl⟩, hrest⟩
      obtain ⟨paging', hcalls, rfl⟩ := ih.mp hrest
      exact ⟨paging', ⟨(), paging, hcall, hcalls⟩, rfl⟩
    · rintro ⟨paging', ⟨_, paging, hcall, hrest⟩, rfl⟩
      exact ⟨(), _, ⟨paging, hcall, rfl⟩, ih.mpr ⟨paging', hrest, rfl⟩⟩

end Loop

/-! ## The calls -/

section Calls

variable {s : PageSize} {v : U64} {chunks : List PagedMemory} {c : MapCall}

/-- A call of the loop maps a chunk, within the pages of all chunks. -/
structure ChunkCall (s : PageSize) (v : U64) (chunks : List PagedMemory) (c : MapCall) : Prop where
  pageType : c.pageType = s
  flags : c.additionalFlags = 0
  memory : c.memory ∈ chunks
  aligned : s.bytes ∣ c.virt.toNat
  start_le : v.toNat ≤ c.virt.toNat
  stop_le : c.virt.toNat + c.pages * s.bytes ≤ v.toNat + pagesIn chunks * s.bytes

theorem chunkCall_of_mem (hv : s.bytes ∣ v.toNat)
    (hend : v.toNat + pagesIn chunks * s.bytes < 2 ^ 64) (hc : c ∈ chunkCalls s v chunks) :
    ChunkCall s v chunks c := by
  induction chunks generalizing v with
  | nil => cases hc
  | cons chunk chunks ih =>
    rw [pagesIn_cons, Nat.add_mul] at hend
    have hnext : (v + chunk.numberOfPages * s.value).toNat =
        v.toNat + chunk.numberOfPages.toNat * s.bytes := toNat_add_pages (by omega)
    rcases List.mem_cons.mp hc with rfl | hc
    · refine ⟨rfl, rfl, List.mem_cons_self, hv, le_rfl, ?_⟩
      rw [pagesIn_cons, Nat.add_mul]
      change v.toNat + chunk.numberOfPages.toNat * s.bytes ≤ _
      omega
    · obtain ⟨htype, hflags, hmemory, haligned, hstart, hstop⟩ := ih (by
        rw [hnext]
        exact Nat.dvd_add hv (Nat.dvd_mul_left _ _)) (by omega) hc
      refine ⟨htype, hflags, List.mem_cons_of_mem _ hmemory, haligned, by omega, ?_⟩
      rw [pagesIn_cons, Nat.add_mul]
      omega

/-- The calls map regions behind each other. -/
theorem chunkCalls_pairwise (hv : s.bytes ∣ v.toNat)
    (hend : v.toNat + pagesIn chunks * s.bytes < 2 ^ 64) :
    (chunkCalls s v chunks).Pairwise fun c d => c.span.Disjoint d.span := by
  induction chunks generalizing v with
  | nil => exact List.Pairwise.nil
  | cons chunk chunks ih =>
    rw [pagesIn_cons, Nat.add_mul] at hend
    have hnext : (v + chunk.numberOfPages * s.value).toNat =
        v.toNat + chunk.numberOfPages.toNat * s.bytes := toNat_add_pages (by omega)
    have hv' : s.bytes ∣ (v + chunk.numberOfPages * s.value).toNat := by
      rw [hnext]
      exact Nat.dvd_add hv (Nat.dvd_mul_left _ _)
    rw [chunkCalls, List.pairwise_cons]
    refine ⟨fun d hd => Span.disjoint_of_stop_le ?_, ih hv' (by omega)⟩
    have hstart := (chunkCall_of_mem hv' (by omega) hd).start_le
    change v.toNat + chunk.numberOfPages.toNat * s.bytes ≤ d.virt.toNat
    omega

/-- In the higher half the calls are valid. -/
theorem ChunkCall.valid (h : ChunkCall s v chunks c)
    (hend : v.toNat + pagesIn chunks * s.bytes < 2 ^ 64)
    (hhalf : higherHalfStart.toNat ≤ v.toNat) : c.Valid := by
  have hstart := h.start_le
  have hstop := h.stop_le
  have hhalf' : higherHalfStart.toNat = 2 ^ 64 - 2 ^ 47 := rfl
  refine ⟨?_, ?_, fun a ha => .inr ?_⟩
  · rw [h.pageType]
    exact h.aligned
  · rw [h.pageType]
    omega
  · simp only [MapCall.span, Span.mem_mk] at ha
    omega

/-- The pages of the calls are the pages from the first address on. -/
theorem map_virt_chunkPages (hv : s.bytes ∣ v.toNat)
    (hend : v.toNat + pagesIn chunks * s.bytes < 2 ^ 64)
    (hhalf : higherHalfStart.toNat ≤ v.toNat) :
    (chunkPages s v chunks).map (fun p => p.virt.toNat) =
      pagesFrom s v.toNat (pagesIn chunks) := by
  induction chunks generalizing v with
  | nil => rfl
  | cons chunk chunks ih =>
    have hvalid := (chunkCall_of_mem hv hend (c := ⟨v, chunk, s, 0⟩) List.mem_cons_self).valid
      hend hhalf
    rw [pagesIn_cons, Nat.add_mul] at hend
    have hnext : (v + chunk.numberOfPages * s.value).toNat =
        v.toNat + chunk.numberOfPages.toNat * s.bytes := toNat_add_pages (by omega)
    have hrest := @ih (v + chunk.numberOfPages * s.value) (by
      rw [hnext]
      exact Nat.dvd_add hv (Nat.dvd_mul_left _ _)) (by omega) (by omega)
    rw [chunkPages] at hrest
    rw [chunkPages, chunkCalls, List.flatMap_cons, List.map_append, hrest, hnext, pagesIn_cons,
      pagesFrom_add, MapCall.virtualPages, List.map_map, pagesFrom]
    congr 1
    apply List.map_congr_left
    intro k hk
    exact hvalid.toNat_page (List.mem_range.mp hk).le

/-- A page of the loop is one of a call. -/
theorem mem_chunkPages {p : VirtualPage} : p ∈ chunkPages s v chunks ↔
    ∃ c ∈ chunkCalls s v chunks, ∃ k < c.pages,
      ⟨c.virt + BitVec.ofNat 64 k * c.pageType.value, c.pageType, c.physical k⟩ = p := by
  simp only [chunkPages, List.mem_flatMap, mem_virtualPages]

end Calls

/-! ## The frames -/

section Frames

variable {s : PageSize} {v : U64} {chunk : PagedMemory} {chunks : List PagedMemory}

/-- The first frames of a chunk cover what its first pages cover. -/
theorem count_frames (hb : chunk.Bounded s) {n : Nat} (hn : n ≤ chunk.numberOfPages.toNat)
    (a : Nat) :
    Span.count ((List.range n).map fun k =>
      Span.mk (chunk.pageStart + BitVec.ofNat 64 k * s.value).toNat s.bytes) a =
      Span.count [Span.mk chunk.pageStart.toNat (n * s.bytes)] a := by
  induction n with
  | zero => simp
  | succ n ih =>
    have hlt := chunk.numberOfPages.isLt
    have hwide : (BitVec.ofNat 64 n).toNat = n := by
      rw [BitVec.toNat_ofNat]
      exact Nat.mod_eq_of_lt (by omega)
    have hpage := PagedMemory.toNat_page hb (n := BitVec.ofNat 64 n) (by omega)
    rw [List.range_succ, List.map_append, List.map_singleton, Span.count_append, ih (by omega),
      Nat.add_mul, Nat.one_mul, Span.count_split, hpage, hwide]

/-- The frames behind the pages cover what the chunks cover. -/
theorem count_frameSpans (hb : ∀ chunk ∈ chunks, chunk.Bounded s) (a : Nat) :
    Span.count ((chunkPages s v chunks).map VirtualPage.frameSpan) a =
      Span.count (chunks.map (PagedMemory.span s)) a := by
  induction chunks generalizing v with
  | nil => rfl
  | cons chunk chunks ih =>
    rw [List.forall_mem_cons] at hb
    have hrest := @ih (v + chunk.numberOfPages * s.value) hb.2
    have hfirst := count_frames hb.1 le_rfl a
    rw [chunkPages] at hrest
    rw [chunkPages, chunkCalls, List.flatMap_cons, List.map_append, Span.count_append, hrest,
      List.map_cons, Span.count_cons', MapCall.virtualPages, List.map_map]
    congr 1

end Frames

end Homegrown.Memory
