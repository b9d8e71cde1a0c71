import Homegrown.Memory.Policy.GiveBack
import Homegrown.Memory.Virtual.Ends

/-!
# What a call for mapped memory promises

A call raises the fault for a request that is too large, or the one for want of physical memory, or
returns a region that covers the request. Which of these happens is decided by the number of pages
modulo `2 ^ 64`, the assertions of `getVirtualMemory`, and the physical memory. The promise is kept
but for three kinds of calls: the number of pages has wrapped and what is left of it passes the
test, an assertion of `getVirtualMemory` stops the call because the higher half is used up, or the
pages end behind the top of the address space.
-/

namespace Homegrown.Memory

/-! ## The parts of a call -/

/-- The memory of a kernel that is set up: the listed regions are aligned and within reach, there
is a level-4 table, and the virtual addresses are those of the higher half. -/
structure MappedMemory.Ready (m : MappedMemory) : Prop where
  freeSound : m.paging.allocator.FreeSound
  withinReach : m.paging.allocator.WithinReach
  root_ne_zero : m.paging.level4PageTable ≠ 0
  inHigherHalf : m.higherHalfRegion.InHigherHalf

/-- The pages, placed at the next multiple of their size, end within the higher half. -/
def MappedMemory.Fits (m : MappedMemory) (s : PageSize) (n : Nat) : Prop :=
  roundUp m.higherHalfRegion.start.toNat s.bytes + n * s.bytes ≤ m.higherHalfRegion.limit.toNat

/-- A call with the test for its pages behind it: the virtual addresses are taken, then the
physical pages, and these are mapped. -/
def mapTaken (depth : Nat) (n : U64) (s : PageSize) (take : Kernel (List PagedMemory)) :
    Policy U64 := do
  let virtualAddress ← onRegion (getVirtualMemory (n * s.value) s)
  let physicalAddresses ← onPhysical take
  mapChunks depth s virtualAddress physicalAddresses
  return virtualAddress

/-- One chunk of contiguous pages. -/
def takeContiguous (depth : Nat) (n : U64) (s : PageSize) : Kernel (List PagedMemory) := do
  let physicalAddress ← allocContiguousPhysicalPages depth n s
  return [⟨physicalAddress, n⟩]

section Parts

variable {m m' : MappedMemory} {p p' : PhysicalMemory} {depth : Nat} {s : PageSize}
  {n np preferred v : U64} {chunks : List PagedMemory} {take : Kernel (List PagedMemory)}
  {inv : PhysicalMemory → Prop} {allowed : Fault → Prop} {root : U64}

/-! ## Mapping the chunks -/

/-- The managers are as they have to be, and the level-4 table is this one. -/
def MappedMemory.HasRoot (inv : PhysicalMemory → Prop) (root : U64) (m : MappedMemory) : Prop :=
  Rooted inv root m.paging

/-- The chunks may be mapped from an address on. -/
structure ChunksMappable (root v : U64) (s : PageSize) (chunks : List PagedMemory) : Prop where
  root_ne_zero : root ≠ 0
  aligned : s.bytes ∣ v.toNat
  canonical : ∀ n ≤ pagesIn chunks, Canonical (v + BitVec.ofNat 64 n * s.value).toNat
  frames : ∀ chunk ∈ chunks, s.bytes ∣ chunk.pageStart.toNat

/-- The loop over the chunks ends as its allocator lets it, and may stop at an assertion for chunks
that may not be mapped. -/
theorem endsClean_mapChunks
    (hall : EndsClean PhysicalMemory.NoneFull inv (allocate4KiBPage depth 1) allowed fun _ => inv)
    (h : ChunksMappable root v s chunks ∨ allowed .assertion) :
    EndsClean MappedMemory.NoneFull (MappedMemory.HasRoot inv root) (mapChunks depth s v chunks)
      allowed fun _ => MappedMemory.HasRoot inv root := by
  induction chunks generalizing v with
  | nil => exact .pure fun _ h => h
  | cons chunk chunks ih =>
    have hfirst : Mappable root v chunk s ∨ allowed .assertion := by
      refine h.imp_left fun h => ⟨h.root_ne_zero, ?_, h.aligned, h.frames chunk List.mem_cons_self⟩
      have hzero := h.canonical 0 (Nat.zero_le _)
      simpa using hzero
    have hrest : ChunksMappable root (v + chunk.numberOfPages * s.value) s chunks ∨
        allowed .assertion := by
      refine h.imp_left fun h => ⟨h.root_ne_zero, ?_, fun n hn => ?_,
        fun c hc => h.frames c (List.mem_cons_of_mem _ hc)⟩
      · obtain ⟨j, hj⟩ : s.bytes ∣ 2 ^ 64 := by cases s <;> decide
        rw [BitVec.toNat_add, BitVec.toNat_mul, s.toNat_value, hj]
        refine (Nat.dvd_mod_iff (Nat.dvd_mul_right _ _)).mpr (Nat.dvd_add h.aligned ?_)
        exact (Nat.dvd_mod_iff (Nat.dvd_mul_right _ _)).mpr (Nat.dvd_mul_left _ _)
      · have hlater := h.canonical (chunk.numberOfPages.toNat + n) (by rw [pagesIn_cons]; omega)
        rwa [BitVec.ofNat_add, BitVec.ofNat_toNat, BitVec.setWidth_eq, BitVec.add_mul,
          ← BitVec.add_assoc] at hlater
    have hchunk : EndsClean MappedMemory.NoneFull (MappedMemory.HasRoot inv root)
        (onPaging (mapVirtualRegion (allocate4KiBPage depth) v chunk s)) allowed
        fun _ => MappedMemory.HasRoot inv root :=
      (endsClean_mapVirtualRegion hall hfirst).zoom (fun _ _ => rfl) (fun _ h => h)
        fun _ _ _ _ h => h
    exact hchunk.bind fun _ => ih hrest

/-- Mapping takes no full table back. -/
theorem keeps_mapChunks (depth : Nat) (s : PageSize) (v : U64) (chunks : List PagedMemory) :
    Keeps (fun m => ¬ MappedMemory.NoneFull m) (mapChunks depth s v chunks) := by
  have hall : EndsClean PhysicalMemory.NoneFull (fun _ => True) (allocate4KiBPage depth 1)
      (fun _ => True) fun _ _ => True :=
    ⟨fun _ _ _ => ⟨fun _ => trivial, fun _ => trivial⟩,
      (AddsToJournal.allocContiguousPhysicalPagesWithManager depth 1 .basePage).stays⟩
  exact (@endsClean_mapChunks depth s v chunks _ _ 0 hall (.inr trivial)).stays

/-! ## Taking the chunks -/

/-- What has been taken: chunks of so many pages, aligned, with the lists within reach. -/
structure ChunksFor (n : U64) (s : PageSize) (chunks : List PagedMemory) (p : PhysicalMemory) :
    Prop where
  withinReach : p.WithinReach
  pages : pagesIn chunks = n.toNat
  aligned : ∀ chunk ∈ chunks, s.bytes ∣ chunk.pageStart.toNat

/-- Where no table becomes full, the program takes the pages or runs out of memory. -/
def TakesPages (take : Kernel (List PagedMemory)) (n : U64) (s : PageSize) : Prop :=
  ∀ p : PhysicalMemory, p.FreeSound → p.WithinReach → (final (take p.fresh)).NoneFull →
    EndsIn (take p.fresh) NoMoreFrames (ChunksFor n s)

/-- What is noted for a call makes no difference. -/
theorem PhysicalMemory.WithinReach.fresh (h : p.WithinReach) : p.fresh.WithinReach := by
  intro t
  cases t with
  | basePage => exact h .basePage
  | largePage => exact h .largePage
  | hugePage => exact h .hugePage

/-- `allocPhysicalPages` takes the pages in any number of chunks. -/
theorem takesPages_allocPhysicalPages (hdepth : 3 ≤ depth) (hn : n.toNat ≤ 512) :
    TakesPages (allocPhysicalPages depth n s) n s := by
  intro p hfree hreach hfull
  have hlevels : s.levels ≤ depth := by
    cases s <;> simp only [PageSize.levels] <;> omega
  refine (endsIn_allocPhysicalPages hlevels (by omega) hreach.fresh hfull).weaken
    fun chunks p' hrun h => ⟨h.withinReach, pagesIn_allocPhysicalPages (by omega) hrun, ?_⟩
  have hslot : ∀ k, callScope.slot k := fun _ => trivial
  have hmoves := (conducts_allocPhysicalPagesWithManager le_rfl hslot).ok hrun []
  rw [allocPhysicalPages, hrun] at hfull
  have haligned := Moves.aligned_inHand hmoves hfree
    ((keeps_allocPhysicalPagesWithManager depth 0 n s).of_ok PhysicalMemory.movesNoted_fresh hrun)
    hfull
  exact fun chunk hc => haligned ⟨s, chunk⟩ (List.mem_append_left [] (List.mem_map_of_mem hc))

/-- `allocContiguousPhysicalPages` takes them in one. -/
theorem takesPages_takeContiguous (hdepth : 3 ≤ depth) (hn : n.toNat ≤ 512) :
    TakesPages (takeContiguous depth n s) n s := by
  intro p hfree hreach hfull
  have hlevels : s.levels ≤ depth := by
    cases s <;> simp only [PageSize.levels] <;> omega
  have hends := endsClean_allocContiguousPhysicalPages hlevels n
  have hmid : (final (allocContiguousPhysicalPages depth n s p.fresh)).NoneFull :=
    hfull.of_prefix (journal_final_bind fun _ => AddsToJournal.pure _)
  refine (hends.ends p.fresh hreach.fresh hmid).bind fun address p' hrun hp' =>
    .pure ⟨hp', Nat.add_zero _, fun chunk hc => ?_⟩
  have hconducts : ConductsContiguous callScope depth :=
    conducts_allocContiguousPhysicalPages le_rfl
  have hmoves := (hconducts p.fresh n s (hn.trans (by norm_num [callScope]))).ok hrun []
  rw [allocContiguousPhysicalPages, hrun] at hmid
  have haligned := Moves.aligned_inHand hmoves hfree
    ((keeps_allocContiguousPhysicalPagesWithManager depth n s).of_ok
      PhysicalMemory.movesNoted_fresh hrun) hmid
  obtain rfl := List.mem_singleton.mp hc
  exact haligned _ List.mem_cons_self

/-! ## The calls by their parts -/

/-- A request for more pages than a table has entries is too large. -/
theorem convertedPages_of_lt
    (h : 512 < (np * (convertPreferredPageToAvailablePages preferred).numberOfPages).toNat) :
    convertedPages np preferred m = .error .tooLargeAllocation m := by
  simp only [convertedPages]
  rw [if_pos (by rw [BitVec.lt_def]; exact h)]
  rfl

/-- Any other request goes on with its pages and their size. -/
theorem convertedPages_of_le
    (hsize : PageSize.ofValue? (convertPreferredPageToAvailablePages preferred).pageSize = some s)
    (h : (np * (convertPreferredPageToAvailablePages preferred).numberOfPages).toNat ≤ 512) :
    convertedPages np preferred m =
      .ok (np * (convertPreferredPageToAvailablePages preferred).numberOfPages, s) m := by
  simp only [convertedPages, hsize]
  rw [if_neg (by rw [BitVec.lt_def]; exact not_lt.mpr h)]
  rfl

/-- A call that passes the test takes the pages and maps them. -/
theorem allocAndMapExplicit_eq
    (hsize : PageSize.ofValue? (convertPreferredPageToAvailablePages preferred).pageSize = some s)
    (h : (np * (convertPreferredPageToAvailablePages preferred).numberOfPages).toNat ≤ 512) :
    allocAndMapExplicit depth np preferred m =
      mapTaken depth (np * (convertPreferredPageToAvailablePages preferred).numberOfPages) s
        (allocPhysicalPages depth
          (np * (convertPreferredPageToAvailablePages preferred).numberOfPages) s) m := by
  rw [allocAndMapExplicit, bind_of_ok (convertedPages_of_le hsize h), mapTaken]
  dsimp only
  rw [BitVec.mul_comm s.value]

/-- Physical pages that are taken. -/
theorem onPhysical_of_ok {α : Type} {x : Kernel α} {a : α} (h : x m.paging.allocator = .ok a p) :
    onPhysical x m = .ok a { m with paging := { m.paging with allocator := p } } :=
  zoom_eq_ok.mpr ⟨p, h, rfl⟩

/-- Physical pages that cannot be taken. -/
theorem onPhysical_of_error {α : Type} {x : Kernel α} {e : Fault}
    (h : x m.paging.allocator = .error e p) :
    onPhysical x m = .error e { m with paging := { m.paging with allocator := p } } :=
  zoom_of_error h

/-- A single chunk is mapped by one call. -/
theorem mapChunks_singleton (depth : Nat) (s : PageSize) (v : U64) (chunk : PagedMemory)
    (m : MappedMemory) : mapChunks depth s v [chunk] m =
      onPaging (mapVirtualRegion (allocate4KiBPage depth) v chunk s) m := by
  rw [mapChunks]
  cases hmap : onPaging (mapVirtualRegion (allocate4KiBPage depth) v chunk s) m with
  | ok u m' => rw [bind_of_ok hmap, mapChunks]; rfl
  | error e m' => rw [bind_of_error hmap]

/-- Taking a chunk of contiguous pages and mapping it. -/
theorem takeContiguous_bind (depth : Nat) (n : U64) (s : PageSize) (v : U64) (m : MappedMemory) :
    (do
      let physicalAddress ← onPhysical (allocContiguousPhysicalPages depth n s)
      onPaging (mapVirtualRegion (allocate4KiBPage depth) v ⟨physicalAddress, n⟩ s)
      return v : Policy U64) m =
    (do
      let physicalAddresses ← onPhysical (takeContiguous depth n s)
      mapChunks depth s v physicalAddresses
      return v : Policy U64) m := by
  cases hrun : allocContiguousPhysicalPages depth n s m.paging.allocator with
  | ok address p =>
    have htake : takeContiguous depth n s m.paging.allocator = .ok [⟨address, n⟩] p :=
      bind_of_ok hrun
    rw [bind_of_ok (onPhysical_of_ok hrun), bind_of_ok (onPhysical_of_ok htake)]
    have hone := mapChunks_singleton depth s v ⟨address, n⟩
      { m with paging := { m.paging with allocator := p } }
    cases hmap : onPaging (mapVirtualRegion (allocate4KiBPage depth) v ⟨address, n⟩ s)
        { m with paging := { m.paging with allocator := p } } with
    | ok u m' => rw [bind_of_ok hmap, bind_of_ok (hone.trans hmap)]
    | error e m' => rw [bind_of_error hmap, bind_of_error (hone.trans hmap)]
  | error e p =>
    have htake : takeContiguous depth n s m.paging.allocator = .error e p := bind_of_error hrun
    rw [bind_of_error (onPhysical_of_error hrun), bind_of_error (onPhysical_of_error htake)]

/-- The contiguous call takes one chunk and maps it. -/
theorem allocContiguousAndMap_eq
    (hsize : PageSize.ofValue? (convertPreferredPageToAvailablePages preferred).pageSize = some s)
    (h : (np * (convertPreferredPageToAvailablePages preferred).numberOfPages).toNat ≤ 512) :
    allocContiguousAndMap depth np preferred m =
      mapTaken depth (np * (convertPreferredPageToAvailablePages preferred).numberOfPages) s
        (takeContiguous depth
          (np * (convertPreferredPageToAvailablePages preferred).numberOfPages) s) m := by
  rw [allocContiguousAndMap, bind_of_ok (convertedPages_of_le hsize h), mapTaken]
  exact congrFun (congrArg (onRegion _ >>= ·) (funext fun v => funext fun m =>
    takeContiguous_bind depth _ s v m)) m

/-! ## How a call ends -/

/-- A call whose virtual addresses are turned down stops there. -/
theorem mapTaken_of_not_accepts (h : ¬ m.higherHalfRegion.Accepts (n * s.value) s) :
    mapTaken depth n s take m = .error .assertion m :=
  bind_of_error (zoom_of_error (VirtualRegion.stops_of_not_accepts h))

/-- From the higher half on, so many pages are at canonical addresses, also those that wrap. -/
theorem canonical_of_le {k : Nat} (hv : higherHalfStart.toNat ≤ v.toNat) (hk : k ≤ 512) :
    Canonical (v + BitVec.ofNat 64 k * s.value).toNat := by
  have hhalf : higherHalfStart.toNat = 2 ^ 64 - 2 ^ 47 := rfl
  have hlt := v.isLt
  have hbytes : k * s.bytes ≤ 512 * 2 ^ 30 := Nat.mul_le_mul hk s.bytes_le
  rw [BitVec.toNat_add, BitVec.toNat_mul, s.toNat_value, BitVec.toNat_ofNat,
    Nat.mod_eq_of_lt (show k < 2 ^ 64 by omega), Canonical, Nat.add_mod_mod]
  omega

/-- A call whose virtual addresses are accepted returns or runs out of memory, if no table becomes
full. -/
theorem endsIn_mapTaken (hm : m.Ready) (hdepth : 3 ≤ depth) (hn : n.toNat ≤ 512)
    (htake : TakesPages take n s) (haccepts : m.higherHalfRegion.Accepts (n * s.value) s)
    (hfull : (final (mapTaken depth n s take m.fresh)).NoneFull) :
    EndsIn (mapTaken depth n s take m.fresh) NoMoreFrames fun _ _ => True := by
  have hregion : onRegion (getVirtualMemory (n * s.value) s) m.fresh = .ok _ _ :=
    zoom_eq_ok.mpr ⟨_, haccepts.returns, rfl⟩
  have hresult := toNat_getVirtualMemory hm.inHigherHalf.start_pos haccepts.returns
  have hge : m.higherHalfRegion.start.toNat ≤ _ := haccepts.start_le
  generalize alignUpValue m.higherHalfRegion.start s.value = v at hregion hresult hge
  generalize ({ m.higherHalfRegion with start := v + n * s.value } : VirtualRegion) = next
    at hregion
  rw [mapTaken, bind_of_ok hregion] at hfull ⊢
  have hmid := final_of_keeps_not (p := MappedMemory.NoneFull) (fun chunks =>
    (keeps_mapChunks depth s v chunks).bind fun _ => Keeps.pure _) hfull
  rw [onPhysical, final_zoom] at hmid
  have hends := htake m.paging.allocator hm.freeSound hm.withinReach hmid
  refine EndsIn.bind (m := fun chunks m' => ChunksFor n s chunks m'.paging.allocator ∧
    m'.paging.level4PageTable = m.paging.level4PageTable) (.zoom ?_) fun chunks m' hrun h => ?_
  · exact hends.weaken fun chunks p _ h => ⟨h, rfl⟩
  · rw [bind_of_ok hrun] at hfull
    have hlevels : PageSize.basePage.levels ≤ depth := hdepth
    have hmappable : ChunksMappable m.paging.level4PageTable v s chunks := by
      refine ⟨hm.root_ne_zero, hresult ▸ dvd_roundUp, fun k hk => ?_, h.1.aligned⟩
      rw [h.1.pages] at hk
      exact canonical_of_le (hm.inHigherHalf.1.trans hge) (hk.trans hn)
    exact ((endsClean_mapChunks (endsClean_allocContiguousPhysicalPages hlevels 1)
      (.inl hmappable)).bind fun _ => .pure fun _ _ => trivial).ends m' ⟨h.1.withinReach, h.2⟩ hfull

end Parts

/-! ## The promise -/

/-- The faults that a caller has to expect. -/
def Excused (fault : Fault) : Prop := fault = .tooLargeAllocation ∨ fault = .noMorePhysicalMemory

/-- The call runs out of physical memory. -/
def RunsOut (r : EStateM.Result Fault MappedMemory U64) : Prop :=
  ∃ m', r = .error .noMorePhysicalMemory m'

/-- How a call for so many pages of a size ends: the test and the assertions of `getVirtualMemory`
turn it down, or it returns or runs out of memory. Where it returns, what it promises is granted
exactly when the number of pages is unwrapped and they fit. -/
structure Answer (m : MappedMemory) (n : U64) (s : PageSize) (unwrapped : Prop)
    (granted : U64 → MappedMemory → Prop) (r : EStateM.Result Fault MappedMemory U64) : Prop where
  tooLarge : PageTableFormat.entries < n.toNat → r = .error .tooLargeAllocation m.fresh
  stops : n.toNat ≤ PageTableFormat.entries → ¬ m.higherHalfRegion.Accepts (n * s.value) s →
    r = .error .assertion m.fresh
  ends : n.toNat ≤ PageTableFormat.entries → m.higherHalfRegion.Accepts (n * s.value) s →
    (final r).NoneFull → EndsIn r NoMoreFrames fun _ _ => True
  returns : ∀ v m', r = .ok v m' → (granted v m' ↔ unwrapped ∧ m.Fits s n.toNat)

/-- The call raises a fault that the caller has to expect or grants what it promises, exactly when
there are too many pages, or their number is unwrapped and they fit, or memory runs out. -/
structure KeepsPromise (m : MappedMemory) (n : U64) (s : PageSize) (unwrapped : Prop)
    (granted : U64 → MappedMemory → Prop) (r : EStateM.Result Fault MappedMemory U64) : Prop
    extends Answer m n s unwrapped granted r where
  kept_iff : (final r).NoneFull → (EndsIn r Excused granted ↔
    (PageTableFormat.entries < n.toNat ∨ unwrapped ∧ m.Fits s n.toNat) ∨ RunsOut r)

section Promise

variable {m m' : MappedMemory} {depth k : Nat} {s : PageSize} {n np preferred v : U64}
  {unwrapped : Prop} {granted : U64 → MappedMemory → Prop} {g : Grant}
  {r : EStateM.Result Fault MappedMemory U64} {take : Kernel (List PagedMemory)}

/-- So many pages have no more bytes than the largest block of virtual addresses. -/
theorem toNat_pages_mul (hn : n.toNat ≤ 512) :
    (n * s.value).toNat = n.toNat * s.bytes ∧ n * s.value ≤ jumboPageSize := by
  have hmul : n.toNat * s.bytes ≤ 512 * 2 ^ 30 := Nat.mul_le_mul hn s.bytes_le
  have heq : (n * s.value).toNat = n.toNat * s.bytes := by
    rw [BitVec.toNat_mul, PageSize.toNat_value]
    exact Nat.mod_eq_of_lt (by omega)
  refine ⟨heq, ?_⟩
  rw [BitVec.le_def, heq]
  exact hmul

/-- Pages that fit are accepted. -/
theorem MappedMemory.Fits.accepts (h : m.Fits s n.toNat) (hm : m.higherHalfRegion.InHigherHalf)
    (hn : n.toNat ≤ 512) : m.higherHalfRegion.Accepts (n * s.value) s := by
  obtain ⟨hbytes, hsize⟩ := toNat_pages_mul (s := s) hn
  obtain ⟨v, next, hrun, -⟩ := @getVirtualMemory_of_fits m.higherHalfRegion _ s hm.1 hsize (by
    rw [hbytes]
    exact h)
  obtain ⟨-, hstart, hlimit, hroom, rfl, -⟩ := getVirtualMemory_eq_ok hrun
  exact ⟨hsize, hstart, hlimit, hroom⟩

/-- Pages that were accepted fit exactly when they end below the top of the address space. -/
theorem Grant.Of.belowTop_iff (h : g.Of depth v m.fresh m')
    (hm : m.higherHalfRegion.InHigherHalf) (hpages : g.pages ≤ 512) :
    g.BelowTop m.fresh ↔ m.Fits g.pageSize g.pages := by
  obtain ⟨⟨next, p, hregion, -⟩, -⟩ := h
  change getVirtualMemory _ _ m.higherHalfRegion = _ at hregion
  have hbytes : (BitVec.ofNat 64 g.bytes).toNat = g.bytes := by
    have hmul : g.bytes ≤ 512 * 2 ^ 30 := Nat.mul_le_mul hpages g.pageSize.bytes_le
    rw [BitVec.toNat_ofNat]
    exact Nat.mod_eq_of_lt (by omega)
  have hresult := toNat_getVirtualMemory hm.start_pos hregion
  have hfits := getVirtualMemory_fits_iff hm.start_pos hregion
  obtain ⟨-, hstart, hlimit, -, hv, -⟩ := getVirtualMemory_eq_ok hregion
  have hlt := m.higherHalfRegion.limit.isLt
  rw [BitVec.le_def] at hstart hlimit
  rw [VirtualCall.OvershootSeen, hbytes, ← hresult] at hfits
  dsimp only at hfits
  change g.pages = 0 ∨ (alignUpValue m.higherHalfRegion.start g.pageSize.value).toNat + g.bytes <
    2 ^ 64 ↔ roundUp _ _ + g.bytes ≤ _
  rw [← hv, ← hresult]
  constructor
  · rintro (hzero | hbelow)
    · rw [Grant.bytes, hzero, Nat.zero_mul, Nat.add_zero]
      exact hlimit
    · exact hfits.mpr (by omega)
  · intro hle
    right
    omega

/-- When a call keeps its promise. -/
theorem Answer.keepsPromise (h : Answer m n s unwrapped granted r)
    (hm : m.higherHalfRegion.InHigherHalf) : KeepsPromise m n s unwrapped granted r := by
  refine ⟨h, fun hfull => ⟨fun hkept => ?_, ?_⟩⟩
  · cases hr : r with
    | ok v m' => exact .inl (.inr ((h.returns v m' hr).mp (hkept.ok hr)))
    | error e m' =>
      rcases hkept.error hr with rfl | rfl
      · -- Only the test raises this fault.
        refine .inl (.inl (not_le.mp fun hn => ?_))
        by_cases haccepts : m.higherHalfRegion.Accepts (n * s.value) s
        · cases (h.ends hn haccepts hfull).error hr
        · cases hr.symm.trans (h.stops hn haccepts)
      · exact .inr ⟨m', rfl⟩
  · rintro ((hlt | ⟨hunwrapped, hfits⟩) | ⟨m', hr⟩)
    · rw [h.tooLarge hlt]
      exact ⟨fun hr => (by cases hr), fun hr => by cases hr; exact .inl rfl⟩
    · by_cases hn : n.toNat ≤ PageTableFormat.entries
      · have hends := h.ends hn (hfits.accepts hm hn) hfull
        exact ⟨fun hr => (h.returns _ _ hr).mpr ⟨hunwrapped, hfits⟩,
          fun hr => .inr (hends.error hr)⟩
      · rw [h.tooLarge (not_le.mp hn)]
        exact ⟨fun hr => (by cases hr), fun hr => by cases hr; exact .inl rfl⟩
    · rw [hr]
      exact ⟨fun hr => (by cases hr), fun hr => by cases hr; exact .inr rfl⟩

/-- The answer of a call that takes its pages and maps them. -/
theorem answer_of_mapTaken (hm : m.Ready) (hdepth : 3 ≤ depth)
    (hlarge : PageTableFormat.entries < n.toNat → r = .error .tooLargeAllocation m.fresh)
    (hrun : n.toNat ≤ PageTableFormat.entries → r = mapTaken depth n s take m.fresh)
    (htake : n.toNat ≤ PageTableFormat.entries → TakesPages take n s)
    (hreturns : ∀ v m', r = .ok v m' → (granted v m' ↔ unwrapped ∧ m.Fits s n.toNat)) :
    KeepsPromise m n s unwrapped granted r := by
  refine Answer.keepsPromise ⟨hlarge, fun hn haccepts => ?_, fun hn haccepts hfull => ?_,
    hreturns⟩ hm.inHigherHalf
  · rw [hrun hn]
    exact mapTaken_of_not_accepts haccepts
  · rw [hrun hn] at hfull ⊢
    exact endsIn_mapTaken hm hdepth hn (htake hn) haccepts hfull

/-- A grant of a returning call covers the request exactly when its number of pages has not wrapped
and they fit. -/
theorem grants_iff (hm : m.Ready) (hpow : IsTwoPow preferred k)
    (hsize : PageSize.ofValue? (convertPreferredPageToAvailablePages preferred).pageSize = some s)
    (hrun : ∃ g : Grant, g.Of depth v m.fresh m' ∧ g.For np preferred ∧ g.pages ≤ 512) :
    (∃ g : Grant, g.Of depth v m.fresh m' ∧ g.For np preferred ∧
        g.Covers v (np.toNat * preferred.toNat)) ↔
      np.toNat * (convertPreferredPageToAvailablePages preferred).numberOfPages.toNat < 2 ^ 64 ∧
        m.Fits s (np * (convertPreferredPageToAvailablePages preferred).numberOfPages).toNat := by
  have hgrant {g : Grant} (hof : g.Of depth v m.fresh m') (hfor : g.For np preferred)
      (hpages : g.pages ≤ 512) : g.Covers v (np.toNat * preferred.toNat) ↔
        np.toNat * (convertPreferredPageToAvailablePages preferred).numberOfPages.toNat < 2 ^ 64 ∧
        m.Fits s (np * (convertPreferredPageToAvailablePages preferred).numberOfPages).toNat := by
    rw [hof.covers_iff hpages, hfor.enough_iff hpow hpages,
      hof.belowTop_iff hm.inHigherHalf hpages, ← hfor.2,
      Option.some.inj (hfor.1.symm.trans hsize)]
  constructor
  · rintro ⟨g, hof, hfor, hcovers⟩
    exact (hgrant hof hfor hcovers.pages_le).mp hcovers
  · intro h
    obtain ⟨g, hof, hfor, hpages⟩ := hrun
    exact ⟨g, hof, hfor, (hgrant hof hfor hpages).mpr h⟩

/-- For a number of bytes the pages wrap to none from the last page of the largest size on; there
is never a whole page too much. -/
theorem grants_bytes_iff {bytes : U64} (hm : m.Ready)
    (hrun : allocAndMapExplicit depth (chosenPages bytes) (chosenPageSize bytes).value m.fresh =
      .ok v m') :
    (∃ g : Grant, g.Of depth v m.fresh m' ∧
        g.For (chosenPages bytes) (chosenPageSize bytes).value ∧ g.Covers v bytes.toNat ∧
        g.bytes < bytes.toNat + (chosenPageSize bytes).bytes) ↔
      bytes.toNat ≤ 2 ^ 64 - 2 ^ 30 ∧ m.Fits (chosenPageSize bytes) (chosenPages bytes).toNat := by
  have hgrant {g : Grant} (hof : g.Of depth v m.fresh m')
      (hfor : g.For (chosenPages bytes) (chosenPageSize bytes).value) (hpages : g.pages ≤ 512) :
      g.Covers v bytes.toNat ↔
        bytes.toNat ≤ (chosenPages bytes).toNat * (chosenPageSize bytes).bytes ∧
        m.Fits (chosenPageSize bytes) (chosenPages bytes).toNat := by
    rw [hof.covers_iff hpages, hof.belowTop_iff hm.inHigherHalf hpages, Grant.bytes,
      hfor.of_value.1, hfor.of_value.2]
  constructor
  · rintro ⟨g, hof, hfor, hcovers, -⟩
    obtain ⟨henough, hfits⟩ := (hgrant hof hfor hcovers.pages_le).mp hcovers
    refine ⟨?_, hfits⟩
    by_contra hmany
    rw [chosenPages_eq_zero (not_le.mp hmany), Nat.zero_mul] at henough
    omega
  · rintro ⟨hbytes, hfits⟩
    obtain ⟨g, hof, hfor, hpages⟩ := allocAndMapExplicit_of_ok hrun
    obtain ⟨henough, hwaste⟩ := chosenPages_bounds hbytes
    refine ⟨g, hof, hfor, (hgrant hof hfor hpages).mpr ⟨henough, hfits⟩, ?_⟩
    rwa [Grant.bytes, hfor.of_value.1, hfor.of_value.2]

/-- When the three calls keep their promise, from every memory of a kernel that is set up, for all
arguments. -/
theorem granted_covers_iff (hm : m.Ready) (hdepth : 3 ≤ depth) :
    (∀ np preferred k, IsTwoPow preferred k → ∃ s,
      PageSize.ofValue? (convertPreferredPageToAvailablePages preferred).pageSize = some s ∧
      ∀ call ∈ [allocAndMapExplicit, allocContiguousAndMap],
        KeepsPromise m (np * (convertPreferredPageToAvailablePages preferred).numberOfPages) s
          (np.toNat * (convertPreferredPageToAvailablePages preferred).numberOfPages.toNat < 2 ^ 64)
          (fun v m' => ∃ g : Grant, g.Of depth v m.fresh m' ∧ g.For np preferred ∧
            g.Covers v (np.toNat * preferred.toNat))
          (call depth np preferred m.fresh)) ∧
    ∀ bytes : U64, KeepsPromise m (chosenPages bytes) (chosenPageSize bytes)
      (bytes.toNat ≤ 2 ^ 64 - 2 ^ 30)
      (fun v m' => ∃ g : Grant, g.Of depth v m.fresh m' ∧
        g.For (chosenPages bytes) (chosenPageSize bytes).value ∧ g.Covers v bytes.toNat ∧
        g.bytes < bytes.toNat + (chosenPageSize bytes).bytes)
      (allocAndMap depth bytes m.fresh) := by
  constructor
  · intro np preferred k hpow
    obtain ⟨s, hconverts⟩ := convertPreferredPageToAvailablePages_spec hpow
    have hsize := hconverts.size
    refine ⟨s, hsize, fun call hcall => ?_⟩
    rcases List.mem_pair.mp hcall with rfl | rfl
    · refine answer_of_mapTaken hm hdepth (fun hlt => ?_) (allocAndMapExplicit_eq hsize)
        (takesPages_allocPhysicalPages hdepth) fun v m' hr =>
        grants_iff hm hpow hsize (allocAndMapExplicit_of_ok hr)
      exact bind_of_error (convertedPages_of_lt hlt)
    · refine answer_of_mapTaken hm hdepth (fun hlt => ?_) (allocContiguousAndMap_eq hsize)
        (takesPages_takeContiguous hdepth) fun v m' hr =>
        grants_iff hm hpow hsize (allocContiguousAndMap_of_ok hr)
      exact bind_of_error (convertedPages_of_lt hlt)
  · intro bytes
    obtain ⟨hsize, hpages⟩ := converted_pages (chosenPages bytes) (chosenPageSize bytes)
    rw [allocAndMap_eq]
    refine answer_of_mapTaken hm hdepth (fun hlt => ?_) (fun hle => ?_)
      (takesPages_allocPhysicalPages hdepth) fun v m' => grants_bytes_iff hm
    · exact bind_of_error (convertedPages_of_lt (by rwa [hpages]))
    · refine (allocAndMapExplicit_eq hsize (by rwa [hpages])).trans ?_
      rw [hpages]

end Promise

/-! ## Examples of calls -/

/-- Memory with 512 free small pages, and nothing mapped yet. -/
def freshMemory : MappedMemory :=
  ⟨higherHalfRegion, fun _ => 0, 0x1000, ⟨0x2000, [⟨0x400000, 512⟩], 256, 1⟩, ⟨0x5000, [], 256, 1⟩,
    ⟨0x6000, [], 256, 1⟩, []⟩

/-- Such memory is that of a kernel that is set up. -/
theorem freshMemory_ready : freshMemory.Ready := by
  have hlisted (s : PageSize) (r : PagedMemory)
      (hr : r ∈ (freshMemory.paging.allocator.manager s).memory) :
      s = .basePage ∧ r = ⟨0x400000, 512⟩ := by
    cases s with
    | basePage => exact ⟨rfl, List.mem_singleton.mp hr⟩
    | largePage => cases hr
    | hugePage => cases hr
  refine ⟨⟨fun s r hr => ?_, fun s r hr => ?_, List.pairwise_singleton _ _⟩, fun s => ?_,
    by decide, ⟨le_rfl, rfl⟩⟩
  · obtain ⟨rfl, rfl⟩ := hlisted s r hr
    rw [PagedMemory.bounded_iff]
    decide
  · obtain ⟨rfl, rfl⟩ := hlisted s r hr
    decide
  · cases s <;> decide

/-- The pages of a call fit where nothing has been taken of the higher half. -/
theorem freshMemory_fits (s : PageSize) {n : Nat} (hn : n ≤ 512) : freshMemory.Fits s n := by
  have hbytes : n * s.bytes ≤ 512 * 2 ^ 30 := Nat.mul_le_mul hn s.bytes_le
  have hround : roundUp freshMemory.higherHalfRegion.start.toNat s.bytes = 2 ^ 64 - 2 ^ 47 := by
    cases s <;> decide +kernel
  have hlimit : freshMemory.higherHalfRegion.limit.toNat = 2 ^ 64 - 2 ^ 27 := rfl
  rw [MappedMemory.Fits, hround, hlimit]
  omega

/-- A run whose journal has no full table. -/
theorem noneFull_final {r : EStateM.Result Fault MappedMemory U64}
    (h : ReturnsWith r fun _ m' => m'.paging.allocator.journal ⊆ [.slotWritten 0]) :
    (final r).NoneFull := by
  obtain ⟨v, m', rfl, hjournal⟩ := h
  intro t ht
  cases List.mem_singleton.mp (hjournal ht)

/-- Three pages, three pages in a row, and the two pages of 5000 bytes. -/
theorem granted_covers_iff_fresh :
    (∀ call ∈ [allocAndMapExplicit, allocContiguousAndMap],
      EndsIn (call 3 3 0x1000 freshMemory) Excused fun v m' =>
        ∃ g : Grant, g.Of 3 v freshMemory m' ∧ g.For 3 0x1000 ∧ g.Covers v (3 * 4096)) ∧
    EndsIn (allocAndMap 3 5000 freshMemory) Excused fun v m' =>
      ∃ g : Grant, g.Of 3 v freshMemory m' ∧ g.For 2 0x1000 ∧ g.Covers v 5000 ∧
        g.bytes < 5000 + 4096 := by
  obtain ⟨hpages, hbytes⟩ := granted_covers_iff freshMemory_ready (le_refl 3)
  obtain ⟨s, hsize, hcalls⟩ := hpages 3 0x1000 12 (by decide)
  obtain rfl : s = .basePage := Option.some.inj (hsize.symm.trans (by decide +kernel))
  constructor
  · intro call hcall
    refine ((hcalls call hcall).kept_iff (noneFull_final ?_)).mpr
      (.inl (.inr ⟨by decide +kernel, freshMemory_fits _ (by decide +kernel)⟩))
    rcases List.mem_pair.mp hcall with rfl | rfl <;> decide +kernel
  · have hkept := ((hbytes 5000).kept_iff (noneFull_final (by decide +kernel))).mpr
      (.inl (.inr ⟨by decide, freshMemory_fits _ (by decide +kernel)⟩))
    have hsize : chosenPageSize 5000 = .basePage := by decide +kernel
    have htwo : chosenPages 5000 = 2 := by decide +kernel
    rw [hsize, htwo] at hkept
    exact hkept

/-- A request for all but one byte of the address space returns without a single page. -/
theorem granted_nothing :
    ¬ EndsIn (allocAndMap 3 (BitVec.allOnes 64) freshMemory) Excused fun v m' =>
      ∃ g : Grant, g.Of 3 v freshMemory m' ∧ g.Covers v (BitVec.allOnes 64).toNat := by
  intro h
  obtain ⟨v, m', hrun, -⟩ : ReturnsWith (allocAndMap 3 (BitVec.allOnes 64) freshMemory)
      fun v _ => v = higherHalfStart := by decide +kernel
  obtain ⟨g, -, hcovers⟩ := h.ok hrun
  have hgranted : g.bytes ≤ 512 * 2 ^ 30 := Nat.mul_le_mul hcovers.pages_le g.pageSize.bytes_le
  have henough := hcovers.enough
  rw [BitVec.toNat_allOnes] at henough
  omega

end Homegrown.Memory
