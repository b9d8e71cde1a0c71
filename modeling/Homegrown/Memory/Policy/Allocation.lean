import Homegrown.Memory.Physical.Ends
import Homegrown.Memory.Policy.Region
import Homegrown.Memory.Virtual.Map

/-!
# Allocating mapped memory

The functions of `policy.c` that take virtual addresses, physical pages, and map the ones to the
others. They work out how many pages a request needs modulo `2 ^ 64`, before the one test for a
request that is too large: a number of pages that has wrapped passes it, and less is mapped than
was asked for.
-/

namespace Homegrown.Memory

/-! ## Page sizes that are available -/

/-- `AVAILABLE_PAGE_SIZES_MASK`. -/
def availablePageSizesMask : U64 :=
  PageSize.basePage.value ||| PageSize.largePage.value ||| PageSize.hugePage.value

/-- `smallestPageSize`. -/
def smallestPageSize : U64 := 1 <<< availablePageSizesMask.ctz.toNat

/-- `isPageSizeValid`. -/
def isPageSizeValid (pageSize : U64) : Bool := pageSize &&& availablePageSizesMask ≠ 0

/-- `PageSizeConversion`. -/
structure PageSizeConversion where
  numberOfPages : U64
  pageSize : U64
  deriving DecidableEq, Repr

/-- The loop of `convertPreferredPageToAvailablePages`. A word has no more than 64 bits to shift
out. -/
def halvePageSize : Nat → PageSizeConversion → PageSizeConversion
  | 0, result => result
  | shifts + 1, result =>
    if isPageSizeValid result.pageSize then result
    else halvePageSize shifts ⟨result.numberOfPages <<< 1, result.pageSize >>> 1⟩

/-- `convertPreferredPageToAvailablePages`. -/
def convertPreferredPageToAvailablePages (bytesPowerOfTwo : U64) : PageSizeConversion :=
  if bytesPowerOfTwo ≤ smallestPageSize then ⟨1, smallestPageSize⟩
  else halvePageSize 64 ⟨1, bytesPowerOfTwo⟩

/-- The enumerator of a value. -/
def PageSize.ofValue? (pageSize : U64) : Option PageSize :=
  [PageSize.basePage, .largePage, .hugePage].find? fun s => s.value = pageSize

/-! ## Allocating and mapping -/

/-- `higherHalfRegion`, and the page tables with the physical memory that their frames come
from. -/
structure MappedMemory where
  higherHalfRegion : VirtualRegion
  paging : Paging PhysicalMemory

/-- Programs on mapped memory. -/
abbrev Policy := EStateM Fault MappedMemory

/-- A program on the virtual addresses. -/
def onRegion {α : Type} : EStateM Fault VirtualRegion α → Policy α :=
  zoom MappedMemory.higherHalfRegion fun m region => { m with higherHalfRegion := region }

/-- A program on the page tables. -/
def onPaging {α : Type} : Pager PhysicalMemory α → Policy α :=
  zoom MappedMemory.paging fun m paging => { m with paging }

/-- A program on the physical memory. -/
def onPhysical {α : Type} : Kernel α → Policy α :=
  zoom (fun m => m.paging.allocator) fun m physical =>
    { m with paging := { m.paging with allocator := physical } }

/-- `allocate4KiBPage`. -/
def allocate4KiBPage (depth : Nat) (numPages : U64) : Kernel U64 :=
  allocContiguousPhysicalPages depth numPages .basePage

/-- The loop of `allocAndMapExplicit` over the chunks of physical memory. -/
def mapChunks (depth : Nat) (s : PageSize) : U64 → List PagedMemory → Policy Unit
  | _, [] => return ()
  | virtualRegion, chunk :: chunks => do
    onPaging (mapVirtualRegion (allocate4KiBPage depth) virtualRegion chunk s)
    mapChunks depth s (virtualRegion + chunk.numberOfPages * s.value) chunks

/-- The test for a request that is too large, with the pages of the conversion. -/
def convertedPages (numberOfPages preferredPageSizePowerOfTwo : U64) : Policy (U64 × PageSize) := do
  let conversion := convertPreferredPageToAvailablePages preferredPageSizePowerOfTwo
  let numberOfPages := numberOfPages * conversion.numberOfPages
  if BitVec.ofNat 64 PageTableFormat.entries < numberOfPages then throw .tooLargeAllocation
  else
    match PageSize.ofValue? conversion.pageSize with
    | none => throw .assertion
    | some s => return (numberOfPages, s)

/-- `allocAndMapExplicit`. -/
def allocAndMapExplicit (depth : Nat) (numberOfPages preferredPageSizePowerOfTwo : U64) :
    Policy U64 := do
  let (numberOfPages, s) ← convertedPages numberOfPages preferredPageSizePowerOfTwo
  let virtualAddress ← onRegion (getVirtualMemory (s.value * numberOfPages) s)
  let physicalAddresses ← onPhysical (allocPhysicalPages depth numberOfPages s)
  mapChunks depth s virtualAddress physicalAddresses
  return virtualAddress

/-- `allocContiguousAndMap`. -/
def allocContiguousAndMap (depth : Nat) (numberOfPages preferredPageSizePowerOfTwo : U64) :
    Policy U64 := do
  let (numberOfPages, s) ← convertedPages numberOfPages preferredPageSizePowerOfTwo
  let virtualAddress ← onRegion (getVirtualMemory (numberOfPages * s.value) s)
  let physicalAddress ← onPhysical (allocContiguousPhysicalPages depth numberOfPages s)
  onPaging (mapVirtualRegion (allocate4KiBPage depth) virtualAddress
    ⟨physicalAddress, numberOfPages⟩ s)
  return virtualAddress

/-- The loop of `allocAndMap` over the page sizes but the last one, and what follows it. -/
def allocAndMapFrom (depth : Nat) (bytes : U64) : List PageSize → Policy U64
  | [] => allocAndMapExplicit depth (ceilingDivValue bytes PageSize.hugePage.value)
      PageSize.hugePage.value
  | s :: sizes =>
    let inPages := ceilingDivValue bytes s.value
    if inPages ≤ BitVec.ofNat 64 (PageTableFormat.entries / 2) then
      allocAndMapExplicit depth inPages s.value
    else allocAndMapFrom depth bytes sizes

/-- `allocAndMap`. -/
def allocAndMap (depth : Nat) (bytes : U64) : Policy U64 :=
  allocAndMapFrom depth bytes [.basePage, .largePage]

/-! ## Conversions -/

section Conversion

variable {preferred : U64} {k : Nat} {s : PageSize}

/-- The conversion of a power of two. -/
structure Converts (preferred : U64) (c : PageSizeConversion) (s : PageSize) : Prop where
  size : PageSize.ofValue? c.pageSize = some s
  covers : c.numberOfPages.toNat * s.bytes = max preferred.toNat 4096

theorem convertPreferredPageToAvailablePages_spec (h : IsTwoPow preferred k) :
    ∃ s, Converts preferred (convertPreferredPageToAvailablePages preferred) s := by
  have hall : ∀ k : Fin 64,
      (PageSize.ofValue? (convertPreferredPageToAvailablePages (BitVec.twoPow 64 k)).pageSize).any
        (fun s => (convertPreferredPageToAvailablePages (BitVec.twoPow 64 k)).numberOfPages.toNat *
          s.bytes = max (BitVec.twoPow 64 k).toNat 4096) = true := by
    decide +kernel
  have hk := h.exponent_lt
  have hpreferred : preferred = BitVec.twoPow 64 k := by
    apply BitVec.eq_of_toNat_eq
    rw [h, BitVec.toNat_twoPow, Nat.mod_eq_of_lt (Nat.pow_lt_pow_right (by norm_num) hk)]
  obtain ⟨s, hsize, hcovers⟩ := (Option.any_eq_true _ _).mp (hall ⟨k, hk⟩)
  exact ⟨s, hpreferred ▸ ⟨hsize, of_decide_eq_true hcovers⟩⟩

/-- A page size converts to itself. -/
theorem convertPreferredPageToAvailablePages_value (s : PageSize) :
    convertPreferredPageToAvailablePages s.value = ⟨1, s.value⟩ ∧
      PageSize.ofValue? s.value = some s := by
  cases s <;> decide +kernel

end Conversion

/-! ## The pages that are mapped -/

section Reached

variable {s : PageSize} {v virtualEnd : U64} {chunks : List PagedMemory}

/-- The virtual pages that the outer loop of `mapVirtualRegionWithFlags` gets to. -/
def reachedPages (s : PageSize) (virtualEnd : U64) : Nat → U64 → List U64
  | 0, _ => []
  | steps + 1, virt =>
    if virt < virtualEnd then virt :: reachedPages s virtualEnd steps (virt + s.value) else []

/-- The virtual pages that the loop over the chunks gets to. -/
def mappedPages (s : PageSize) : U64 → List PagedMemory → List U64
  | _, [] => []
  | virt, chunk :: chunks =>
    reachedPages s (virt + s.value * chunk.numberOfPages) chunk.numberOfPages.toNat virt ++
      mappedPages s (virt + chunk.numberOfPages * s.value) chunks

/-- The entries of the pages are written one after the other. -/
def writePages {σ : Type} (allocate4KiBPage : U64 → EStateM Fault σ U64) (pageType : PageSize)
    (additionalFlags : U64) : List U64 → U64 → Pager σ Unit
  | [], _ => return ()
  | virt :: pages, physical => do
    mapPage allocate4KiBPage virt (pageEntry pageType physical additionalFlags)
      (pageSizeToDepth pageType) jumboPageSize (← get).level4PageTable
    writePages allocate4KiBPage pageType additionalFlags pages (physical + pageType.value)

/-- The outer loop of `mapVirtualRegionWithFlags` writes the entries of the pages it gets to. -/
theorem mapPages_eq_writePages {σ : Type} {allocate4KiBPage : U64 → EStateM Fault σ U64}
    {flags physical virt : U64} {steps : Nat} :
    mapPages allocate4KiBPage s flags virtualEnd steps virt physical =
      writePages allocate4KiBPage s flags (reachedPages s virtualEnd steps virt) physical := by
  induction steps generalizing virt physical with
  | zero => rfl
  | succ steps ih =>
    rw [mapPages, reachedPages]
    split
    · simp only [writePages, ih]
    · rfl

theorem length_reachedPages_le {steps : Nat} :
    (reachedPages s virtualEnd steps v).length ≤ steps := by
  induction steps generalizing v with
  | zero => exact le_rfl
  | succ steps ih =>
    rw [reachedPages]
    split
    · exact Nat.succ_le_succ ih
    · exact Nat.zero_le _

theorem length_mappedPages_le : (mappedPages s v chunks).length ≤ pagesIn chunks := by
  induction chunks generalizing v with
  | nil => exact le_rfl
  | cons chunk chunks ih =>
    rw [mappedPages, List.length_append, pagesIn_cons]
    exact Nat.add_le_add length_reachedPages_le ih

/-- The pages `k` and on of a region. -/
def pagesFrom (s : PageSize) (v n : Nat) : List Nat := (List.range n).map fun k => v + k * s.bytes

theorem pagesFrom_add {v n m : Nat} :
    pagesFrom s v (n + m) = pagesFrom s v n ++ pagesFrom s (v + n * s.bytes) m := by
  rw [pagesFrom, List.range_add, List.map_append, List.map_map, pagesFrom, pagesFrom]
  congr 1
  apply List.map_congr_left
  intro k _
  simp only [Function.comp]
  ring

theorem pagesFrom_succ {v n : Nat} :
    pagesFrom s v (n + 1) = v :: pagesFrom s (v + s.bytes) n := by
  rw [Nat.add_comm, pagesFrom_add]
  simp [pagesFrom]

/-- Below the end, which is no wrapped one, the loop gets to every page. -/
theorem reachedPages_eq {steps : Nat} (hend : v.toNat + steps * s.bytes = virtualEnd.toNat) :
    (reachedPages s virtualEnd steps v).map BitVec.toNat = pagesFrom s v.toNat steps := by
  induction steps generalizing v with
  | zero => rfl
  | succ steps ih =>
    have hpos := s.bytes_pos
    have hlt := virtualEnd.isLt
    rw [Nat.add_mul, Nat.one_mul] at hend
    have hnext : (v + s.value).toNat = v.toNat + s.bytes := by
      rw [BitVec.toNat_add, s.toNat_value, Nat.mod_eq_of_lt (by omega)]
    have hbelow : v < virtualEnd := by
      rw [BitVec.lt_def]
      omega
    rw [reachedPages, if_pos hbelow, List.map_cons, ih (by omega), hnext, pagesFrom_succ]

/-- An end that has wrapped is below every page. -/
theorem reachedPages_of_le {steps : Nat} (hend : virtualEnd ≤ v) :
    reachedPages s virtualEnd steps v = [] := by
  cases steps with
  | zero => rfl
  | succ steps => exact if_neg (BitVec.not_lt.mpr hend)

/-- The address behind so many pages. -/
theorem toNat_add_pages {n : U64} (hend : v.toNat + n.toNat * s.bytes < 2 ^ 64) :
    (v + n * s.value).toNat = v.toNat + n.toNat * s.bytes := by
  rw [BitVec.toNat_add, BitVec.toNat_mul, s.toNat_value, Nat.add_mod_mod, Nat.mod_eq_of_lt hend]

/-- Chunks that end below the top of the address space are mapped back to back. -/
theorem mappedPages_eq (hend : v.toNat + pagesIn chunks * s.bytes < 2 ^ 64) :
    (mappedPages s v chunks).map BitVec.toNat = pagesFrom s v.toNat (pagesIn chunks) := by
  induction chunks generalizing v with
  | nil => rfl
  | cons chunk chunks ih =>
    rw [pagesIn_cons, Nat.add_mul] at hend
    have hnext : (v + chunk.numberOfPages * s.value).toNat =
        v.toNat + chunk.numberOfPages.toNat * s.bytes := toNat_add_pages (by omega)
    rw [mappedPages, List.map_append, ih (by omega), hnext, pagesIn_cons, pagesFrom_add,
      reachedPages_eq (by rw [BitVec.mul_comm, hnext])]

/-- Chunks that reach the top of the address space are not all mapped. -/
theorem length_mappedPages_lt (hpages : pagesIn chunks ≤ 512) (hpos : 0 < pagesIn chunks)
    (hend : 2 ^ 64 ≤ v.toNat + pagesIn chunks * s.bytes) :
    (mappedPages s v chunks).length < pagesIn chunks := by
  induction chunks generalizing v with
  | nil => exact absurd hpos (Nat.lt_irrefl 0)
  | cons chunk chunks ih =>
    rw [pagesIn_cons] at hpages hpos hend ⊢
    have hbytes := s.bytes_le
    have hv := v.isLt
    rw [mappedPages, List.length_append]
    by_cases hchunk : v.toNat + chunk.numberOfPages.toNat * s.bytes < 2 ^ 64
    · have hnext := toNat_add_pages hchunk
      have hrest : 0 < pagesIn chunks := by
        by_contra hzero
        rw [Nat.eq_zero_of_not_pos hzero, Nat.add_zero] at hend
        omega
      refine Nat.add_lt_add_of_le_of_lt length_reachedPages_le (ih (by omega) hrest ?_)
      rw [hnext]
      rw [Nat.add_mul] at hend
      omega
    · have hsmall : chunk.numberOfPages.toNat * s.bytes ≤ 512 * 2 ^ 30 :=
        Nat.mul_le_mul (by omega) hbytes
      have hsome : 0 < chunk.numberOfPages.toNat := by
        by_contra hzero
        rw [Nat.eq_zero_of_not_pos hzero, Nat.zero_mul] at hchunk
        omega
      have hwrap : v + s.value * chunk.numberOfPages ≤ v := by
        rw [BitVec.le_def, BitVec.toNat_add, BitVec.toNat_mul, s.toNat_value,
          Nat.mul_comm s.bytes, Nat.add_mod_mod, Nat.mod_eq_sub_mod (by omega),
          Nat.mod_eq_of_lt (by omega)]
        omega
      rw [reachedPages_of_le hwrap, List.length_nil, Nat.zero_add]
      exact lt_of_le_of_lt length_mappedPages_le (by omega)

end Reached

/-! ## What a call that returns has taken -/

/-- What a call takes: pages of a size from a virtual address on, and the chunks of physical
memory for them. -/
structure Grant where
  pageSize : PageSize
  pages : Nat
  chunks : List PagedMemory

namespace Grant

/-- The bytes of the pages. -/
def bytes (g : Grant) : Nat := g.pages * g.pageSize.bytes

/-- The returning run of a call: the virtual addresses and the physical pages are taken, and
the chunks are mapped one after the other. -/
structure Of (g : Grant) (depth : Nat) (virtualAddress : U64) (m m' : MappedMemory) : Prop where
  region : ∃ next p, getVirtualMemory (BitVec.ofNat 64 g.bytes) g.pageSize m.higherHalfRegion =
      .ok virtualAddress next ∧
    mapChunks depth g.pageSize virtualAddress g.chunks
      ⟨next, { m.paging with allocator := p }⟩ = .ok () m'
  chunks : pagesIn g.chunks = g.pages

/-- The call grants as much as was requested, in no more pages than a table has entries, all of
which are mapped from the returned address on. -/
structure Covers (g : Grant) (virtualAddress : U64) (requested : Nat) : Prop where
  enough : requested ≤ g.bytes
  pages_le : g.pages ≤ PageTableFormat.entries
  mapped : (mappedPages g.pageSize virtualAddress g.chunks).map BitVec.toNat =
    pagesFrom g.pageSize virtualAddress.toNat g.pages

/-- The pages end below the top of the address space, where the virtual addresses are taken
next. -/
def BelowTop (g : Grant) (m : MappedMemory) : Prop :=
  g.pages = 0 ∨
    (alignUpValue m.higherHalfRegion.start g.pageSize.value).toNat + g.bytes < 2 ^ 64

end Grant

section Returns

variable {m m' : MappedMemory} {depth : Nat} {np preferred bytes v : U64} {s : PageSize} {k : Nat}

/-- What a conversion that returns has checked. -/
theorem convertedPages_eq_ok {r : U64 × PageSize} (h : convertedPages np preferred m = .ok r m') :
    m = m' ∧ r.1 = np * (convertPreferredPageToAvailablePages preferred).numberOfPages ∧
      r.1.toNat ≤ PageTableFormat.entries ∧
      PageSize.ofValue? (convertPreferredPageToAvailablePages preferred).pageSize = some r.2 := by
  simp only [convertedPages] at h
  split at h
  · exact (throw_eq_ok.mp h).elim
  · rename_i hle
    cases hsize : PageSize.ofValue? (convertPreferredPageToAvailablePages preferred).pageSize with
    | none =>
      rw [hsize] at h
      exact (throw_eq_ok.mp h).elim
    | some s =>
      rw [hsize] at h
      obtain ⟨rfl, rfl⟩ := pure_eq_ok.mp h
      exact ⟨rfl, rfl, not_lt.mp hle, rfl⟩

variable {g : Grant}

/-- The pages of a call are all mapped exactly when they end below the top of the address
space. -/
theorem Grant.Of.mapped_iff (h : g.Of depth v m m') (hpages : g.pages ≤ 512) :
    (mappedPages g.pageSize v g.chunks).map BitVec.toNat =
      pagesFrom g.pageSize v.toNat g.pages ↔ g.BelowTop m := by
  obtain ⟨⟨next, p, hregion, -⟩, hchunks⟩ := h
  obtain ⟨-, -, -, -, hv, -⟩ := getVirtualMemory_eq_ok hregion
  rw [Grant.BelowTop, ← hv, Grant.bytes, ← hchunks]
  constructor
  · intro hmapped
    by_contra hnot
    rw [not_or, not_lt] at hnot
    have hless := length_mappedPages_lt (hchunks ▸ hpages) (Nat.pos_of_ne_zero hnot.1) hnot.2
    have hlength := congrArg List.length hmapped
    rw [pagesFrom, List.length_map, List.length_map, List.length_range] at hlength
    omega
  · rintro (hzero | hbelow)
    · have hnone : (mappedPages g.pageSize v g.chunks).length ≤ pagesIn g.chunks :=
        length_mappedPages_le
      rw [hzero, Nat.le_zero, List.length_eq_zero_iff] at hnone
      rw [hnone, hzero]
      rfl
    · exact mappedPages_eq hbelow

/-- A call covers a request that its pages cover, exactly when they end below the top of the
address space. -/
theorem Grant.Of.covers_iff {requested : Nat} (h : g.Of depth v m m') (hpages : g.pages ≤ 512) :
    g.Covers v requested ↔ requested ≤ g.bytes ∧ g.BelowTop m := by
  rw [← h.mapped_iff hpages]
  exact ⟨fun hc => ⟨hc.enough, hc.mapped⟩, fun ⟨henough, hmapped⟩ => ⟨henough, hpages, hmapped⟩⟩

/-- The pages of a call: what the conversion makes of the arguments, modulo `2 ^ 64`. -/
def Grant.For (g : Grant) (np preferred : U64) : Prop :=
  PageSize.ofValue? (convertPreferredPageToAvailablePages preferred).pageSize =
      some g.pageSize ∧
    g.pages = (np * (convertPreferredPageToAvailablePages preferred).numberOfPages).toNat

theorem ofNat_pages_mul (pages : U64) (s : PageSize) :
    BitVec.ofNat 64 (pages.toNat * s.bytes) = pages * s.value := by
  apply BitVec.eq_of_toNat_eq
  rw [BitVec.toNat_ofNat, BitVec.toNat_mul, s.toNat_value]

/-- The run of `allocAndMapExplicit`. -/
theorem allocAndMapExplicit_of_ok (h : allocAndMapExplicit depth np preferred m = .ok v m') :
    ∃ g : Grant, g.Of depth v m m' ∧ g.For np preferred ∧ g.pages ≤ 512 := by
  simp only [allocAndMapExplicit, onRegion, onPhysical, bind_eq_ok, pure_eq_ok, zoom_eq_ok] at h
  obtain ⟨⟨pages, s⟩, _, hconverted, v', _, ⟨next, hregion, rfl⟩, chunks, _, ⟨p, halloc, rfl⟩,
    _, _, hmap, rfl, rfl⟩ := h
  obtain ⟨rfl, hpages, hle, hsize⟩ := convertedPages_eq_ok hconverted
  refine ⟨⟨s, pages.toNat, chunks⟩, ⟨⟨next, p, ?_, hmap⟩, ?_⟩,
    ⟨hsize, congrArg BitVec.toNat hpages⟩, hle⟩
  · change getVirtualMemory (BitVec.ofNat 64 (pages.toNat * s.bytes)) s m.higherHalfRegion = _
    rw [ofNat_pages_mul, BitVec.mul_comm]
    exact hregion
  · exact pagesIn_allocPhysicalPages (hle.trans_lt (by norm_num [PageTableFormat.entries])) halloc

/-- The run of `allocContiguousAndMap`: one chunk is mapped. -/
theorem allocContiguousAndMap_of_ok (h : allocContiguousAndMap depth np preferred m = .ok v m') :
    ∃ g : Grant, g.Of depth v m m' ∧ g.For np preferred ∧ g.pages ≤ 512 := by
  simp only [allocContiguousAndMap, onRegion, onPhysical, onPaging, bind_eq_ok, pure_eq_ok,
    zoom_eq_ok] at h
  obtain ⟨⟨pages, s⟩, _, hconverted, v', _, ⟨next, hregion, rfl⟩, address, _, ⟨p, halloc, rfl⟩,
    _, _, ⟨paging, hmap, rfl⟩, rfl, rfl⟩ := h
  obtain ⟨rfl, hpages, hle, hsize⟩ := convertedPages_eq_ok hconverted
  refine ⟨⟨s, pages.toNat, [⟨address, pages⟩]⟩, ⟨⟨next, p, ?_, ?_⟩, Nat.add_zero _⟩,
    ⟨hsize, congrArg BitVec.toNat hpages⟩, hle⟩
  · change getVirtualMemory (BitVec.ofNat 64 (pages.toNat * s.bytes)) s m.higherHalfRegion = _
    rw [ofNat_pages_mul]
    exact hregion
  · simp only [mapChunks, onPaging, bind_eq_ok, zoom_eq_ok, pure_eq_ok]
    exact ⟨(), _, ⟨paging, hmap, rfl⟩, trivial, rfl⟩

/-- The pages of a call are enough exactly when their number has not wrapped. -/
theorem Grant.For.enough_iff (hpow : IsTwoPow preferred k) (h : g.For np preferred)
    (hpages : g.pages ≤ 512) :
    np.toNat * preferred.toNat ≤ g.bytes ↔
      np.toNat * (convertPreferredPageToAvailablePages preferred).numberOfPages.toNat < 2 ^ 64 := by
  obtain ⟨s, hsize, hcovers⟩ := convertPreferredPageToAvailablePages_spec hpow
  obtain rfl : g.pageSize = s := Option.some.inj (h.1.symm.trans hsize)
  have hpagesEq := h.2
  have hbytes := g.pageSize.bytes_le
  rw [BitVec.toNat_mul] at hpagesEq
  generalize (convertPreferredPageToAvailablePages preferred).numberOfPages.toNat = c at *
  have hpreferred : np.toNat * preferred.toNat ≤ np.toNat * c * g.pageSize.bytes := by
    rw [Nat.mul_assoc, hcovers]
    exact Nat.mul_le_mul_left _ (le_max_left _ _)
  constructor
  · intro henough
    by_contra hwrap
    have hgranted : g.bytes ≤ 512 * 2 ^ 30 := Nat.mul_le_mul hpages hbytes
    -- A count that wraps is one of whole pages, so the pages are what was preferred.
    have hlarge : 4096 ≤ preferred.toNat := by
      by_contra hsmall
      rw [max_eq_right (by omega)] at hcovers
      have hone : c ≤ 1 := by
        by_contra htwo
        have hmul := Nat.mul_le_mul (show 2 ≤ c by omega) g.pageSize.bytes_pos
        have hbase : 4096 ≤ g.pageSize.bytes := by cases g.pageSize <;> decide
        have := Nat.mul_le_mul (show 2 ≤ c by omega) hbase
        omega
      have hnp := np.isLt
      have := Nat.mul_le_mul_left np.toNat hone
      omega
    rw [max_eq_left hlarge] at hcovers
    have hfour : 2 ^ 64 * 1 ≤ np.toNat * c * g.pageSize.bytes :=
      Nat.mul_le_mul (by omega) g.pageSize.bytes_pos
    rw [Nat.mul_assoc, hcovers] at hfour
    omega
  · intro hfits
    rw [Nat.mod_eq_of_lt hfits] at hpagesEq
    rw [Grant.bytes, hpagesEq]
    exact hpreferred

/-- The conversion of a page size is the size itself. -/
theorem Grant.For.of_value (h : g.For np s.value) : g.pageSize = s ∧ g.pages = np.toNat := by
  obtain ⟨hsize, hpages⟩ := h
  obtain ⟨hconverted, hvalue⟩ := convertPreferredPageToAvailablePages_value s
  rw [hconverted] at hsize hpages
  rw [hvalue] at hsize
  refine ⟨(Option.some.inj hsize).symm, ?_⟩
  rw [hpages]
  exact congrArg BitVec.toNat (BitVec.mul_one np)

/-- Up to the last page of the largest size, the pages are the bytes rounded up. -/
theorem Grant.For.bytes_bounds
    (h : g.For (ceilingDivValue bytes g.pageSize.value) g.pageSize.value)
    (hbytes : bytes.toNat ≤ 2 ^ 64 - 2 ^ 30) :
    bytes.toNat ≤ g.bytes ∧ g.bytes < bytes.toNat + g.pageSize.bytes := by
  have hpos := g.pageSize.bytes_pos
  have hle := g.pageSize.bytes_le
  have hpow := g.pageSize.isTwoPow_value
  rw [Grant.bytes, h.of_value.2, toNat_ceilingDivValue hpow (by
    change bytes.toNat + g.pageSize.bytes ≤ _
    omega)]
  change bytes.toNat ≤ (bytes.toNat + (g.pageSize.bytes - 1)) / g.pageSize.bytes *
    g.pageSize.bytes ∧ _ / g.pageSize.bytes * g.pageSize.bytes < _
  have hdiv := Nat.div_add_mod' (bytes.toNat + (g.pageSize.bytes - 1)) g.pageSize.bytes
  have hmod := Nat.mod_lt (bytes.toNat + (g.pageSize.bytes - 1)) hpos
  constructor
  · omega
  · change (bytes.toNat + (g.pageSize.bytes - 1)) / g.pageSize.bytes * g.pageSize.bytes < _
    omega

end Returns

end Homegrown.Memory
