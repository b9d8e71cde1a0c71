import Homegrown.Memory.Physical.Manager

/-!
# Mapping virtual memory

`mapVirtualRegionWithFlags` writes the entries of four levels of page tables, and takes a
zeroed frame for each table that is missing. `getMappedPage` walks the tables for one
address. Tables are read and written by their physical address, as the identity mapping
of the kernel lets it. Where frames come from is a parameter, as `allocate4KiBPage` has
one definition for each environment.
-/

namespace Homegrown.Memory

/-- `VirtualPageMasks.PAGE_PRESENT`. -/
def VirtualPageMasks.pagePresent : U64 := 1

/-- `VirtualPageMasks.PAGE_WRITABLE`. -/
def VirtualPageMasks.pageWritable : U64 := 2

/-- `VirtualPageMasks.PAGE_EXTENDED_SIZE`. -/
def VirtualPageMasks.pageExtendedSize : U64 := 0x80

/-- `VirtualPageMasks.FRAME_OR_NEXT_PAGE_TABLE`. -/
def VirtualPageMasks.frameOrNextPageTable : U64 := 0x000FFFFFFFFF000

/-- `pageSizeToDepth`. -/
def pageSizeToDepth : PageSize → Nat
  | .basePage => 4
  | .largePage => 3
  | .hugePage => 2

/-- The address of an entry of a page table. -/
def entryAddress (table index : U64) : U64 := table + 8 * index

/-- `RING_RANGE_VALUE(virt / pageSize, PageTableFormat.ENTRIES)`. -/
def pageTableIndex (virt pageSize : U64) : U64 :=
  ringRangeValue (virt / pageSize) (BitVec.ofNat 64 PageTableFormat.entries)

/-- The words of the memory that holds the page tables, `level4PageTable`, and the state
of what allocates frames. -/
structure Paging (σ : Type) where
  words : U64 → U64
  level4PageTable : U64
  allocator : σ

/-- Programs on the page tables. -/
abbrev Pager (σ : Type) := EStateM Fault (Paging σ)

section Map

variable {σ : Type}

/-- A load of an entry. -/
def readWord (address : U64) : Pager σ U64 := return (← get).words address

/-- A store to an entry. -/
def writeWord (address value : U64) : Pager σ Unit :=
  modify fun s => { s with words := fun a => if a = address then value else s.words a }

/-- `memset` of a frame with zero. -/
def clearFrame (address : U64) : Pager σ Unit :=
  modify fun s => { s with
    words := fun a => if address.toNat ≤ a.toNat ∧ a.toNat < address.toNat + pageFrameSize then 0
      else s.words a }

variable (allocate4KiBPage : U64 → EStateM Fault σ U64)

/-- `getZeroBasePage`. -/
def getZeroBasePage : Pager σ U64 := do
  let address ← zoom Paging.allocator (fun s t => { s with allocator := t }) (allocate4KiBPage 1)
  clearFrame address
  return address

/-- The value of the entry for a page. -/
def pageEntry (pageType : PageSize) (physical additionalFlags : U64) : U64 :=
  let value := VirtualPageMasks.pagePresent ||| VirtualPageMasks.pageWritable ||| physical |||
    additionalFlags
  if pageType = .hugePage ∨ pageType = .largePage then
    value ||| VirtualPageMasks.pageExtendedSize
  else value

/-- The inner loop of `mapVirtualRegionWithFlags`, for the levels that are left. -/
def mapPage (virt value : U64) : Nat → U64 → U64 → Pager σ Unit
  | 0, _, _ => return ()
  | left + 1, pageSize, currentTable => do
    let address := entryAddress currentTable (pageTableIndex virt pageSize)
    if left = 0 then
      writeWord address value
    else if (← readWord address) = 0 then
      let page ← getZeroBasePage allocate4KiBPage
      writeWord address (VirtualPageMasks.pagePresent ||| VirtualPageMasks.pageWritable ||| page)
    let entry ← readWord address
    mapPage virt value left (pageSize / BitVec.ofNat 64 PageTableFormat.entries)
      (alignDownExp entry pageFrameShift)

/-- The outer loop of `mapVirtualRegionWithFlags`. It ends where `virt` reaches
`virtualEnd`, after no more steps than there are pages. -/
def mapPages (pageType : PageSize) (additionalFlags virtualEnd : U64) :
    Nat → U64 → U64 → Pager σ Unit
  | 0, _, _ => return ()
  | steps + 1, virt, physical =>
    if virt < virtualEnd then do
      mapPage allocate4KiBPage virt (pageEntry pageType physical additionalFlags)
        (pageSizeToDepth pageType) jumboPageSize (← get).level4PageTable
      mapPages pageType additionalFlags virtualEnd steps (virt + pageType.value)
        (physical + pageType.value)
    else return ()

/-- `mapVirtualRegionWithFlags`, for a page size of the architecture. One more assertion
of the source names a variable that is not declared. -/
def mapVirtualRegionWithFlags (virt : U64) (memory : PagedMemory) (pageType : PageSize)
    (additionalFlags : U64) : Pager σ Unit := do
  assert ((← get).level4PageTable ≠ 0)
  assert (virt >>> 48 = 0 ∨ virt >>> 48 = 0xFFFF)
  assert (ringRangeValue virt pageType.value = 0)
  assert (ringRangeValue memory.pageStart pageType.value = 0)
  let virtualEnd := virt + pageType.value * memory.numberOfPages
  mapPages allocate4KiBPage pageType additionalFlags virtualEnd memory.numberOfPages.toNat virt
    memory.pageStart

/-- `mapVirtualRegion`. -/
def mapVirtualRegion (virt : U64) (memory : PagedMemory) (pageType : PageSize) : Pager σ Unit :=
  mapVirtualRegionWithFlags allocate4KiBPage virt memory pageType 0

end Map

/-! ## Looking up -/

/-- `MappedPage`. Its page size is one that no page has when no entry for a page was met. -/
structure MappedPage where
  entry : U64
  pageSize : U64
  deriving DecidableEq, Repr

/-- `isExtendedPageLevel`. -/
def isExtendedPageLevel (level : Nat) : Bool := level = 1 ∨ level = 2

/-- The loop of `getMappedPage`, for the levels that are left: `result` is what the level
before has found. -/
def getMappedPageFrom (words : U64 → U64) (virt : U64) :
    Nat → Nat → U64 → U64 → MappedPage → MappedPage
  | 0, _, _, _, result => result
  | left + 1, level, pageSize, currentTable, result =>
    let entry := words (entryAddress currentTable (pageTableIndex virt pageSize))
    let result : MappedPage := ⟨entry, result.pageSize / BitVec.ofNat 64 PageTableFormat.entries⟩
    if isExtendedPageLevel level ∧ entry &&& VirtualPageMasks.pageExtendedSize ≠ 0 then result
    else
      getMappedPageFrom words virt left (level + 1)
        (pageSize / BitVec.ofNat 64 PageTableFormat.entries) (alignDownExp entry pageFrameShift)
        result

/-- `getMappedPage`. -/
def getMappedPage (words : U64 → U64) (level4PageTable virt : U64) : MappedPage :=
  getMappedPageFrom words virt (pageSizeToDepth .basePage) 0 jumboPageSize level4PageTable
    ⟨0, wumboPageSize⟩

/-- `getPhysicalAddressFrame`. -/
def getPhysicalAddressFrame (virtualPage : U64) : U64 :=
  virtualPage &&& VirtualPageMasks.frameOrNextPageTable

/-! ## What a step that returns has done -/

section Returns

variable {σ : Type} {s s' : Paging σ} {u : Unit}

@[simp] theorem readWord_eq_ok {address w : U64} :
    readWord address s = .ok w s' ↔ s.words address = w ∧ s = s' := by
  simp only [readWord, bind_eq_ok, get_eq_ok, pure_eq_ok]
  constructor
  · rintro ⟨_, _, ⟨rfl, rfl⟩, hw, hs⟩
    exact ⟨hw, hs⟩
  · rintro ⟨hw, hs⟩
    exact ⟨s, s, ⟨rfl, rfl⟩, hw, hs⟩

@[simp] theorem writeWord_eq_ok {address value : U64} :
    writeWord address value s = .ok u s' ↔
      { s with words := fun a => if a = address then value else s.words a } = s' :=
  modify_eq_ok

/-- The frame comes from the allocator, and is cleared. -/
theorem getZeroBasePage_eq_ok {allocate4KiBPage : U64 → EStateM Fault σ U64} {page : U64} :
    getZeroBasePage allocate4KiBPage s = .ok page s' ↔
      ∃ t, allocate4KiBPage 1 s.allocator = .ok page t ∧
        Paging.mk (fun a => if page.toNat ≤ a.toNat ∧ a.toNat < page.toNat + pageFrameSize then 0
          else s.words a) s.level4PageTable t = s' := by
  simp only [getZeroBasePage, clearFrame, bind_eq_ok, zoom_eq_ok, modify_eq_ok, pure_eq_ok]
  constructor
  · rintro ⟨_, _, ⟨t, ht, rfl⟩, _, _, rfl, rfl, rfl⟩
    exact ⟨t, ht, rfl⟩
  · rintro ⟨t, ht, rfl⟩
    exact ⟨page, _, ⟨t, ht, rfl⟩, ⟨⟩, _, rfl, rfl, rfl⟩

end Returns

end Homegrown.Memory
