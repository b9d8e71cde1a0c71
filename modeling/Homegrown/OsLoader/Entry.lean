import Homegrown.OsLoader.Placed

/-!
# What the kernel finds at its entry

The processor goes on with the page tables of the loader: the kernel is where it was linked to, its
parameters and its stack are where both sides expect them, and all other memory is where it was.
-/

namespace Homegrown.OsLoader

open Memory Radix

/-! ## Firmware that can be relied on -/

/-- The addresses of a descriptor. -/
def descriptorSpan (d : MemoryDescriptor) : Span :=
  ⟨d.physicalStart.toNat, d.numberOfPages.toNat * pageFrameSize⟩

/-- The addresses of the frame buffer, in whole pages. -/
def GraphicsOutputMode.span (mode : GraphicsOutputMode) : Span :=
  ⟨mode.frameBufferBase.toNat,
    (ceilingDivValue mode.frameBufferSize UEFIPageSize).toNat * pageFrameSize⟩

/-- Memory in pages below the half of the addresses, no two parts of which overlap. -/
structure Describes (mode : GraphicsOutputMode) (descriptors : List MemoryDescriptor) : Prop where
  aligned : ∀ d ∈ descriptors, pageFrameSize ∣ d.physicalStart.toNat
  nonempty : ∀ d ∈ descriptors, 0 < (descriptorSpan d).size
  low : ∀ d ∈ descriptors, (descriptorSpan d).stop ≤ 2 ^ 47
  disjoint : descriptors.Pairwise fun d d' => (descriptorSpan d).Disjoint (descriptorSpan d')
  frameBuffer_aligned : pageFrameSize ∣ mode.frameBufferBase.toNat
  frameBuffer_nonempty : 0 < mode.span.size
  frameBuffer_low : mode.span.stop ≤ 2 ^ 47
  frameBuffer_disjoint : ∀ d ∈ descriptors, (descriptorSpan d).Disjoint mode.span

/-- Firmware that gives away pages once, fills the buffers of its reads, and describes its
memory, among it all that it gives away. -/
structure Reliable {σ : Type} (fw : Firmware σ) (taken : σ → Set U64) : Prop where
  pages : HandsOutPages fw.toBootServices taken
  fills : ∀ handles, fw.handleBuffer = some handles → ∀ device ∈ handles, ∀ biop,
    device.blockIo = some biop → ∀ mediaId lba size data,
      biop.readBlocks mediaId lba size = some data → data.length = size.toNat
  maps : ∀ size t, taken t ⊆ taken (fw.getMemoryMap size t).2
  describes : ∀ mode, fw.graphicsOutput = some mode → ∀ size t memoryMapSize mapKey descriptorSize
    descriptors, (fw.getMemoryMap size t).1 =
      .success memoryMapSize mapKey descriptorSize descriptors → Describes mode descriptors
  describes_pages : ∀ size t memoryMapSize mapKey descriptorSize descriptors,
    (fw.getMemoryMap size t).1 = .success memoryMapSize mapKey descriptorSize descriptors →
      ∀ pages u address u', fw.allocatePages pages u = some (address, u') →
        ∀ n ∈ Span.mk address.toNat (pages.toNat * pageFrameSize),
          ∃ d ∈ descriptors, n ∈ descriptorSpan d

/-! ## What the steps return -/

section Steps

variable {σ α : Type} {fw : Firmware σ} {boot : BootServices σ} {taken : σ → Set U64}
  {s s' : Paging σ} {a : α} {u : Unit} {t t' : σ} {kernelMagic : List U8} {mediaId : U32}
  {diskLba bytes : U64} {content : KernelContent}

theorem onServices_eq_ok {x : Loader σ α} : onServices x s = .ok a s' ↔
    ∃ t, x s.allocator = .ok a t ∧ { s with allocator := t } = s' := zoom_eq_ok

theorem onPages_eq_ok {x : Pager σ α} : onPages x s = .ok a s' ↔ x s = .ok a s' := by
  rw [onPages]
  cases x s with
  | ok b u => simp only [EStateM.Result.ok.injEq]
  | error fault u => exact iff_of_false (fun h => by cases h) (fun h => by cases h)

/-- The pages come from boot services, and are cleared. -/
theorem allocAndZero_eq_ok {numPages page : U64} : allocAndZero boot numPages s = .ok page s' ↔
    ∃ t, boot.allocatePages numPages s.allocator = some (page, t) ∧
      { s with words := clearPages page numPages s.words, allocator := t } = s' := by
  simp only [allocAndZero, BootServices.allocate4KiBPage, bind_eq_ok, zoom_eq_ok, modify_eq_ok,
    pure_eq_ok]
  constructor
  · rintro ⟨_, _, ⟨t, hpages, rfl⟩, _, _, rfl, rfl, rfl⟩
    split at hpages
    · rename_i hsome
      simp only [EStateM.Result.ok.injEq] at hpages
      obtain ⟨rfl, rfl⟩ := hpages
      exact ⟨_, hsome, rfl⟩
    · cases hpages
  · rintro ⟨t, hsome, rfl⟩
    exact ⟨page, _, ⟨t, by rw [hsome], rfl⟩, ⟨⟩, _, rfl, rfl, rfl⟩

theorem grows_needs (feature : Bool) (message : String) :
    Grows taken (needs feature message : Loader σ Unit) := by
  rw [needs]
  split
  · exact grows_pure _
  · exact grows_throw _

/-- A memory map costs pages at most. -/
theorem Reliable.grows_getMemoryInfo (h : Reliable fw taken) : Grows taken (getMemoryInfo fw) := by
  have hask (size : U64) : Grows taken (fw.askMemoryMap size) := by
    intro t answer t' hrun
    simp only [Firmware.askMemoryMap, EStateM.Result.ok.injEq] at hrun
    obtain ⟨-, rfl⟩ := hrun
    exact h.maps size t
  refine (hask 0).bind fun answer => ?_
  cases answer with
  | bufferTooSmall memoryMapSize descriptorSize =>
    refine (h.pages.grows_allocate _ _).bind fun memoryMap => (hask _).bind fun answer => ?_
    cases answer with
    | success _ _ _ _ => exact grows_pure _
    | bufferTooSmall _ _ => exact grows_throw _
    | failure => exact grows_throw _
  | success _ _ _ _ => exact grows_throw _
  | failure => exact grows_throw _

/-- The descriptors come from the answer of firmware. -/
theorem getMemoryInfo_answer {memoryInfo : MemoryInfo}
    (h : getMemoryInfo fw t = .ok memoryInfo t') :
    ∃ size u, (fw.getMemoryMap size u).1 = .success memoryInfo.memoryMapSize memoryInfo.mapKey
      memoryInfo.descriptorSize memoryInfo.descriptors ∧ (fw.getMemoryMap size u).2 = t' := by
  rw [getMemoryInfo, bind_eq_ok] at h
  obtain ⟨answer, u, -, h⟩ := h
  cases answer with
  | bufferTooSmall memoryMapSize descriptorSize =>
    simp only [bind_eq_ok] at h
    obtain ⟨memoryMap, u', -, answer, u'', hask, h⟩ := h
    simp only [Firmware.askMemoryMap, EStateM.Result.ok.injEq] at hask
    obtain ⟨hanswer, rfl⟩ := hask
    cases answer with
    | success _ _ _ _ =>
      obtain ⟨rfl, rfl⟩ := pure_eq_ok.mp h
      exact ⟨_, u', hanswer, rfl⟩
    | bufferTooSmall _ _ => exact (throw_eq_ok.mp h).elim
    | failure => exact (throw_eq_ok.mp h).elim
  | success _ _ _ _ => exact (throw_eq_ok.mp h).elim
  | failure => exact (throw_eq_ok.mp h).elim

/-- The read of the file costs pages at most. -/
theorem HandsOutPages.grows_readKernelInfo (h : HandsOutPages boot taken) :
    Grows taken (readKernelInfo boot) := by
  refine (grows_orExit _ _).bind fun device => (grows_orExit _ _).bind fun sfsp =>
    (grows_orExit _ _).bind fun root => (grows_orExit _ _).bind fun file =>
    (grows_orExit _ _).bind fun fileSize => (h.grows_allocate _ _).bind fun address =>
    (grows_orExit _ _).bind fun data => ?_
  split
  · split
    · exact grows_pure _
    · exact grows_throw _
  · exact grows_throw _

/-- The pages of the kernel were given away for it. -/
structure KernelContent.GivenAway (content : KernelContent) (taken : σ → Set U64) (t t' : σ) :
    Prop where
  aligned : pageFrameSize ∣ content.buf.toNat
  low : content.buf.toNat + content.pages.toNat * pageFrameSize ≤ 2 ^ 47
  untaken : Disjoint (framesOf content.buf content.pages.toNat) (taken t)
  takes : framesOf content.buf content.pages.toNat ∪ taken t ⊆ taken t'

/-- What was taken before does not matter. -/
theorem KernelContent.GivenAway.mono {u : σ} (h : content.GivenAway taken u t')
    (hsub : taken t ⊆ taken u) : content.GivenAway taken t t' :=
  ⟨h.aligned, h.low, h.untaken.mono_right hsub,
    (Set.union_subset_union_right _ hsub).trans h.takes⟩

/-- The kernel is in pages that were allocated for it. -/
theorem HandsOutPages.givenAway_readHandles (h : HandsOutPages boot taken) {handles : List Device}
    (hfills : ∀ device ∈ handles, ∀ biop, device.blockIo = some biop → ∀ mediaId lba size data,
      biop.readBlocks mediaId lba size = some data → data.length = size.toNat)
    (hrun : readHandles boot kernelMagic mediaId diskLba bytes handles t = .ok (some content) t') :
    content.GivenAway taken t t' := by
  induction handles generalizing t with
  | nil => cases (pure_eq_ok.mp hrun).1
  | cons device handles ih =>
    rw [List.forall_mem_cons] at hfills
    rw [readHandles, bind_eq_ok] at hrun
    obtain ⟨biop, _, hopen, hrun⟩ := hrun
    rw [bind_eq_ok] at hrun
    obtain ⟨address, u, hallocate, hrun⟩ := hrun
    obtain ⟨hdevice, rfl⟩ := orExit_eq_ok.mp hopen
    have hpages := BootServices.allocate_eq_ok.mp hallocate
    cases hread : readHandle kernelMagic mediaId diskLba bytes biop with
    | none =>
      rw [hread] at hrun
      exact (ih hfills.2 hrun).mono (Set.subset_union_right.trans (h.takes hpages))
    | some data =>
      rw [hread] at hrun
      obtain ⟨hcontent, rfl⟩ := pure_eq_ok.mp hrun
      obtain rfl := Option.some.inj hcontent
      have hlength : BitVec.ofNat 64 data.length = alignUpToBlock bytes biop.media.blockSize := by
        rw [readHandle] at hread
        split at hread
        · have hblocks := Option.eq_some_of_filter_eq_some hread
          rw [hfills.1 biop hdevice _ _ _ _ hblocks, BitVec.ofNat_toNat, BitVec.setWidth_eq]
        · cases hread
      have hcount : KernelContent.pages ⟨address, data⟩ =
          ceilingDivValue (alignUpToBlock bytes biop.media.blockSize) UEFIPageSize := by
        rw [KernelContent.pages, hlength]
      constructor
      · exact h.aligned hpages
      · rw [hcount]
        exact h.low hpages
      · rw [hcount]
        exact h.untaken hpages
      · rw [hcount]
        exact h.takes hpages

/-- What `efi_main` has loaded is in pages that were allocated for it. -/
theorem Reliable.givenAway_loadKernel (h : Reliable fw taken)
    (hrun : loadKernel fw.toBootServices kernelMagic t = .ok content t') :
    content.GivenAway taken t t' := by
  rw [loadKernel, bind_eq_ok] at hrun
  obtain ⟨kernelFile, u, hinfo, hrun⟩ := hrun
  have hsub := h.pages.grows_readKernelInfo _ _ _ hinfo
  obtain ⟨_ | bytes, _ | lbaStart⟩ := kernelFile
  · exact (throw_eq_ok.mp hrun).elim
  · exact (throw_eq_ok.mp hrun).elim
  · exact (throw_eq_ok.mp hrun).elim
  · change readDiskLbasFromCurrentGlobalImage _ _ lbaStart bytes u = _ at hrun
    simp only [readDiskLbasFromCurrentGlobalImage, bind_eq_ok, orExit_eq_ok] at hrun
    obtain ⟨device, _, ⟨-, rfl⟩, imageBiop, _, ⟨-, rfl⟩, handles, _, ⟨hhandles, rfl⟩, found, u',
      hread, hrun⟩ := hrun
    cases found with
    | some content' =>
      obtain ⟨rfl, rfl⟩ := pure_eq_ok.mp hrun
      exact (h.pages.givenAway_readHandles (h.fills handles hhandles) hread).mono hsub
    | none => exact (throw_eq_ok.mp hrun).elim

end Steps

/-! ## The mapping of the kernel -/

/-- A call of `mapVirtualRegion` for pages of `UEFI_PAGE_SIZE`. -/
def basePages (virt : U64) (memory : PagedMemory) : MapCall := ⟨virt, memory, .basePage, 0⟩

/-- The pages of a descriptor, where they are. -/
def identityPages (d : MemoryDescriptor) : MapCall :=
  basePages d.physicalStart ⟨d.physicalStart, d.numberOfPages⟩

/-- The pages of the kernel, where it was linked to. -/
def kernelPages (content : KernelContent) : MapCall :=
  basePages kernelCodeStart ⟨content.buf, content.pages⟩

/-- The pages of the frame buffer, where they are. -/
def frameBufferPages (mode : GraphicsOutputMode) : MapCall :=
  basePages mode.frameBufferBase
    ⟨mode.frameBufferBase, ceilingDivValue mode.frameBufferSize UEFIPageSize⟩

/-- Pages that were cleared. -/
def zeroedPages (virt size page : U64) : MapCall :=
  basePages virt ⟨page, ceilingDivValue size UEFIPageSize⟩

section Calls

variable {virt : U64} {memory : PagedMemory} {d : MemoryDescriptor} {mode : GraphicsOutputMode}
  {content : KernelContent}

theorem basePages_valid_of_low (haligned : pageFrameSize ∣ virt.toNat)
    (hlow : (basePages virt memory).span.stop ≤ 2 ^ 47) : (basePages virt memory).Valid := by
  refine ⟨haligned, hlow.trans_lt (by norm_num), fun a ha => .inl ?_⟩
  exact ha.2.trans_le hlow

theorem basePages_valid_of_high (haligned : pageFrameSize ∣ virt.toNat)
    (hhigh : kernelCodeStart.toNat ≤ virt.toNat)
    (hfits : (basePages virt memory).span.stop < 2 ^ 64) : (basePages virt memory).Valid := by
  refine ⟨haligned, hfits, fun a ha => .inr ?_⟩
  exact le_trans (by decide) (hhigh.trans ha.1)

/-- The kernel lies below its stack. -/
theorem kernelPages_stop_le
    (h : content.data.length ≤ (bottomStack - kernelCodeStart).toNat) :
    content.data.length ≤ content.pages.toNat * pageFrameSize ∧
      (kernelPages content).span.stop ≤ bottomStack.toNat := by
  have hroom : (bottomStack - kernelCodeStart).toNat = 0x7ffa000 := by decide
  have hstart : kernelCodeStart.toNat = 0xfffffffff8000000 := by decide
  have hstack : bottomStack.toNat = 0xffffffffffffa000 := by decide
  have hlength : (BitVec.ofNat 64 content.data.length).toNat = content.data.length :=
    Nat.mod_eq_of_lt (by omega)
  have hpages := toNat_ceilingDivValue (x := BitVec.ofNat 64 content.data.length)
    (show IsTwoPow UEFIPageSize 12 by decide) (by
      rw [hlength]
      omega)
  rw [hlength] at hpages
  have hstop : (kernelPages content).span.stop =
      kernelCodeStart.toNat + content.pages.toNat * 4096 := rfl
  rw [hstop, KernelContent.pages, hpages, pageFrameSize]
  omega

end Calls

section Mapping

variable {σ : Type} {fw : Firmware σ} {boot : BootServices σ} {taken : σ → Set U64}
  {calls : List MapCall} {kept : Set U64} {s s' : Paging σ} {u : Unit} {cpu : CPUFeatures}
  {virt numPages page : U64} {memory : PagedMemory}

theorem mapPagesAt_eq_ok : mapPagesAt boot virt memory s = .ok u s' ↔
    (basePages virt memory).run boot.allocate4KiBPage s = .ok u s' := onPages_eq_ok

/-- The loop over the descriptors maps all their pages. -/
theorem Placed.mapDescriptors (hboot : HandsOutPages boot taken)
    {descriptors : List MemoryDescriptor} (hvalid : ∀ d ∈ descriptors, (identityPages d).Valid)
    (hdisjoint : descriptors.Pairwise fun d d' => (descriptorSpan d).Disjoint (descriptorSpan d'))
    (h : Placed taken calls kept s)
    (hapart : ∀ c ∈ calls, ∀ d ∈ descriptors, c.span.Disjoint (descriptorSpan d))
    (hrun : mapDescriptors boot descriptors s = .ok u s') :
    Placed taken (calls ++ descriptors.map identityPages) kept s' ∧
      SameIn kept s.words s'.words := by
  induction descriptors generalizing calls s with
  | nil =>
    obtain ⟨-, rfl⟩ := pure_eq_ok.mp hrun
    rw [List.map_nil, List.append_nil]
    exact ⟨h, .refl⟩
  | cons d descriptors ih =>
    rw [OsLoader.mapDescriptors, bind_eq_ok] at hrun
    obtain ⟨_, s₁, hmap, hrest⟩ := hrun
    rw [List.forall_mem_cons] at hvalid
    rw [List.pairwise_cons] at hdisjoint
    obtain ⟨h₁, hsame₁⟩ := h.run hboot hvalid.1
      (fun c hc => hapart c hc d (List.mem_cons_self ..)) (mapPagesAt_eq_ok.mp hmap)
    obtain ⟨h', hsame'⟩ := ih hvalid.2 hdisjoint.2 h₁ (fun c hc d' hd' => by
      rcases List.mem_append.mp hc with hc | hc
      · exact hapart c hc d' (List.mem_cons_of_mem _ hd')
      · obtain rfl := List.mem_singleton.mp hc
        exact hdisjoint.1 d' hd') hrest
    rw [List.append_assoc, List.singleton_append] at h'
    exact ⟨h', hsame₁.trans hsame'⟩

/-- Cleared pages are kept. -/
theorem Placed.allocAndZero (h : Placed taken calls kept s) (hboot : HandsOutPages boot taken)
    (hrun : onPages (allocAndZero boot numPages) s = .ok page s') :
    Placed taken calls (kept ∪ framesOf page numPages.toNat) s' ∧ SameIn kept s.words s'.words ∧
      ∀ a : U64, a.toNat ∈ Span.mk page.toNat (numPages.toNat * pageFrameSize) →
        s'.words a = 0 := by
  obtain ⟨t, hpages, rfl⟩ := allocAndZero_eq_ok.mp (onPages_eq_ok.mp hrun)
  have haside (a : U64) (ha : ∀ x ∈ framesOf page numPages.toNat, a.toNat ∉ Span.mk x.toNat
      pageFrameSize) : clearPages page numPages s.words a = s.words a := by
    refine if_neg fun hin => ?_
    obtain ⟨x, hx, hmem⟩ := exists_mem_framesOf (hboot.aligned hpages) (Span.mem_mk.mpr hin)
    exact ha x hx hmem
  obtain ⟨hplaced, hsame⟩ := h.keep (fun x hx => hx.1) (hboot.untaken hpages) (hboot.takes hpages)
    haside
  exact ⟨hplaced, hsame, fun a ha => if_pos ha⟩

/-- Pages that were cleared are mapped, and stay cleared. -/
theorem Placed.placeZeroed {size : U64} (h : Placed taken calls kept s)
    (hboot : HandsOutPages boot taken) (hvalid : ∀ page, (zeroedPages virt size page).Valid)
    (hapart : ∀ page, ∀ c ∈ calls, c.span.Disjoint (zeroedPages virt size page).span)
    (hrun : placeZeroed boot virt size s = .ok page s') :
    Placed taken (calls ++ [zeroedPages virt size page])
        (kept ∪ framesOf page (ceilingDivValue size UEFIPageSize).toNat) s' ∧
      SameIn kept s.words s'.words ∧
      (∃ t t', boot.allocatePages (ceilingDivValue size UEFIPageSize) t = some (page, t')) ∧
      ∀ a : U64, a.toNat ∈ Span.mk page.toNat ((ceilingDivValue size UEFIPageSize).toNat *
        pageFrameSize) → s'.words a = 0 := by
  simp only [OsLoader.placeZeroed, bind_eq_ok, pure_eq_ok] at hrun
  obtain ⟨_, s₁, halloc, _, _, hmap, rfl, rfl⟩ := hrun
  obtain ⟨h₁, hsame₁, hzero⟩ := h.allocAndZero hboot halloc
  obtain ⟨h₂, hsame₂⟩ := h₁.run hboot (hvalid _) (hapart _) (mapPagesAt_eq_ok.mp hmap)
  obtain ⟨t, hpages, -⟩ := allocAndZero_eq_ok.mp (onPages_eq_ok.mp halloc)
  refine ⟨h₂, hsame₁.trans (hsame₂.mono Set.subset_union_left), ⟨_, t, hpages⟩, fun a ha => ?_⟩
  obtain ⟨x, hx, hmem⟩ := exists_mem_framesOf (hboot.aligned hpages) ha
  rw [hsame₂ x (.inr hx) a hmem, hzero a ha]

/-- The loader begins with an empty tree. -/
theorem HandsOutPages.initArchitecture (hboot : HandsOutPages boot taken)
    (hrun : initArchitecture boot cpu s = .ok u s') : Placed taken [] ∅ s' := by
  rw [OsLoader.initArchitecture, bind_eq_ok] at hrun
  obtain ⟨root, s₁, halloc, hrun⟩ := hrun
  obtain ⟨t, hpages, rfl⟩ := allocAndZero_eq_ok.mp (onPages_eq_ok.mp halloc)
  rw [modify_bind, onServices_eq_ok] at hrun
  obtain ⟨t', hchecks, rfl⟩ := hrun
  have hgrows : taken t ⊆ taken t' := by
    refine ((grows_needs _ _).bind fun _ => (grows_needs _ _).bind fun _ =>
      (grows_needs _ _).bind fun _ => (grows_needs _ _).bind fun _ =>
      (grows_needs _ _).bind fun _ => (grows_needs _ _).bind fun _ =>
      (hboot.grows_allocate _ _).bind fun _ => grows_pure _) t _ t' hchecks
  have haligned := hboot.aligned hpages
  have hmem : root ∈ framesOf root (1 : U64).toNat := ⟨haligned, by simp [pageFrameSize]⟩
  have hzero (i : BitVec 9) :
      clearPages root 1 s.words (entryAddress root (i.setWidth 64)) = 0 := by
    have hin := (entryAddress_mem_frame (j := i) haligned haligned).mpr rfl
    refine if_pos ⟨hin.1, ?_⟩
    rw [show (1 : U64).toNat * pageFrameSize = pageFrameSize by rfl]
    exact hin.2
  refine ⟨⟨emptyRadix root, .of_zero haligned hzero, emptyRadix_pruned root, ?_, ?_, ?_⟩, ?_,
    ?_, ?_,
    hboot.ne_zero hpages⟩
  · rw [tables_emptyRadix, Set.singleton_subset_iff]
    exact hgrows (hboot.takes hpages (.inl hmem))
  · exact Set.disjoint_empty _
  · intro p e
    simp [emptyRadix, Leaves]
  · exact Set.empty_subset _
  · exact fun x hx => absurd hx (Set.notMem_empty x)
  · exact fun c hc => absurd hc List.not_mem_nil

/-- The kernel is stored in frames that are kept. -/
theorem Placed.storeContent {content : KernelContent} {t' : σ} (h : Placed taken calls kept s)
    (hcontent : content.GivenAway taken s.allocator t')
    (hlength : content.data.length ≤ content.pages.toNat * pageFrameSize) :
    Placed taken calls (kept ∪ framesOf content.buf content.pages.toNat)
      { s with words := storeContent content s.words, allocator := t' } :=
  (h.keep (fun x hx => hx.1) hcontent.untaken hcontent.takes fun a ha => if_neg fun hin => by
    obtain ⟨x, hx, hmem⟩ := @exists_mem_framesOf _ a content.pages.toNat hcontent.aligned
      (Span.mem_mk.mpr ⟨hin.1, by omega⟩)
    exact ha x hx hmem).1

end Mapping

/-! ## The entry -/

section Access

variable {σ : Type} (s : Paging σ) (virt : U64)

/-- Where the processor finds an address: in the frame of its page. -/
def physicalAddress : U64 :=
  let page := getMappedPage s.words s.level4PageTable virt
  getPhysicalAddressFrame page.entry + ringRangeValue virt page.pageSize

/-- A load of a word. -/
def load : U64 := s.words (physicalAddress s virt)

end Access

/-- The word that begins so many bytes behind the start of data. -/
def wordAt (data : List U8) (n : Nat) : U64 :=
  BitVec.ofNat 64 (ofLittleEndian ((data.drop n).take 8))

/-- The kernel, its parameters and its stack are where they should be, and the memory that the
loader was told of is where it was, among it the stack that the loader itself goes on with. -/
structure Entered {σ : Type} (s : Paging σ) (jump : Jump) (mode : GraphicsOutputMode)
    (descriptors : List MemoryDescriptor) : Prop where
  code : ∀ a : U64, 8 ∣ a.toNat → a.toNat + 8 ≤ jump.kernelContent.data.length →
    load s (kernelCodeStart + a) = wordAt jump.kernelContent.data a.toNat
  params : ∀ a : U64, a.toNat < kernelParamsSize.toNat →
    physicalAddress s (kernelParamsStart + a) = jump.kernelParams + a
  stack : ∀ a : U64, a.toNat < stackSize.toNat →
    physicalAddress s (bottomStack + a) = jump.stackEnd + a ∧ load s (bottomStack + a) = 0
  identity : ∀ d ∈ descriptors, ∀ a : U64, a.toNat ∈ descriptorSpan d → physicalAddress s a = a
  frameBuffer : ∀ a : U64, a.toNat ∈ mode.span → physicalAddress s a = a
  stackPointer : ∀ a : U64, jump.stackEnd.toNat ≤ a.toNat → a.toNat < jump.stackPointer.toNat →
    physicalAddress s a = a

/-- The memory that is found where it was may be described in other parts. -/
theorem Entered.described {σ : Type} {s : Paging σ} {jump : Jump} {mode : GraphicsOutputMode}
    {descriptors others : List MemoryDescriptor} (h : Entered s jump mode descriptors)
    (hothers : ∀ d ∈ others, ∀ n ∈ descriptorSpan d, ∃ d' ∈ descriptors, n ∈ descriptorSpan d') :
    Entered s jump mode others := by
  refine { h with identity := fun d hd a ha => ?_ }
  obtain ⟨d', hd', ha'⟩ := hothers d hd _ ha
  exact h.identity d' hd' a ha'

section Entry

variable {σ : Type} {fw : Firmware σ} {taken : σ → Set U64} {calls : List MapCall} {kept : Set U64}
  {s s' : Paging σ} {cpu : CPUFeatures} {kernelMagic : List U8} {virt a : U64}
  {memory : PagedMemory} {jump : Jump} {mode : GraphicsOutputMode}
  {descriptors : List MemoryDescriptor}

/-- An address of mapped pages is found as far behind their first frame. -/
theorem Placed.physicalAddress_eq (h : Placed taken calls kept s)
    (hc : basePages virt memory ∈ calls)
    (haligned : pageFrameSize ∣ memory.pageStart.toNat)
    (hlow : memory.pageStart.toNat + memory.numberOfPages.toNat * pageFrameSize ≤ 2 ^ 48)
    (ha : a.toNat < memory.numberOfPages.toNat * pageFrameSize) :
    physicalAddress s (virt + a) = memory.pageStart + a := by
  obtain ⟨r, hdirectory, -, -, -, hleaves⟩ := h.tree
  have hvalid := h.valid _ hc
  have hfits : virt.toNat + memory.numberOfPages.toNat * pageFrameSize < 2 ^ 64 := hvalid.fits
  have hvirt : pageFrameSize ∣ virt.toNat := hvalid.aligned
  have hsum : (virt + a).toNat = virt.toNat + a.toNat := by
    rw [BitVec.toNat_add, Nat.mod_eq_of_lt (by omega)]
  have hsum' : (memory.pageStart + a).toNat = memory.pageStart.toNat + a.toNat := by
    rw [BitVec.toNat_add, Nat.mod_eq_of_lt (by omega)]
  rw [pageFrameSize] at *
  have hk : a.toNat / 4096 < (basePages virt memory).pages := by
    rw [Nat.div_lt_iff_lt_mul (by norm_num)]
    exact ha
  have hv : (virt + a).toNat ∈ (basePages virt memory).pageSpan (a.toNat / 4096) := by
    change virt.toNat + a.toNat / 4096 * 4096 ≤ _ ∧ _ < virt.toNat + a.toNat / 4096 * 4096 + 4096
    omega
  have hpath := hvalid.path_eq hk hv
  have hpage : getMappedPage s.words s.level4PageTable (virt + a) =
      ⟨(basePages virt memory).entry (a.toNat / 4096), PageSize.basePage.value⟩ :=
    hdirectory.getMappedPage_eq ((hleaves _ _).mpr ⟨_, hc, _, Nat.zero_le _, hk, hpath, rfl⟩)
  have hphysical : ((basePages virt memory).physical (a.toNat / 4096)).toNat =
      memory.pageStart.toNat + a.toNat / 4096 * 4096 := by
    rw [MapCall.physical, BitVec.toNat_add, BitVec.toNat_mul, PageSize.toNat_value,
      BitVec.toNat_ofNat]
    change (memory.pageStart.toNat + a.toNat / 4096 % 2 ^ 64 * 4096 % 2 ^ 64) % 2 ^ 64 = _
    omega
  have hframe : getPhysicalAddressFrame ((basePages virt memory).entry (a.toNat / 4096)) =
      (basePages virt memory).physical (a.toNat / 4096) := by
    have hflags : IsFlags (basePages virt memory).additionalFlags := show IsFlags 0 by decide
    rw [← MapCall.pageEntry_eq, getPhysicalAddressFrame_pageEntry hflags]
    refine (getPhysicalAddressFrame_eq_iff ?_).mpr ?_
    · rw [hphysical, pageFrameSize]
      exact Nat.dvd_add haligned (Nat.dvd_mul_left _ _)
    · rw [hphysical]
      omega
  have hring : (ringRangeValue (virt + a) PageSize.basePage.value).toNat = a.toNat % 4096 := by
    rw [toNat_ringRangeValue PageSize.basePage.isTwoPow_value, PageSize.toNat_value, hsum]
    change (virt.toNat + a.toNat) % 4096 = _
    omega
  apply BitVec.eq_of_toNat_eq
  rw [physicalAddress, hpage, hframe, BitVec.toNat_add, hphysical, hring, hsum']
  omega

/-- Memory that is mapped to itself. -/
theorem Placed.physicalAddress_self (h : Placed taken calls kept s) {pages : U64}
    (hc : basePages virt ⟨virt, pages⟩ ∈ calls)
    (hlow : virt.toNat + pages.toNat * pageFrameSize ≤ 2 ^ 47)
    (ha : a.toNat ∈ Span.mk virt.toNat (pages.toNat * pageFrameSize)) :
    physicalAddress s a = a := by
  rw [Span.mem_mk] at ha
  have hsub : (a - virt).toNat = a.toNat - virt.toNat := by
    rw [BitVec.toNat_sub_of_le (BitVec.le_def.mpr ha.1)]
  have heq := h.physicalAddress_eq (a := a - virt) hc (h.valid _ hc).aligned
    (hlow.trans (by norm_num)) (by
      rw [hsub]
      change a.toNat - virt.toNat < pages.toNat * pageFrameSize
      omega)
  have hback : virt + (a - virt) = a := by
    rw [BitVec.add_comm, BitVec.sub_add_cancel]
  dsimp only at heq
  rwa [hback] at heq

/-- The kernel is mapped, and is in frames that are kept. -/
theorem Reliable.placeKernel {content : KernelContent} (h : Reliable fw taken)
    (hs : Placed taken [] ∅ s)
    (hrun : placeKernel fw.toBootServices kernelMagic s = .ok content s')
    (hfits : content.data.length ≤ (bottomStack - kernelCodeStart).toNat) :
    Placed taken [kernelPages content] (framesOf content.buf content.pages.toNat) s' ∧
      pageFrameSize ∣ content.buf.toNat ∧
      content.buf.toNat + content.pages.toNat * pageFrameSize ≤ 2 ^ 47 ∧
      ∀ a : U64, content.buf.toNat ≤ a.toNat → a.toNat < content.buf.toNat + content.data.length →
        s'.words a = wordAt content.data (a.toNat - content.buf.toNat) := by
  simp only [OsLoader.placeKernel, bind_eq_ok, onServices_eq_ok, modify_eq_ok, pure_eq_ok] at hrun
  obtain ⟨loaded, _, ⟨t, hload, rfl⟩, _, _, rfl, _, _, hmap, rfl, rfl⟩ := hrun
  have hcontent := h.givenAway_loadKernel hload
  obtain ⟨hlength, hstop⟩ := kernelPages_stop_le hfits
  have hstored := hs.storeContent hcontent hlength
  rw [Set.empty_union] at hstored
  obtain ⟨hplaced, hsame⟩ := hstored.run h.pages (c := kernelPages _)
    (basePages_valid_of_high (by decide) le_rfl (hstop.trans_lt (by decide))) (by simp)
    (mapPagesAt_eq_ok.mp hmap)
  refine ⟨hplaced, hcontent.aligned, hcontent.low, fun a hge hlt => ?_⟩
  obtain ⟨x, hx, hmem⟩ := @exists_mem_framesOf _ a loaded.pages.toNat hcontent.aligned
    (Span.mem_mk.mpr ⟨hge, by omega⟩)
  rw [hsame x hx a hmem]
  dsimp only
  rw [OsLoader.storeContent, if_pos ⟨hge, hlt⟩, wordAt]

/-- All memory and the frame buffer are mapped to themselves. -/
theorem Reliable.mapMemory (h : Reliable fw taken) (hs : Placed taken calls kept s)
    (hcalls : ∀ c ∈ calls, 2 ^ 47 ≤ c.span.start) (hrun : mapMemory fw s = .ok mode s') :
    fw.graphicsOutput = some mode ∧ ∃ descriptors,
      (∃ size t memoryMapSize mapKey descriptorSize, (fw.getMemoryMap size t).1 =
        .success memoryMapSize mapKey descriptorSize descriptors) ∧
      Placed taken (calls ++ (descriptors.map identityPages ++ [frameBufferPages mode])) kept s' ∧
      SameIn kept s.words s'.words := by
  simp only [OsLoader.mapMemory, bind_eq_ok, onServices_eq_ok, orExit_eq_ok, pure_eq_ok] at hrun
  obtain ⟨_, _, ⟨_, ⟨hmode, rfl⟩, rfl⟩, memoryInfo, _, ⟨t, hmap, rfl⟩, _, s₁, hdescriptors, _, s₂,
    hframeBuffer, rfl, rfl⟩ := hrun
  obtain ⟨size, u, hanswer, -⟩ := getMemoryInfo_answer hmap
  have hdescribes := h.describes _ hmode _ _ _ _ _ _ hanswer
  have hapart {x : Span} (hx : x.stop ≤ 2 ^ 47) : ∀ c ∈ calls, c.span.Disjoint x := fun c hc =>
    (Span.disjoint_of_stop_le (hx.trans (hcalls c hc))).symm
  obtain ⟨h₁, hsame₁⟩ := (hs.services (h.grows_getMemoryInfo _ _ _ hmap)).mapDescriptors h.pages
    (fun d hd => basePages_valid_of_low (hdescribes.aligned d hd) (hdescribes.low d hd))
    hdescribes.disjoint (fun c hc d hd => hapart (hdescribes.low d hd) c hc) hdescriptors
  obtain ⟨h₂, hsame₂⟩ := h₁.run h.pages (c := frameBufferPages _)
    (basePages_valid_of_low hdescribes.frameBuffer_aligned hdescribes.frameBuffer_low)
    (fun c hc => by
      rcases List.mem_append.mp hc with hc | hc
      · exact hapart hdescribes.frameBuffer_low c hc
      · obtain ⟨d, hd, rfl⟩ := List.mem_map.mp hc
        exact hdescribes.frameBuffer_disjoint d hd) (mapPagesAt_eq_ok.mp hframeBuffer)
  rw [List.append_assoc] at h₂
  exact ⟨hmode, memoryInfo.descriptors, ⟨size, u, _, _, _, hanswer⟩, h₂, hsame₁.trans hsame₂⟩

/-- The parameters and the stack are whole pages. -/
theorem bytes_zeroedPages :
    (ceilingDivValue stackSize UEFIPageSize).toNat * pageFrameSize = stackSize.toNat ∧
      (ceilingDivValue kernelParamsSize UEFIPageSize).toNat * pageFrameSize =
        kernelParamsSize.toNat := by
  have hpage : IsTwoPow UEFIPageSize 12 := by decide
  rw [toNat_ceilingDivValue hpage (by decide), toNat_ceilingDivValue hpage (by decide)]
  exact ⟨by decide, by decide⟩

/-- The pages of the parameters and of the stack lie above the kernel, apart from each other. -/
theorem zeroedPages_spans (page page' : U64) :
    (zeroedPages bottomStack stackSize page).span = ⟨bottomStack.toNat, stackSize.toNat⟩ ∧
      (zeroedPages kernelParamsStart kernelParamsSize page').span =
        ⟨kernelParamsStart.toNat, kernelParamsSize.toNat⟩ ∧
      bottomStack.toNat + stackSize.toNat = kernelParamsStart.toNat ∧
      kernelParamsStart.toNat + kernelParamsSize.toNat = kernelSpaceEnd.toNat := by
  have hspan (virt size page : U64) : (zeroedPages virt size page).span =
      ⟨virt.toNat, (ceilingDivValue size UEFIPageSize).toNat * pageFrameSize⟩ := rfl
  rw [hspan, hspan, bytes_zeroedPages.1, bytes_zeroedPages.2]
  exact ⟨rfl, rfl, by decide, by decide⟩

/-- Both are whole pages of the upper half. -/
theorem zeroedPages_valid (page page' : U64) :
    (zeroedPages bottomStack stackSize page).Valid ∧
      (zeroedPages kernelParamsStart kernelParamsSize page').Valid := by
  obtain ⟨hstack, hparams, hbetween, hend⟩ := zeroedPages_spans page page'
  constructor
  · refine basePages_valid_of_high (by decide) (by decide) ?_
    have hspan : (basePages bottomStack ⟨page, ceilingDivValue stackSize UEFIPageSize⟩).span =
      _ := hstack
    rw [hspan]
    exact (show bottomStack.toNat + stackSize.toNat < 2 ^ 64 by decide)
  · refine basePages_valid_of_high (by decide) (by decide) ?_
    have hspan : (basePages kernelParamsStart
      ⟨page', ceilingDivValue kernelParamsSize UEFIPageSize⟩).span = _ := hparams
    rw [hspan]
    exact (show kernelParamsStart.toNat + kernelParamsSize.toNat < 2 ^ 64 by decide)

/-- The kernel is read where its pages were mapped. -/
theorem Placed.load_kernel {content : KernelContent} {words : U64 → U64}
    (h : Placed taken calls kept s) (hc : kernelPages content ∈ calls)
    (haligned : pageFrameSize ∣ content.buf.toNat)
    (hlow : content.buf.toNat + content.pages.toNat * pageFrameSize ≤ 2 ^ 47)
    (hlength : content.data.length ≤ content.pages.toNat * pageFrameSize)
    (hwords : ∀ a : U64, content.buf.toNat ≤ a.toNat →
      a.toNat < content.buf.toNat + content.data.length →
        words a = wordAt content.data (a.toNat - content.buf.toNat))
    (hsame : SameIn (framesOf content.buf content.pages.toNat) words s.words)
    (ha : a.toNat < content.data.length) :
    load s (kernelCodeStart + a) = wordAt content.data a.toNat := by
  have hsum : (content.buf + a).toNat = content.buf.toNat + a.toNat := by
    rw [BitVec.toNat_add, Nat.mod_eq_of_lt (by omega)]
  have haddress : physicalAddress s (kernelCodeStart + a) = content.buf + a :=
    h.physicalAddress_eq hc haligned (hlow.trans (by norm_num)) (ha.trans_le hlength)
  obtain ⟨x, hx, hmem⟩ := @exists_mem_framesOf _ (content.buf + a) content.pages.toNat haligned
    (Span.mem_mk.mpr ⟨by omega, by omega⟩)
  rw [load, haddress, hsame x hx _ hmem, hwords _ (by omega) (by omega), hsum,
    Nat.add_sub_cancel_left]

/-- So is the stack, which was cleared. -/
theorem Placed.load_stack {page : U64} (h : Placed taken calls kept s)
    (hc : zeroedPages bottomStack stackSize page ∈ calls) (haligned : pageFrameSize ∣ page.toNat)
    (hlow : page.toNat + stackSize.toNat ≤ 2 ^ 47)
    (hzero : ∀ a : U64, a.toNat ∈ Span.mk page.toNat stackSize.toNat → s.words a = 0)
    (ha : a.toNat < stackSize.toNat) :
    physicalAddress s (bottomStack + a) = page + a ∧ load s (bottomStack + a) = 0 := by
  have hbytes := bytes_zeroedPages.1
  have haddress : physicalAddress s (bottomStack + a) = page + a :=
    h.physicalAddress_eq hc haligned ((congrArg (page.toNat + ·) hbytes).trans_le
      (hlow.trans (by norm_num))) (ha.trans_eq hbytes.symm)
  have hsum : (page + a).toNat = page.toNat + a.toNat := by
    rw [BitVec.toNat_add, Nat.mod_eq_of_lt (by omega)]
  refine ⟨haddress, ?_⟩
  rw [load, haddress]
  exact hzero _ (Span.mem_mk.mpr ⟨by omega, by omega⟩)

section Below

variable {content : KernelContent}

/-- What is mapped before the parameters lies below the stack. -/
theorem mappedPages_below (hstop : (kernelPages content).span.stop ≤ bottomStack.toNat)
    (hdescribes : Describes mode descriptors) :
    ∀ c ∈ [kernelPages content] ++ (descriptors.map identityPages ++ [frameBufferPages mode]),
      c.span.stop ≤ bottomStack.toNat := by
  have hhalf : 2 ^ 47 ≤ bottomStack.toNat := by decide
  rw [List.forall_mem_append, List.forall_mem_append, List.forall_mem_map,
    List.forall_mem_singleton, List.forall_mem_singleton]
  exact ⟨hstop, fun d hd => (hdescribes.low d hd).trans hhalf,
    hdescribes.frameBuffer_low.trans hhalf⟩

/-- So it does not overlap the parameters. -/
theorem paramsPages_disjoint (hbelow : ∀ c ∈ calls, c.span.stop ≤ bottomStack.toNat) (page : U64) :
    ∀ c ∈ calls, c.span.Disjoint (zeroedPages kernelParamsStart kernelParamsSize page).span :=
  fun c hc => Span.disjoint_of_stop_le ((hbelow c hc).trans
    (show bottomStack.toNat ≤ kernelParamsStart.toNat by decide))

/-- Neither of them overlaps the stack. -/
theorem stackPages_disjoint (hbelow : ∀ c ∈ calls, c.span.stop ≤ bottomStack.toNat)
    (kernelParams page : U64) :
    ∀ c ∈ calls ++ [zeroedPages kernelParamsStart kernelParamsSize kernelParams],
      c.span.Disjoint (zeroedPages bottomStack stackSize page).span := by
  obtain ⟨hstack, hparams, hbetween, -⟩ := zeroedPages_spans page kernelParams
  intro c hc
  rcases List.mem_append.mp hc with hc | hc
  · exact Span.disjoint_of_stop_le (hbelow c hc)
  · obtain rfl := List.mem_singleton.mp hc
    rw [hstack, hparams]
    exact Span.Disjoint.symm (Span.disjoint_of_stop_le (show Span.stop ⟨_, _⟩ ≤ _ from
      hbetween.le))

end Below

/-- Wherever `efi_main` jumps, the kernel finds what it expects. -/
theorem Reliable.entered_efiMain (h : Reliable fw taken)
    (hrun : efiMain fw cpu kernelMagic s = .ok jump s')
    (hfits : jump.kernelContent.data.length ≤ (bottomStack - kernelCodeStart).toNat) :
    ∃ mode descriptors, fw.graphicsOutput = some mode ∧
      (∃ size t memoryMapSize mapKey descriptorSize, (fw.getMemoryMap size t).1 =
        .success memoryMapSize mapKey descriptorSize descriptors) ∧
      Entered s' jump mode descriptors := by
  simp only [efiMain, bind_eq_ok] at hrun
  obtain ⟨_, s₁, hinit, content, s₂, hkernel, mode, s₃, hmemory, kernelParams, s₄, hparams,
    stackEnd, s₅, hstack, hrun⟩ := hrun
  split at hrun
  · obtain ⟨_, _, hthrow, -⟩ := bind_eq_ok.mp hrun
    exact (throw_eq_ok.mp hthrow).elim
  simp only [bind_eq_ok, onServices_eq_ok, pure_eq_ok] at hrun
  obtain ⟨memory, _, ⟨t', -, rfl⟩, rfl, rfl⟩ := hrun
  dsimp only at hfits
  obtain ⟨hlength, hstop⟩ := kernelPages_stop_le hfits
  obtain ⟨h₂, haligned, hlow, hwords⟩ :=
    h.placeKernel (h.pages.initArchitecture hinit) hkernel hfits
  obtain ⟨hmode, descriptors, hanswer, h₃, hsame₃⟩ := h.mapMemory h₂ (fun c hc => by
    obtain rfl := List.mem_singleton.mp hc
    exact show 2 ^ 47 ≤ kernelCodeStart.toNat by decide) hmemory
  obtain ⟨size, t, memoryMapSize, mapKey, descriptorSize, hmap⟩ := hanswer
  have hdescribes := h.describes mode hmode _ _ _ _ _ _ hmap
  have hbelow := mappedPages_below hstop hdescribes
  obtain ⟨h₄, hsame₄, ⟨v, v', hparamsGiven⟩, -⟩ := h₃.placeZeroed h.pages
    (fun page => (zeroedPages_valid 0 page).2) (fun page => paramsPages_disjoint hbelow page)
    hparams
  obtain ⟨h₅, hsame₅, ⟨u, u', hpages⟩, hzero₅⟩ := h₄.placeZeroed h.pages
    (fun page => (zeroedPages_valid page 0).1)
    (fun page => stackPages_disjoint hbelow kernelParams page) hstack
  have hcontent : SameIn (framesOf content.buf content.pages.toNat) s₂.words s₅.words :=
    hsame₃.trans (hsame₄.trans (hsame₅.mono Set.subset_union_left))
  obtain ⟨hstackPages, hparamsPages⟩ := bytes_zeroedPages
  have hstackLow := h.pages.low hpages
  rw [hstackPages] at hstackLow hzero₅
  have hidentity : ∀ d ∈ descriptors, ∀ a : U64, a.toNat ∈ descriptorSpan d →
      physicalAddress s₅ a = a := by
    intro d hd a ha
    have hmem : identityPages d ∈ descriptors.map identityPages := List.mem_map_of_mem hd
    exact h₅.physicalAddress_self (List.mem_append_left _ (List.mem_append_left _
      (List.mem_append_right _ (List.mem_append_left _ hmem)))) (hdescribes.low d hd) ha
  refine ⟨mode, descriptors, hmode, ⟨_, _, _, _, _, hmap⟩, ?_, ?_, ?_, hidentity, ?_, ?_⟩
  · intro a hdvd ha
    have hlt : a.toNat < content.data.length := (Nat.lt_add_of_pos_right (by norm_num)).trans_le ha
    exact h₅.load_kernel (List.mem_append_left _ (List.mem_append_left _
      (List.mem_cons_self ..))) haligned hlow hlength hwords hcontent hlt
  · intro a ha
    exact h₅.physicalAddress_eq (List.mem_append_left _ (List.mem_append_right _
      (List.mem_singleton_self _))) (h.pages.aligned hparamsGiven)
        ((h.pages.low hparamsGiven).trans (by norm_num)) (ha.trans_eq hparamsPages.symm)
  · intro a ha
    exact h₅.load_stack (List.mem_append_right _ (List.mem_singleton_self _))
      (h.pages.aligned hpages) hstackLow hzero₅ ha
  · intro a ha
    exact h₅.physicalAddress_self (List.mem_append_left _ (List.mem_append_left _
      (List.mem_append_right _ (List.mem_append_right _ (List.mem_singleton_self _)))))
        hdescribes.frameBuffer_low ha
  · intro a hge hlt
    have hstackSize : stackSize.toNat = 0x4000 := by decide
    have hpointer : (stackEnd + stackSize).toNat = stackEnd.toNat + stackSize.toNat := by
      rw [BitVec.toNat_add, Nat.mod_eq_of_lt (by omega)]
    have hlt' : a.toNat < stackEnd.toNat + stackSize.toNat := hlt.trans_eq hpointer
    obtain ⟨d, hd, ha⟩ := h.describes_pages _ _ _ _ _ _ hmap _ _ _ _ hpages a.toNat
      (Span.mem_mk.mpr ⟨hge, by omega⟩)
    exact hidentity d hd a ha

end Entry

end Homegrown.OsLoader
