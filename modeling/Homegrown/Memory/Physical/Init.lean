import Homegrown.Memory.Physical.Ownership

/-!
# Setting up the managers

`initPhysicalMemoryManager` gives the memory of the firmware's memory map to the
base manager, whose first table is the first usable frame, and then moves runs of
512 aligned pages up to the next manager, twice. `initPMM` does so while it
iterates over the list it takes from and appends to. The loop of `initPMM` takes
the number of rounds it may make.
-/

namespace Homegrown.Memory

/-- `MemoryType`. A firmware may use other values than the enumerators. -/
inductive MemoryType where
  | reservedMemoryType
  | loaderCode
  | loaderData
  | bootServicesCode
  | bootServicesData
  | runtimeServicesCode
  | runtimeServicesData
  | conventionalMemory
  | unusableMemory
  | acpiReclaimMemory
  | acpiMemoryNvs
  | memoryMappedIo
  | memoryMappedIoPortSpace
  | palCode
  | persistentMemory
  | other (value : U32)
  deriving DecidableEq, Repr

/-- `MemoryDescriptor`, with the fields that are read. -/
structure MemoryDescriptor where
  type : MemoryType
  physicalStart : U64
  numberOfPages : U64
  deriving DecidableEq, Repr

/-- `canBeUsedByOS`. -/
def canBeUsedByOS : MemoryType → Bool
  | .loaderCode | .loaderData | .bootServicesCode | .bootServicesData | .conventionalMemory
  | .persistentMemory => true
  | _ => false

/-- The memory of a descriptor, as a region of the base manager. -/
def MemoryDescriptor.memory (d : MemoryDescriptor) : PagedMemory :=
  ⟨d.physicalStart, d.numberOfPages⟩

/-- `nextValidDescriptor`: the next usable descriptor, and the descriptors after it. -/
def nextValidDescriptor :
    List MemoryDescriptor → Option (MemoryDescriptor × List MemoryDescriptor)
  | [] => none
  | d :: ds => if canBeUsedByOS d.type then some (d, ds) else nextValidDescriptor ds

/-- `toSmallerPageSize`, for the page sizes that `initPMM` is called with. -/
def PageSize.smaller? : PageSize → Option PageSize
  | .basePage => none
  | .largePage => some .basePage
  | .hugePage => some .largePage

/-- The call of `decreasePages` in `initPMM`, with a note when the region does not start
at the boundary. -/
def decreasePromoted (pageType s : PageSize) (i : Nat) (decreaseBy start boundary : U64) :
    Kernel Unit := do
  decreasePages s i decreaseBy
  if boundary = start then return () else note (.unalignedPromotion pageType)

/-- The pages that are left over go back to the manager they came from. -/
def freeLeftover (depth : Nat) (page : PagedMemory) (s : PageSize) : Kernel Unit :=
  if 0 < page.numberOfPages then freePhysicalPage depth page s else return ()

/-- The body of the loop of `initPMM`, for the entry of the smaller manager `s` at the
index. -/
def promoteRegion (depth : Nat) (pageType s : PageSize) (i : Nat) (memory : PagedMemory) :
    Kernel Unit :=
  if 512 ≤ memory.numberOfPages then
    let applicablePageBoundary := alignUpValue memory.pageStart pageType.value
    let pagesMoved := (applicablePageBoundary - memory.pageStart) / s.value
    let pagesFromAlign := memory.numberOfPages - pagesMoved
    if 512 ≤ pagesFromAlign then do
      decreasePromoted pageType s i pagesFromAlign memory.pageStart applicablePageBoundary
      let alignedForNextLevelPages := alignDownValue pagesFromAlign 512
      freePhysicalPage depth ⟨applicablePageBoundary, toLargerPages alignedForNextLevelPages⟩
        pageType
      let leftoverPages := pagesFromAlign - alignedForNextLevelPages
      freeLeftover depth
        ⟨applicablePageBoundary + alignedForNextLevelPages * s.value, leftoverPages⟩ s
    else return ()
  else return ()

/-- The loop of `initPMM`, from an index on. -/
def promoteRegions (depth : Nat) (pageType s : PageSize) : Nat → Nat → Kernel Unit
  | 0, _ => throw .outOfFuel
  | rounds + 1, i => do
    let initedManager ← getMemoryManager s
    match initedManager.memory[i]? with
    | none => return ()
    | some memory =>
      promoteRegion depth pageType s i memory
      promoteRegions depth pageType s rounds (i + 1)

/-- The manager with its first table. -/
def PhysicalMemoryManager.install (p : PhysicalMemoryManager) (buf : U64) :
    PhysicalMemoryManager :=
  { p with buf := buf, cap := memoryEntriesInBasePages (p.usedBasePages.setWidth 64) }

/-- `initPMM`. -/
def initPMM (depth rounds : Nat) (pageType : PageSize) : Kernel Unit := do
  match pageType.smaller? with
  | none => throw .assertion
  | some s =>
    let initingManager ← getMemoryManager pageType
    assert (initingManager.usedBasePages = 1 ∧ initingManager.memory.length = 0)
    let buf ← allocContiguousPhysicalPagesWithManager depth
      (initingManager.usedBasePages.setWidth 64) .basePage
    updateManager pageType fun p => p.install buf
    promoteRegions depth pageType s rounds 0

/-- The loop of `initPhysicalMemoryManager` over the descriptors that are left. It fills
`freeMemoryArray`, and frees what is in it whenever it is full. -/
def collectFreeMemory (depth : Nat) (maxCapacity : U64) :
    List MemoryDescriptor → List PagedMemory → Kernel (List PagedMemory)
  | [], freeMemoryArray => return freeMemoryArray
  | d :: ds, freeMemoryArray =>
    -- `nextValidDescriptor` skips what the kernel cannot use.
    if canBeUsedByOS d.type then
      if maxCapacity.toNat ≤ freeMemoryArray.length then do
        freePhysicalPages depth freeMemoryArray .basePage
        collectFreeMemory depth maxCapacity ds [d.memory]
      else
        collectFreeMemory depth maxCapacity ds (freeMemoryArray ++ [d.memory])
    else
      collectFreeMemory depth maxCapacity ds freeMemoryArray

/-- The part of `initPhysicalMemoryManager` after the descriptor has been chosen whose
memory holds `freeMemoryArray` meanwhile. -/
def initFromDescriptors (depth rounds : Nat) (descriptor : MemoryDescriptor)
    (descriptors : List MemoryDescriptor) : Kernel Unit := do
  let maxCapacity := memoryEntriesInBasePages descriptor.numberOfPages
  let freeMemoryHolder := descriptor.memory
  let freeMemoryArray ← collectFreeMemory depth maxCapacity descriptors []
  freePhysicalPages depth freeMemoryArray .basePage
  freePhysicalPage depth freeMemoryHolder .basePage
  initPMM depth rounds .largePage
  initPMM depth rounds .hugePage

/-- A manager as the reset leaves it. -/
def PhysicalMemoryManager.reset : PhysicalMemoryManager := ⟨0, [], 0, 1⟩

/-- The managers after the reset, and with the first table of the base manager. -/
def PhysicalMemory.bootstrap (m : PhysicalMemory) (buf : U64) : PhysicalMemory :=
  ⟨⟨buf, [], memoryEntriesInBasePages 1, 1⟩, .reset, .reset, m.journal⟩

/-- `initPhysicalMemoryManager`, for the descriptors of the memory map. -/
def initPhysicalMemoryManager (depth rounds : Nat) (descriptors : List MemoryDescriptor) :
    Kernel Unit := do
  modify fun m => ⟨.reset, .reset, .reset, m.journal⟩
  match nextValidDescriptor descriptors with
  | none => throw .noMorePhysicalMemory
  | some (descriptor, rest) =>
    modify fun m => m.bootstrap descriptor.physicalStart
    let descriptor := { descriptor with
      physicalStart := descriptor.physicalStart + 4096
      numberOfPages := descriptor.numberOfPages - 1 }
    if descriptor.numberOfPages = 0 then
      match nextValidDescriptor rest with
      | none => throw .noMorePhysicalMemory
      | some (descriptor, rest) => initFromDescriptors depth rounds descriptor rest
    else
      initFromDescriptors depth rounds descriptor rest

/-! ## The steps as moves -/

/-- What setting up the managers notes. -/
def initScope : Scope := ⟨2 ^ 32, fun _ => True, True⟩

section Conducts

variable {m : PhysicalMemory} {s larger : PageSize} {depth : Nat} {hand : List Holding}

/-- A region of 512 pages or more: where its first larger page starts, when it is not
at its start. -/
theorem promotion_boundary {memory : PagedMemory} {moved n : U64}
    (hl : s.larger? = some larger) (hn : 512 ≤ memory.numberOfPages.toNat)
    (hmoved : moved = (alignUpValue memory.pageStart larger.value - memory.pageStart) / s.value)
    (hrest : n = memory.numberOfPages - moved)
    (hne : alignUpValue memory.pageStart larger.value ≠ memory.pageStart)
    (ha : s.bytes ∣ memory.pageStart.toNat)
    (hb : memory.pageStart.toNat + memory.numberOfPages.toNat * s.bytes ≤ 2 ^ 64) :
    n.toNat < memory.numberOfPages.toNat ∧
      (alignUpValue memory.pageStart larger.value).toNat =
        memory.pageStart.toNat + (memory.numberOfPages.toNat - n.toNat) * s.bytes := by
  have hbytes := PageSize.larger?_bytes hl
  have hspos := s.bytes_pos
  have hlpos := larger.bytes_pos
  have hroom : 512 * s.bytes ≤ memory.numberOfPages.toNat * s.bytes := Nat.mul_le_mul_right _ hn
  have hup : (alignUpValue memory.pageStart larger.value).toNat =
      roundUp memory.pageStart.toNat larger.bytes := by
    rw [toNat_alignUpValue larger.isTwoPow_value, PageSize.toNat_value]
    change memory.pageStart.toNat + (larger.bytes - 1) < 2 ^ 64
    omega
  have hle := le_roundUp (x := memory.pageStart.toNat) hlpos
  have hlt := roundUp_lt (x := memory.pageStart.toNat) hlpos
  have hne' : roundUp memory.pageStart.toNat larger.bytes ≠ memory.pageStart.toNat := fun he =>
    hne (BitVec.eq_of_toNat_eq (hup.trans he))
  obtain ⟨k, hk⟩ : s.bytes ∣ roundUp memory.pageStart.toNat larger.bytes -
      memory.pageStart.toNat :=
    Nat.dvd_sub ((PageSize.bytes_dvd_larger hl).trans dvd_roundUp) ha
  have hmovedNat : moved.toNat = k := by
    rw [hmoved, BitVec.toNat_udiv, BitVec.toNat_sub_of_le (by rw [BitVec.le_def, hup]; exact hle),
      hup, hk, PageSize.toNat_value, Nat.mul_div_cancel_left _ hspos]
  have hkpos : 0 < k := by
    refine Nat.pos_of_ne_zero fun h0 => ?_
    rw [h0, Nat.mul_zero] at hk
    omega
  have hklt : k < 512 := by
    refine Nat.lt_of_mul_lt_mul_left (a := s.bytes) ?_
    rw [← hk, Nat.mul_comm s.bytes 512, ← hbytes]
    omega
  have hnNat : n.toNat = memory.numberOfPages.toNat - k := by
    rw [hrest, BitVec.toNat_sub_of_le (by rw [BitVec.le_def]; omega), hmovedNat]
  refine ⟨by omega, ?_⟩
  rw [hup, hnNat, Nat.sub_sub_self (by omega), Nat.mul_comm k, ← hk]
  omega

/-- Aligning up leads to a larger page. -/
theorem larger_bytes_dvd_alignUpValue (start : U64) :
    larger.bytes ∣ (alignUpValue start larger.value).toNat := by
  rw [alignUpValue, larger.isTwoPow_value.toNat_and_not]
  exact Nat.dvd_mul_left _ _

/-- Taking the pages to promote, with the note about an unaligned region. -/
theorem conducts_take_promoted {i : Nat} {memory : PagedMemory} {moved n : U64}
    (hl : s.larger? = some larger) (hi : (m.manager s).memory[i]? = some memory)
    (hn : 512 ≤ memory.numberOfPages)
    (hmoved : moved = (alignUpValue memory.pageStart larger.value - memory.pageStart) / s.value)
    (hrest : n = memory.numberOfPages - moved) (hpos : 512 ≤ n) :
    Conducts (Move initScope) (decreasePromoted larger s i n memory.pageStart
      (alignUpValue memory.pageStart larger.value)) m hand
      (fun _ => ⟨s, ⟨alignUpValue memory.pageStart larger.value, n⟩⟩ :: hand) := by
  unfold decreasePromoted
  by_cases hstart : alignUpValue memory.pageStart larger.value = memory.pageStart
  · simp only [hstart, if_true]
    exact (conducts_decreasePages hi).bind fun _ _ _ =>
      Conducts.pure fun _ : Unit => Holding.mk s ⟨memory.pageStart, n⟩ :: hand
  · simp only [hstart, if_false]
    intro rest
    cases hdec : decreasePages s i n m with
    | error e m' =>
      rw [bind_of_error hdec]
      have htake : Conducts (Move initScope) (decreasePages s i n) m hand
          (fun _ => ⟨s, ⟨memory.pageStart, n⟩⟩ :: hand) := conducts_decreasePages hi
      have hmoves := htake rest
      rw [hdec] at hmoves
      exact hmoves
    | ok u m' =>
      rw [bind_of_ok hdec]
      obtain ⟨region, hr, hle, rfl⟩ := decreasePages_eq_ok.mp hdec
      obtain rfl := Option.some.inj (hi.symm.trans hr)
      refine .single (Move.takeMisplaced s larger i memory n _ hl trivial hi hle ?_
        (larger_bytes_dvd_alignUpValue _) fun ha hb =>
          promotion_boundary hl hn hmoved hrest hstart ha hb)
      rw [BitVec.le_def] at hpos
      change 512 ≤ n.toNat at hpos
      omega

/-- The pages that are left over are listed, or there are none. -/
theorem conducts_freeLeftover {page : PagedMemory} :
    Conducts (Move initScope) (freeLeftover depth page s) m (⟨s, page⟩ :: hand)
      (fun _ => hand) := by
  unfold freeLeftover
  split
  · exact conducts_freePhysicalPagesWithManager le_rfl
      (conducts_allocContiguousPhysicalPages le_rfl) [page]
  · rename_i hzero
    obtain ⟨start, n⟩ := page
    obtain rfl : n = 0 := by
      apply BitVec.eq_of_toNat_eq
      rw [BitVec.lt_def] at hzero
      change ¬ 0 < n.toNat at hzero
      change n.toNat = 0
      omega
    exact (Conducts.pure fun _ => hand).before_move fun rest =>
      .single (Move.discard s start)

/-- The body of the loop of `initPMM`. -/
theorem conducts_promoteRegion {i : Nat} {memory : PagedMemory} (hl : s.larger? = some larger)
    (hi : (m.manager s).memory[i]? = some memory) :
    Conducts (Move initScope) (promoteRegion depth larger s i memory) m hand (fun _ => hand) := by
  unfold promoteRegion
  split
  · rename_i hn
    dsimp only
    split
    · rename_i hpos
      refine (conducts_take_promoted hl hi hn rfl rfl hpos).bind fun _ m₁ _ => ?_
      refine Conducts.before_move ?_ (Conducts.bind
        (conducts_freePhysicalPagesWithManager le_rfl
          (conducts_allocContiguousPhysicalPages le_rfl) [_])
        fun _ _ _ => conducts_freeLeftover)
      exact fun rest => .single (Move.promote s larger _ _ hl (larger_bytes_dvd_alignUpValue _))
    · exact Conducts.pure fun _ => hand
  · exact Conducts.pure fun _ => hand

/-- The loop of `initPMM`. -/
theorem conducts_promoteRegions (hl : s.larger? = some larger) (rounds : Nat) (i : Nat) :
    Conducts (Move initScope) (promoteRegions depth larger s rounds i) m hand (fun _ => hand) := by
  induction rounds generalizing i m with
  | zero => exact Conducts.throw
  | succ rounds ih =>
    refine conducts_getMemoryManager.bind fun p m' hp => ?_
    obtain ⟨rfl, rfl⟩ := getMemoryManager_eq_ok.mp hp
    cases hi : (m.manager s).memory[i]? with
    | none => exact Conducts.pure fun _ => hand
    | some memory => exact (conducts_promoteRegion hl hi).bind fun _ _ _ => ih (i + 1)

/-- The loop over the descriptors takes the memory of the usable ones in hand, and lists
some of it. -/
theorem conducts_collectFreeMemory {maxCapacity : U64} (ds : List MemoryDescriptor)
    (freeMemoryArray : List PagedMemory) :
    Conducts (Move initScope) (collectFreeMemory depth maxCapacity ds freeMemoryArray) m
      ((freeMemoryArray ++ (ds.filter fun d => canBeUsedByOS d.type).map
        MemoryDescriptor.memory).map (Holding.mk .basePage))
      (fun pages => pages.map (Holding.mk .basePage)) := by
  induction ds generalizing freeMemoryArray m with
  | nil =>
    rw [List.filter_nil, List.map_nil, List.append_nil]
    exact Conducts.pure fun pages : List PagedMemory => pages.map (Holding.mk .basePage)
  | cons d ds ih =>
    unfold collectFreeMemory
    split
    · rename_i hd
      simp only [List.filter_cons, hd, if_true, List.map_cons]
      split
      · rw [List.map_append]
        exact (conducts_freePhysicalPagesWithManager le_rfl
          (conducts_allocContiguousPhysicalPages le_rfl) _).bind fun _ _ _ => ih [d.memory]
      · simpa only [List.append_assoc, List.singleton_append] using
          ih (freeMemoryArray ++ [d.memory])
    · rename_i hd
      simp only [List.filter_cons, hd]
      exact ih _

end Conducts

end Homegrown.Memory
