import Homegrown.Memory.Physical.Partition
import Homegrown.Memory.Policy.Region

/-!
# The start of the lower half

`initVirtualMemoryManager` starts the lower-half region at the highest end of the firmware's
descriptors. Before it, `initPhysicalMemoryManager` has taken a frame off the first usable
descriptor of the same map, without moving its `virtualStart`, so the end of that descriptor
is a frame too low. `initMemoryManager_covers_iff` says for which maps this shows.
-/

namespace Homegrown.Memory

/-- `MemoryDescriptor`, with the field that only `initVirtualMemoryManager` reads. -/
structure FirmwareDescriptor extends MemoryDescriptor where
  virtualStart : U64
  deriving DecidableEq, Repr

/-- The initial `lowerHalfRegion`. -/
def lowerHalfRegion : VirtualRegion := ⟨0, 0x0000FFFFFFFFFFFF⟩

/-- The variable `highestAddress` of `initVirtualMemoryManager`. -/
def FirmwareDescriptor.highestAddress (desc : FirmwareDescriptor) : U64 :=
  desc.virtualStart + desc.numberOfPages * 4096

/-- The loop of `initVirtualMemoryManager`. -/
def currentHighestAddress (descriptors : List FirmwareDescriptor) : U64 :=
  descriptors.foldl (fun current desc => maxValue desc.highestAddress current) 0

/-- `initVirtualMemoryManager`, on the state `lowerHalfRegion`. -/
def initVirtualMemoryManager (descriptors : List FirmwareDescriptor) (region : VirtualRegion) :
    VirtualRegion :=
  { region with start := currentHighestAddress descriptors }

/-- The descriptor after its first frame was taken for the first table. -/
def FirmwareDescriptor.withoutFrame (desc : FirmwareDescriptor) : FirmwareDescriptor :=
  { desc with toMemoryDescriptor := desc.toMemoryDescriptor.tail }

/-- The memory map as `initPhysicalMemoryManager` leaves it: the first usable descriptor is
changed in place. -/
def takeFirstFrame : List FirmwareDescriptor → List FirmwareDescriptor
  | [] => []
  | desc :: descriptors =>
    if canBeUsedByOS desc.type then desc.withoutFrame :: descriptors
    else desc :: takeFirstFrame descriptors

/-- `initMemoryManager`, with the lower-half region it sets up. -/
def initMemoryManager (depth rounds : Nat) (descriptors : List FirmwareDescriptor) :
    Kernel VirtualRegion := do
  initPhysicalMemoryManager depth rounds (descriptors.map FirmwareDescriptor.toMemoryDescriptor)
  return initVirtualMemoryManager (takeFirstFrame descriptors) lowerHalfRegion

/-- The first usable descriptor, and all others. -/
def firstUsable : List FirmwareDescriptor → Option (FirmwareDescriptor × List FirmwareDescriptor)
  | [] => none
  | desc :: descriptors =>
    if canBeUsedByOS desc.type then some (desc, descriptors)
    else (firstUsable descriptors).map fun found => (found.1, desc :: found.2)

/-- The end of the descriptor, as a number. -/
def FirmwareDescriptor.stop (desc : FirmwareDescriptor) : Nat :=
  desc.virtualStart.toNat + desc.numberOfPages.toNat * pageFrameSize

/-- Another descriptor ends where the first usable one does or higher, or that one has no
frame to take and ends below the first page. -/
def HighestKept (descriptors : List FirmwareDescriptor) : Prop :=
  ∀ found ∈ firstUsable descriptors,
    found.1.stop < pageFrameSize ∨ ∃ desc ∈ found.2, found.1.stop ≤ desc.stop

instance (descriptors : List FirmwareDescriptor) : Decidable (HighestKept descriptors) :=
  inferInstanceAs (Decidable (∀ found ∈ firstUsable descriptors, _))

section Map

variable {descriptors rest : List FirmwareDescriptor} {desc d : FirmwareDescriptor} {x : Nat}

@[simp] theorem type_withoutFrame (desc : FirmwareDescriptor) :
    desc.withoutFrame.type = desc.type := by
  simp only [FirmwareDescriptor.withoutFrame, MemoryDescriptor.tail]

@[simp] theorem numberOfPages_withoutFrame (desc : FirmwareDescriptor) :
    desc.withoutFrame.numberOfPages = desc.numberOfPages - 1 := by
  simp only [FirmwareDescriptor.withoutFrame, MemoryDescriptor.tail]

@[simp] theorem virtualStart_withoutFrame (desc : FirmwareDescriptor) :
    desc.withoutFrame.virtualStart = desc.virtualStart := by
  simp only [FirmwareDescriptor.withoutFrame]

theorem takeFirstFrame_of_none (h : firstUsable descriptors = none) :
    takeFirstFrame descriptors = descriptors := by
  induction descriptors with
  | nil => rfl
  | cons desc descriptors ih =>
    rw [firstUsable] at h
    split at h
    · cases h
    · rename_i husable
      rw [takeFirstFrame, if_neg husable, ih (Option.map_eq_none_iff.mp h)]

/-- The descriptors before and after the change. -/
theorem takeFirstFrame_of_some (h : firstUsable descriptors = some (d, rest)) :
    descriptors.Perm (d :: rest) ∧ (takeFirstFrame descriptors).Perm (d.withoutFrame :: rest) := by
  induction descriptors generalizing rest with
  | nil => cases h
  | cons desc descriptors ih =>
    rw [firstUsable] at h
    split at h
    · rename_i husable
      obtain ⟨rfl, rfl⟩ := Prod.mk.injEq .. ▸ Option.some.inj h
      rw [takeFirstFrame, if_pos husable]
      exact ⟨List.Perm.rfl, List.Perm.rfl⟩
    · rename_i husable
      obtain ⟨⟨d', rest'⟩, hfound, heq⟩ := Option.map_eq_some_iff.mp h
      obtain ⟨rfl, rfl⟩ := Prod.mk.injEq .. ▸ heq
      obtain ⟨hbefore, hafter⟩ := ih hfound
      rw [takeFirstFrame, if_neg husable]
      exact ⟨(hbefore.cons desc).trans (.swap _ _ _), (hafter.cons desc).trans (.swap _ _ _)⟩

/-- Below the highest address lies what lies below the end of a descriptor. -/
theorem le_start_iff (hx : 0 < x) (region : VirtualRegion) :
    x ≤ (initVirtualMemoryManager descriptors region).start.toNat ↔
      ∃ desc ∈ descriptors, x ≤ desc.highestAddress.toNat := by
  have hfold (current : U64) : x ≤ (descriptors.foldl
      (fun current desc => maxValue desc.highestAddress current) current).toNat ↔
      x ≤ current.toNat ∨ ∃ desc ∈ descriptors, x ≤ desc.highestAddress.toNat := by
    induction descriptors generalizing current with
    | nil => simp
    | cons desc descriptors ih =>
      rw [List.foldl_cons, ih, toNat_maxValue, le_max_iff, List.exists_mem_cons_iff]
      tauto
  rw [initVirtualMemoryManager, currentHighestAddress, hfold]
  have hzero : ¬ x ≤ (0 : U64).toNat := not_le.mpr hx
  exact or_iff_right hzero

theorem toNat_highestAddress (h : desc.stop < 2 ^ 64) : desc.highestAddress.toNat = desc.stop := by
  rw [FirmwareDescriptor.stop, pageFrameSize] at h ⊢
  rw [FirmwareDescriptor.highestAddress, BitVec.toNat_add, BitVec.toNat_mul,
    show (4096 : U64).toNat = 4096 from rfl]
  omega

/-- Taking a frame lowers the end by a frame, modulo the word size. -/
theorem toNat_highestAddress_withoutFrame (h : desc.stop < 2 ^ 64) :
    desc.withoutFrame.highestAddress.toNat =
      if desc.stop < pageFrameSize then desc.stop + (2 ^ 64 - pageFrameSize)
      else desc.stop - pageFrameSize := by
  have hlt := desc.virtualStart.isLt
  rw [FirmwareDescriptor.stop, pageFrameSize] at h ⊢
  rw [FirmwareDescriptor.highestAddress, numberOfPages_withoutFrame, virtualStart_withoutFrame,
    BitVec.toNat_add, BitVec.toNat_mul, BitVec.toNat_sub, show (4096 : U64).toNat = 4096 from rfl,
    show (1 : U64).toNat = 1 from rfl]
  split <;> omega

/-- Exactly when another descriptor keeps the highest end, the region that
`initMemoryManager` sets up starts behind all descriptors of the firmware. -/
theorem initMemoryManager_covers_iff {depth rounds : Nat} {m m' : PhysicalMemory}
    {region : VirtualRegion} (hstop : ∀ desc ∈ descriptors, desc.stop < 2 ^ 64)
    (h : initMemoryManager depth rounds descriptors m = .ok region m') :
    (∀ desc ∈ descriptors, desc.stop ≤ region.start.toNat) ↔ HighestKept descriptors := by
  obtain ⟨_, _, -, hregion⟩ := bind_eq_ok.mp h
  obtain ⟨rfl, -⟩ := pure_eq_ok.mp hregion
  have hkept {desc : FirmwareDescriptor} (hdesc : desc ∈ descriptors)
      (hmem : desc ∈ takeFirstFrame descriptors) : desc.stop ≤
        (initVirtualMemoryManager (takeFirstFrame descriptors) lowerHalfRegion).start.toNat := by
    rcases Nat.eq_zero_or_pos desc.stop with hzero | hpos
    · rw [hzero]
      exact Nat.zero_le _
    · rw [le_start_iff hpos]
      exact ⟨desc, hmem, (toNat_highestAddress (hstop desc hdesc)).ge⟩
  unfold HighestKept
  cases hfirst : firstUsable descriptors with
  | none =>
    rw [takeFirstFrame_of_none hfirst] at hkept ⊢
    exact iff_of_true (fun desc hdesc => hkept hdesc hdesc) (by simp)
  | some found =>
    obtain ⟨d, rest⟩ := found
    obtain ⟨hbefore, hafter⟩ := takeFirstFrame_of_some hfirst
    have hrest {desc : FirmwareDescriptor} (hdesc : desc ∈ rest) : desc ∈ descriptors :=
      hbefore.mem_iff.mpr (List.mem_cons_of_mem _ hdesc)
    have hd : d ∈ descriptors := hbefore.mem_iff.mpr List.mem_cons_self
    have hothers : (∀ desc ∈ descriptors, desc.stop ≤
        (initVirtualMemoryManager (takeFirstFrame descriptors) lowerHalfRegion).start.toNat) ↔
        d.stop ≤
          (initVirtualMemoryManager (takeFirstFrame descriptors) lowerHalfRegion).start.toNat := by
      constructor
      · exact fun hall => hall d hd
      · intro hle desc hdesc
        rcases List.mem_cons.mp (hbefore.mem_iff.mp hdesc) with rfl | hmem
        · exact hle
        · exact hkept hdesc (hafter.mem_iff.mpr (List.mem_cons_of_mem _ hmem))
    have htaken := toNat_highestAddress_withoutFrame (hstop d hd)
    have hrestStop : (∃ desc ∈ rest, d.stop ≤ desc.highestAddress.toNat) ↔
        ∃ desc ∈ rest, d.stop ≤ desc.stop := by
      constructor <;> rintro ⟨desc, hdesc, hle⟩ <;> refine ⟨desc, hdesc, ?_⟩
      · rwa [toNat_highestAddress (hstop desc (hrest hdesc))] at hle
      · rwa [toNat_highestAddress (hstop desc (hrest hdesc))]
    rw [hothers]
    simp only [Option.mem_some_iff, forall_eq']
    rcases Nat.eq_zero_or_pos d.stop with hzero | hpos
    · exact iff_of_true (by omega) (.inl (by rw [hzero]; decide))
    · rw [le_start_iff hpos]
      simp only [hafter.mem_iff, List.exists_mem_cons_iff, hrestStop, htaken]
      apply or_congr_left
      have hpage : pageFrameSize = 4096 := rfl
      split <;> omega

end Map

/-- A map whose first usable descriptor is not the highest. -/
theorem initMemoryManager_covers_iff_three :
    let map : List FirmwareDescriptor := [⟨⟨.conventionalMemory, 0x1000, 3⟩, 0x1000⟩,
      ⟨⟨.reservedMemoryType, 0x4000, 1⟩, 0x4000⟩, ⟨⟨.conventionalMemory, 0x200000, 1025⟩, 0x200000⟩]
    ∃ region m', initMemoryManager 2 4 map (PhysicalMemory.fresh ⟨.reset, .reset, .reset, []⟩) =
      .ok region m' ∧ ∀ desc ∈ map, desc.stop ≤ region.start.toNat := by
  intro map
  have hinit : ReturnsWith (initMemoryManager 2 4 map
      (PhysicalMemory.fresh ⟨.reset, .reset, .reset, []⟩)) fun _ _ => True := by
    decide +kernel
  obtain ⟨region, m', hok, -⟩ := hinit
  exact ⟨region, m', hok, (initMemoryManager_covers_iff (by decide) hok).mpr (by decide)⟩

/-- Behind a map of one descriptor a frame is missing. -/
theorem initMemoryManager_misses_frame :
    ¬ ∀ (depth rounds : Nat) (descriptors : List FirmwareDescriptor) (m m' : PhysicalMemory)
      (region : VirtualRegion), (∀ desc ∈ descriptors, desc.virtualStart = desc.physicalStart) →
      (∀ desc ∈ descriptors, desc.stop < 2 ^ 64) →
      initMemoryManager depth rounds descriptors m = .ok region m' →
      ∀ desc ∈ descriptors, desc.stop ≤ region.start.toNat := by
  intro hclaim
  have hinit : ReturnsWith (initMemoryManager 2 4
      [⟨⟨.conventionalMemory, 0x200000, 1026⟩, 0x200000⟩]
      (PhysicalMemory.fresh ⟨.reset, .reset, .reset, []⟩)) fun region _ =>
        region.start = 0x601000 := by
    decide +kernel
  obtain ⟨region, m', hok, hstart⟩ := hinit
  have hcovers := hclaim _ _ _ _ _ _ (by decide) (by decide) hok _ List.mem_cons_self
  rw [hstart] at hcovers
  exact absurd hcovers (by decide)

end Homegrown.Memory
