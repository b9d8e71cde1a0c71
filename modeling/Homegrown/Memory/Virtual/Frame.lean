import Homegrown.Memory.Virtual.RoundTrip

/-!
# The frame of a page

`getPhysicalAddressFrame` masks the entry of a page. The mask leaves out the bits that
flags may use, and of the frame it keeps the bits below bit 48: the four bits above, which
the format of an entry has for the frame too, are lost.
-/

namespace Homegrown.Memory

/-- The bits of an entry that flags may use: bits 0 to 11, and bit 63. -/
def flagBits : U64 := 0x8000000000000FFF

/-- The flags lie within their bits. -/
def IsFlags (additionalFlags : U64) : Prop := additionalFlags &&& ~~~flagBits = 0

instance (additionalFlags : U64) : Decidable (IsFlags additionalFlags) :=
  inferInstanceAs (Decidable (_ = _))

/-- A frame of the page size whose bits an entry has room for. -/
structure IsFrame (s : PageSize) (physical : U64) : Prop where
  aligned : s.bytes ∣ physical.toNat
  fits : physical.toNat < 2 ^ 52

section Frame

variable {s : PageSize} {physical flags entry : U64}

/-- The mask keeps bits 12 to 47. -/
theorem toNat_getPhysicalAddressFrame :
    (getPhysicalAddressFrame entry).toNat = entry.toNat % 2 ^ 48 / 2 ^ 12 * 2 ^ 12 := by
  have hlow : IsTwoPow (0x1000 : U64) 12 := by decide
  have hhigh : IsTwoPow (0x1000000000000 : U64) 48 := by decide
  have hmask : VirtualPageMasks.frameOrNextPageTable =
      (0x1000000000000 - 1) &&& ~~~(0x1000 - 1) := by decide
  rw [getPhysicalAddressFrame, hmask, ← BitVec.and_assoc, hlow.toNat_and_not,
    hhigh.toNat_and_sub_one]

/-- No flag is taken for a bit of the frame. -/
theorem IsFlags.masked (h : IsFlags flags) : getPhysicalAddressFrame flags = 0 := by
  have hmask : VirtualPageMasks.frameOrNextPageTable =
      ~~~flagBits &&& VirtualPageMasks.frameOrNextPageTable := by decide
  rw [getPhysicalAddressFrame, hmask, ← BitVec.and_assoc, h]
  exact BitVec.zero_and

theorem getPhysicalAddressFrame_or (x y : U64) : getPhysicalAddressFrame (x ||| y) =
    getPhysicalAddressFrame x ||| getPhysicalAddressFrame y := by
  simp only [getPhysicalAddressFrame]
  ext i hi
  simp only [BitVec.getElem_and, BitVec.getElem_or, Bool.and_or_distrib_right]

/-- Of the entry for a page the mask leaves what it leaves of the frame. -/
theorem getPhysicalAddressFrame_pageEntry (hflags : IsFlags flags) :
    getPhysicalAddressFrame (pageEntry s physical flags) = getPhysicalAddressFrame physical := by
  have hpresent : getPhysicalAddressFrame VirtualPageMasks.pagePresent = 0 := by decide
  have hwritable : getPhysicalAddressFrame VirtualPageMasks.pageWritable = 0 := by decide
  have hextended : getPhysicalAddressFrame VirtualPageMasks.pageExtendedSize = 0 := by decide
  cases s <;>
    simp [pageEntry, getPhysicalAddressFrame_or, hpresent, hwritable, hextended, hflags.masked]

/-- A frame is kept whole exactly when it lies below bit 48. -/
theorem getPhysicalAddressFrame_eq_iff (h : pageFrameSize ∣ physical.toNat) :
    getPhysicalAddressFrame physical = physical ↔ physical.toNat < 2 ^ 48 := by
  obtain ⟨c, hc⟩ := h
  rw [pageFrameSize] at hc
  rw [← BitVec.toNat_inj, toNat_getPhysicalAddressFrame]
  omega

end Frame

section Mapped

variable {σ : Type} {allocate4KiBPage : U64 → EStateM Fault σ U64} {avoids : σ → Set U64 → Prop}
  {s s' : Paging σ} {calls : List MapCall} {c : MapCall} {k : Nat} {v : U64}

/-- The entry that is read back for an address of a mapped page is the one that was
written for its frame, and leads back to the frame exactly when that lies below bit 48. -/
theorem getPhysicalAddressFrame_of_mapped
    (hout : HandsOutFrames allocate4KiBPage avoids fun _ => True)
    (hvalid : ∀ c ∈ calls, c.Valid)
    (hdisjoint : calls.Pairwise fun c d => c.span.Disjoint d.span)
    (hroot : pageFrameSize ∣ s.level4PageTable.toNat)
    (hzero : ∀ i : BitVec 9, s.words (entryAddress s.level4PageTable (i.setWidth 64)) = 0)
    (havoids : avoids s.allocator {s.level4PageTable})
    (hrun : mapRegions allocate4KiBPage calls s = .ok () s')
    (hc : c ∈ calls) (hk : k < c.pages) (hframe : IsFrame c.pageType (c.physical k))
    (hflags : IsFlags c.additionalFlags) (hv : v.toNat ∈ c.pageSpan k) :
    (getMappedPage s'.words s'.level4PageTable v).entry =
        pageEntry c.pageType (c.physical k) c.additionalFlags ∧
      (getPhysicalAddressFrame (getMappedPage s'.words s'.level4PageTable v).entry =
        c.physical k ↔ (c.physical k).toNat < 2 ^ 48) := by
  have hempty : Mapped avoids s (emptyRadix s.level4PageTable) :=
    ⟨.of_zero hroot hzero, by rwa [tables_emptyRadix]⟩
  obtain ⟨r, hgrown, -, hmapped, -⟩ := hempty.mapRegions hout hvalid hdisjoint
    (emptyRadix_pruned _) (fun _ _ _ _ _ hp => by cases hp) hrun trivial
  have hleaves : ∀ p e, Leaves calls p e → r.leaf p = some e := fun p e hp =>
    (hgrown.leaf_iff p e).mpr (.inr hp)
  have hentry : (getMappedPage s'.words s'.level4PageTable v).entry =
      pageEntry c.pageType (c.physical k) c.additionalFlags := by
    rw [hmapped.getMappedPage_eq hleaves hc (hvalid c hc) hk hv, MapCall.pageEntry_eq]
  refine ⟨hentry, ?_⟩
  rw [hentry, getPhysicalAddressFrame_pageEntry hflags]
  exact getPhysicalAddressFrame_eq_iff ((c.pageType.pageFrameSize_dvd).trans hframe.aligned)

end Mapped

/-- The call of a large page whose frame starts at 1 GiB, and which may not be executed. -/
theorem getPhysicalAddressFrame_of_mapped_large : ∃ s',
    mapRegions countingAllocator
      [⟨0xffff800000200000, ⟨0x40000000, 1⟩, .largePage, 0x8000000000000010⟩]
      ⟨fun _ => 0, 0x1000, 0x2000⟩ = .ok () s' ∧
    getPhysicalAddressFrame
      (getMappedPage s'.words s'.level4PageTable 0xffff800000212345).entry = 0x40000000 := by
  obtain ⟨_, s', hrun, -⟩ : ReturnsWith (mapRegions countingAllocator
      [⟨0xffff800000200000, ⟨0x40000000, 1⟩, .largePage, 0x8000000000000010⟩]
      ⟨fun _ => 0, 0x1000, 0x2000⟩) fun _ s' => s'.level4PageTable = 0x1000 := by
    decide +kernel
  refine ⟨s', hrun, ?_⟩
  have hread := getPhysicalAddressFrame_of_mapped handsOutFrames_countingAllocator
    (by
      rw [List.forall_mem_singleton]
      exact ⟨by decide, by decide, fun a ha => .inr (le_trans (by decide) ha.1)⟩)
    (List.pairwise_singleton _ _) (by decide) (fun _ => rfl)
    ⟨by decide, fun t ht => by
      rw [Set.mem_singleton_iff.mp ht]
      decide⟩ hrun (List.mem_singleton_self _) (k := 0) (by decide) ⟨by decide, by decide⟩
    (by decide) (v := 0xffff800000212345) (by decide)
  exact hread.2.mpr (by decide)

/-- A frame at bit 48 is read back as the frame at zero. -/
theorem getPhysicalAddressFrame_loses_bit : IsFrame .basePage 0x1000000000000 ∧
    ReturnsWith (mapRegions countingAllocator
      [⟨0xffff800000000000, ⟨0x1000000000000, 1⟩, .basePage, 0⟩] ⟨fun _ => 0, 0x1000, 0x2000⟩)
      fun _ s' => getPhysicalAddressFrame
        (getMappedPage s'.words s'.level4PageTable 0xffff800000000000).entry = 0 :=
  ⟨⟨by decide, by decide⟩, by decide +kernel⟩

end Homegrown.Memory
