import Homegrown.ImageBuilder.Sections
import Homegrown.ImageBuilder.Writes

/-!
# The size of an image

`setConfiguration` and the two writers multiply block numbers with the block size. The products
are ones of 32-bit numbers, whatever they are stored in, so an image of 4 GiB or more is mapped
with a size that wrapped. `setConfiguration_sizesExact_iff` gives the images whose sizes and writes
are all as planned: those below 4 GiB that also have room for the copy of the first FAT, four
times as far behind it as it should be.
-/

namespace Homegrown.ImageBuilder

/-- What `writeDataPartition` adds to the file buffer. -/
def Configuration.dataPartitionOffset (c : Configuration) : Nat :=
  (c.dataPartitionStartLBA * c.LBASizeBytes.setWidth 32).toNat

/-- `writeDataPartition`, given what the reads of the kernel return. Its loop is the one that
reads the EFI application. -/
def writeDataPartition (c : Configuration) (reads : List (Option (List U8)))
    (kernelSizeBytes : U64) : Writer Bool := do
  let written ← readEFIApplication c.layout reads c.dataPartitionOffset kernelSizeBytes.toNat
  return written.isSome

/-- The size of the image and the offsets of the partitions are products of numbers, and every
write lies within the mapped file. -/
structure SizesExact (c : Configuration) (efiSizeBytes kernelSizeBytes : U64) : Prop where
  total : c.totalImageSizeBytes.toNat = c.totalImageSizeLBA.toNat * c.LBASizeBytes.toNat
  efiOffset : c.layout.reservedSectors =
    c.EFISystemPartitionStartLBA.toNat * c.LBASizeBytes.toNat
  dataOffset : c.dataPartitionOffset = c.dataPartitionStartLBA.toNat * c.LBASizeBytes.toNat
  tables : ∀ copy ∈ writeMBR c ++ writeGPTs c,
    copy.address.toNat + copy.data.length ≤ c.totalImageSizeBytes.toNat
  efiWrites : ∀ reads image image', FreshPartition c image →
    writeEFISystemPartition c reads efiSizeBytes kernelSizeBytes image ≠
      .error .segmentationFault image'
  dataWrites : ∀ reads image image',
    writeDataPartition c reads kernelSizeBytes image ≠ .error .segmentationFault image'

/-- The image has a block at the end of the copy of the first FAT. -/
def MirrorFits (L a efiBlocks kernelBlocks : Nat) : Prop :=
  maskUp (tablesLBA L) a + 32 + 5 * maskedFATSectors L a efiBlocks ≤
    imageLBA L a efiBlocks kernelBlocks

instance (L a efiBlocks kernelBlocks : Nat) : Decidable (MirrorFits L a efiBlocks kernelBlocks) :=
  inferInstanceAs (Decidable (_ ≤ _))

section Plan

variable {k e efiBlocks kernelBlocks : Nat}

/-- A plan at a power of two fits as long as the blocks of the image are a 32-bit number. -/
theorem planFits_of_twoPow (hk : 9 ≤ k) (hk' : k ≤ 12) (he : e < 23)
    (himage : imageLBA (2 ^ k) (2 ^ e) efiBlocks kernelBlocks < 2 ^ 32) :
    PlanFits (2 ^ k) (2 ^ e) efiBlocks kernelBlocks := by
  have hpow : 2 ^ 9 ≤ 2 ^ k := Nat.pow_le_pow_right (by norm_num) hk
  have hpow' : 2 ^ k ≤ 2 ^ 12 := Nat.pow_le_pow_right (by norm_num) hk'
  have hepow : 2 ^ e ≤ 2 ^ 22 := Nat.pow_le_pow_right (by norm_num) (by omega)
  have htable := Nat.div_le_self 16384 (2 ^ k)
  have htable0 := Nat.zero_le (16384 / 2 ^ k)
  have hsum := himage
  rw [imageLBA] at hsum
  have hpartitionUp : maskUp (partitionSectors (2 ^ k) (2 ^ e) efiBlocks) (2 ^ e) < 2 ^ 32 := by
    omega
  have hpartitionLt := (le_maskUp (partitionSectors (2 ^ k) (2 ^ e) efiBlocks) (2 ^ e)).trans_lt
    hpartitionUp
  rw [maskUp_two_pow, roundUp_lt_two_pow_iff (by omega)] at hpartitionUp
  have hclustersUp : maskedClusters efiBlocks (2 ^ e) < 2 ^ 32 :=
    (Nat.le_add_left _ _).trans_lt hpartitionLt
  have hreservedUp : maskUp (reservedAndFATSectors (maskedClusters efiBlocks (2 ^ e)) (2 ^ k / 4))
      (2 ^ e) < 2 ^ 32 := (Nat.le_add_right _ _).trans_lt hpartitionLt
  have hreserved := le_maskUp (reservedAndFATSectors (maskedClusters efiBlocks (2 ^ e)) (2 ^ k / 4))
    (2 ^ e)
  rw [maskUp_two_pow, roundUp_lt_two_pow_iff (by omega)] at hreservedUp
  have hrequired := hclustersUp
  rw [maskedClusters, maskUp_two_pow, roundUp_lt_two_pow_iff (by omega)] at hrequired
  refine ⟨?_, hrequired, ?_, hreservedUp, hpartitionUp, himage⟩
  · rw [tablesLBA]
    omega
  · -- so many clusters have a FAT with more sectors than a sector has entries
    have hq : 0 < 2 ^ k / 4 := by omega
    have hup := le_roundUp (x := maskedClusters efiBlocks (2 ^ e)) hq
    have hsectors := Nat.mul_le_mul_left ((maskedClusters efiBlocks (2 ^ e) + (2 ^ k / 4 - 1)) /
      (2 ^ k / 4)) (show 2 ^ k / 4 ≤ 1024 by omega)
    have hdef : reservedAndFATSectors (maskedClusters efiBlocks (2 ^ e)) (2 ^ k / 4) =
      32 + 2 * ((maskedClusters efiBlocks (2 ^ e) + (2 ^ k / 4 - 1)) / (2 ^ k / 4)) := rfl
    rw [roundUp] at hup
    rw [partitionSectors] at hpartitionLt
    omega

/-- The partition has room for what is written, up to two blocks that lie behind it. -/
theorem plan_room (hk' : k ≤ 12) (a efiBlocks : Nat) :
    32 + 2 * maskedFATSectors (2 ^ k) a efiBlocks + maskedClusters efiBlocks a ≤
        maskUp (partitionSectors (2 ^ k) a efiBlocks) a ∧
      efiBlocks + 2 ≤ maskedClusters efiBlocks a ∧ 65526 ≤ maskedClusters efiBlocks a ∧
      4 ≤ 16384 / 2 ^ k := by
  have hpow' : 2 ^ k ≤ 2 ^ 12 := Nat.pow_le_pow_right (by norm_num) hk'
  have hup := le_maskUp (partitionSectors (2 ^ k) a efiBlocks) a
  have hreserved := le_maskUp (reservedAndFATSectors (maskedClusters efiBlocks a) (2 ^ k / 4)) a
  have hclusters := le_maskUp (max 65526 (efiBlocks + 2)) a
  have hsectors : reservedAndFATSectors (maskedClusters efiBlocks a) (2 ^ k / 4) =
    32 + 2 * ((maskedClusters efiBlocks a + (2 ^ k / 4 - 1)) / (2 ^ k / 4)) := rfl
  have htable : 4 ≤ 16384 / 2 ^ k := by
    rw [Nat.le_div_iff_mul_le (by positivity)]
    omega
  have hdef : partitionSectors (2 ^ k) a efiBlocks = maskUp (reservedAndFATSectors
    (maskedClusters efiBlocks a) (2 ^ k / 4)) a + maskedClusters efiBlocks a := rfl
  rw [← maskedClusters] at hclusters
  rw [maskedFATSectors]
  exact ⟨by omega, by omega, by omega, htable⟩

end Plan

/-- Where things are in a planned image, in bytes. -/
structure PlannedLayout (c : Configuration) (L a efiBlocks kernelBlocks : Nat) : Prop where
  size : c.layout.size = imageLBA L a efiBlocks kernelBlocks * L
  reservedSectors : c.layout.reservedSectors = maskUp (tablesLBA L) a * L
  FATSizeBytes : c.layout.FATSizeBytes.toNat = maskedFATSectors L a efiBlocks * L
  dataOffset : c.dataPartitionOffset =
    (maskUp (tablesLBA L) a + maskUp (partitionSectors L a efiBlocks) a) * L
  bytesPerSector : c.layout.bytesPerSector.toNat = L

section Image

variable {LBASizeBytes : U16} {efiSizeBytes kernelSizeBytes : U64} {alignmentSizeBytes : U32}
  {k j a efiBlocks kernelBlocks : Nat}

/-- A product of a block number and the block size, below 4 GiB. -/
theorem toNat_mul_blockSize (hL : IsTwoPow LBASizeBytes k) {block : U32}
    (h : block.toNat * 2 ^ k < 2 ^ 32) :
    (block * LBASizeBytes.setWidth 32).toNat = block.toNat * 2 ^ k := by
  have hwide : (LBASizeBytes.setWidth 32).toNat = 2 ^ k := isTwoPow_setWidth hL (by norm_num)
  rw [BitVec.toNat_mul, hwide, Nat.mod_eq_of_lt h]

/-- The size in bytes is the product of the planned one, cut to 32 bits. -/
theorem toNat_totalImageSizeBytes (hL : IsTwoPow LBASizeBytes k) :
    let c := setConfiguration LBASizeBytes efiSizeBytes kernelSizeBytes alignmentSizeBytes
    c.totalImageSizeBytes.toNat = c.totalImageSizeLBA.toNat * 2 ^ k % 2 ^ 32 := by
  intro c
  have hwide : (LBASizeBytes.setWidth 32).toNat = 2 ^ k := isTwoPow_setWidth hL (by norm_num)
  change ((c.totalImageSizeLBA * LBASizeBytes.setWidth 32).setWidth 64).toNat = _
  rw [BitVec.toNat_setWidth_of_le (by norm_num), BitVec.toNat_mul, hwide]

/-- Below 4 GiB the layout is the planned one. -/
theorem setConfiguration_plannedLayout (hL : IsTwoPow LBASizeBytes k) (hk' : k ≤ 12) :
    let c := setConfiguration LBASizeBytes efiSizeBytes kernelSizeBytes alignmentSizeBytes
    Planned c (2 ^ k) a efiBlocks kernelBlocks → PlannedPartition c.efi (2 ^ k) a efiBlocks →
      imageLBA (2 ^ k) a efiBlocks kernelBlocks * 2 ^ k < 2 ^ 32 →
        PlannedLayout c (2 ^ k) a efiBlocks kernelBlocks := by
  intro c hplanned hpartition hfits
  obtain ⟨hroom, -, -, -⟩ := plan_room hk' a efiBlocks
  have hpos : 0 < 2 ^ k := by positivity
  have hdef : imageLBA (2 ^ k) a efiBlocks kernelBlocks = maskUp (tablesLBA (2 ^ k)) a +
    maskUp (partitionSectors (2 ^ k) a efiBlocks) a + kernelBlocks + (16384 / 2 ^ k + 1) := rfl
  have hsub {b : Nat} (hb : b ≤ imageLBA (2 ^ k) a efiBlocks kernelBlocks) :
      b * 2 ^ k < 2 ^ 32 := (Nat.mul_le_mul_right _ hb).trans_lt hfits
  have htable0 := Nat.zero_le (16384 / 2 ^ k)
  constructor
  · change c.totalImageSizeBytes.toNat = _
    rw [toNat_totalImageSizeBytes hL, hplanned.total, Nat.mod_eq_of_lt hfits]
  · change (c.EFISystemPartitionStartLBA * LBASizeBytes.setWidth 32).toNat = _
    rw [toNat_mul_blockSize hL (hsub (by rw [hplanned.efiStart]; omega)), hplanned.efiStart]
  · change (c.efi.FATSize32Sectors * LBASizeBytes.setWidth 32).toNat = _
    rw [toNat_mul_blockSize hL (hsub (by rw [hpartition.FATSectors]; omega)),
      hpartition.FATSectors]
  · change (c.dataPartitionStartLBA * LBASizeBytes.setWidth 32).toNat = _
    rw [toNat_mul_blockSize hL (hsub (by rw [hplanned.dataStart]; omega)), hplanned.dataStart]
  · exact hpartition.bytesPerSector

end Image

/-! ## Writes -/

section Writes

variable {c : Configuration} {k a efiBlocks kernelBlocks : Nat}

/-- The first FAT begins behind the reserved sectors. -/
theorem PlannedLayout.primaryFAT_eq (h : PlannedLayout c (2 ^ k) a efiBlocks kernelBlocks)
    (hs : c.layout.Spread) :
    c.layout.primaryFAT = (maskUp (tablesLBA (2 ^ k)) a + 32) * 2 ^ k := by
  rw [hs.primaryFAT, h.reservedSectors, h.bytesPerSector]
  ring

/-- The clusters begin behind the two FATs. -/
theorem PlannedLayout.dataAddress_eq (h : PlannedLayout c (2 ^ k) a efiBlocks kernelBlocks)
    (hs : c.layout.Spread) (n : Nat) : c.layout.dataAddress n =
      (maskUp (tablesLBA (2 ^ k)) a + 32 + 2 * maskedFATSectors (2 ^ k) a efiBlocks + (n - 2)) *
        2 ^ k := by
  rw [Layout.dataAddress, hs.dataClusters, h.primaryFAT_eq hs, h.FATSizeBytes, h.bytesPerSector]
  ring

/-- The image has room for the application. -/
theorem PlannedLayout.roomy (h : PlannedLayout c (2 ^ k) a efiBlocks kernelBlocks) (hk' : k ≤ 12)
    (hs : c.layout.Spread) (hF : 4 * maskedClusters efiBlocks a ≤ c.layout.FATSizeBytes.toNat) :
    c.layout.Roomy efiBlocks := by
  obtain ⟨hroom, hblocks, hmin, htable⟩ := plan_room hk' a efiBlocks
  refine ⟨hs, by omega, ?_⟩
  rw [h.dataAddress_eq hs, h.size]
  refine Nat.mul_le_mul_right _ ?_
  rw [imageLBA]
  omega

/-- The copy of the first FAT lies in the image when it was planned to. -/
theorem PlannedLayout.mirrorInside_iff (h : PlannedLayout c (2 ^ k) a efiBlocks kernelBlocks)
    (hs : c.layout.Spread) :
    MirrorInside c.layout ↔ MirrorFits (2 ^ k) a efiBlocks kernelBlocks := by
  have hend : c.layout.primaryFAT + 5 * c.layout.FATSizeBytes.toNat =
      (maskUp (tablesLBA (2 ^ k)) a + 32 + 5 * maskedFATSectors (2 ^ k) a efiBlocks) * 2 ^ k := by
    rw [h.primaryFAT_eq hs, h.FATSizeBytes]
    ring
  rw [MirrorInside, MirrorFits, hend, h.size, Nat.mul_le_mul_right_iff (by positivity)]

/-- The clusters of the directories lie in the partition. -/
theorem PlannedLayout.emptyClusters (h : PlannedLayout c (2 ^ k) a efiBlocks kernelBlocks)
    (hp : Planned c (2 ^ k) a efiBlocks kernelBlocks) (hk' : k ≤ 12) (hs : c.layout.Spread)
    {image : Image} (hfresh : FreshPartition c image) : EmptyClusters c.layout image := by
  obtain ⟨hroom, hblocks, hmin, -⟩ := plan_room hk' a efiBlocks
  intro i hi hlt
  have hprimary := hs.primaryFAT
  have hdata := hs.dataClusters
  refine hfresh i (by omega) (hlt.trans_le ?_)
  rw [h.dataAddress_eq hs, h.reservedSectors, hp.efiSize, hp.blockSize, ← Nat.add_mul]
  exact Nat.mul_le_mul_right _ (by omega)

/-- The copies of the tables lie in the image. -/
theorem PlannedLayout.tables_inside (h : PlannedLayout c (2 ^ k) a efiBlocks kernelBlocks)
    (hp : Planned c (2 ^ k) a efiBlocks kernelBlocks) (hk : 9 ≤ k) (hk' : k ≤ 12)
    (hfits : imageLBA (2 ^ k) a efiBlocks kernelBlocks * 2 ^ k < 2 ^ 32) :
    ∀ copy ∈ writeMBR c ++ writeGPTs c,
      copy.address.toNat + copy.data.length ≤ c.totalImageSizeBytes.toNat := by
  obtain ⟨hheader, htable, hbackup, hbackupHeader⟩ := hp.toNat_gptAddresses hfits
  have hpow : 2 ^ 9 ≤ 2 ^ k := Nat.pow_le_pow_right (by norm_num) hk
  have htables := hp.tables_le
  have hdata := hp.data_eq
  have htotal := hp.image_eq
  have hpt := hp.toNat_partitionTableLBA
  have hsize : c.GPTPartitionTableSizeLBA.toNat * 2 ^ k = 16384 := by
    rw [hp.tableSize]
    exact Nat.div_mul_cancel (show 2 ^ k ∣ 2 ^ 14 from pow_dvd_pow 2 (by omega))
  have hend : c.totalImageSizeBytes.toNat = c.totalImageSizeLBA.toNat * 2 ^ k := by
    rw [hp.total]
    exact h.size
  -- The backup copies end the image, and the primary ones are as long.
  have hlast : (c.totalImageSizeLBA.toNat - 1) * 2 ^ k + 2 ^ k = c.totalImageSizeBytes.toNat := by
    rw [hend, ← Nat.succ_mul]
    congr 1
    omega
  have hbackupTable : (backupGPTHeader c).partitionTableLBA.toNat * 2 ^ k + 16384 =
      (c.totalImageSizeLBA.toNat - 1) * 2 ^ k := by
    rw [← hsize, ← Nat.add_mul]
    congr 1
    omega
  have hprimary := Nat.mul_le_mul_right (2 ^ k) (show 2 ≤
    (backupGPTHeader c).partitionTableLBA.toNat by omega)
  have hzero : (0 : U64).toNat = 0 := rfl
  have hone : (SectionsInLBASize.protectiveMBR.setWidth 64 : U64) = 1 := rfl
  have hone' : (SectionsInLBASize.gptHeader.setWidth 64 : U64) = 1 := rfl
  simp only [writeMBR, writeGPTs, hone, hone', List.cons_append, List.nil_append,
    List.forall_mem_cons, List.not_mem_nil, false_implies, implies_true, and_true, hzero,
    length_protectiveMBR, length_primaryGPTHeader, length_backupGPTHeader,
    length_partitionEntries, hheader, htable, hbackup, hbackupHeader, gptHeaderSize]
  omega

/-- The kernel lies in the image. -/
theorem PlannedLayout.dataWrites (h : PlannedLayout c (2 ^ k) a efiBlocks kernelBlocks)
    {kernelSizeBytes : U64} (hkernel : kernelSizeBytes.toNat ≤ kernelBlocks * 2 ^ k)
    (reads : List (Option (List U8))) (image image' : Image) :
    writeDataPartition c reads kernelSizeBytes image ≠ .error .segmentationFault image' := by
  have hfits : c.dataPartitionOffset + kernelSizeBytes.toNat ≤ c.layout.size := by
    rw [h.dataOffset, h.size, imageLBA]
    have htable0 := Nat.zero_le (16384 / 2 ^ k)
    refine (Nat.add_le_add_left hkernel _).trans ?_
    rw [← Nat.add_mul]
    exact Nat.mul_le_mul_right _ (by omega)
  rw [writeDataPartition]
  rcases readEFIApplication_cases (P := fun _ => True) (fun _ _ _ _ _ => trivial) reads
    trivial (le_refl c.dataPartitionOffset) hfits with ⟨image₁, hread⟩ |
      ⟨image₁, hread⟩ | ⟨kernel, image₁, hread, -, -⟩
  · rw [bind_of_error hread]
    rintro ⟨⟩
  · rw [bind_of_ok hread]
    rintro ⟨⟩
  · rw [bind_of_ok hread]
    rintro ⟨⟩

end Writes

section Exact

variable {LBASizeBytes : U16} {efiSizeBytes kernelSizeBytes : U64} {alignmentSizeBytes : U32}
  {k j : Nat}

/-- A file lies in its blocks. -/
theorem le_fileLBA_mul (k bytes : Nat) : bytes ≤ fileLBA (2 ^ k) bytes * 2 ^ k :=
  le_roundUp (by positivity)

/-- A power of two aligns to one, in blocks. -/
theorem blockAlignment_twoPow (hL : IsTwoPow LBASizeBytes k) (ha : IsTwoPow alignmentSizeBytes j) :
    blockAlignment (2 ^ k) alignmentSizeBytes.toNat = 2 ^ (j - k) :=
  (toNat_alignmentInLBA alignmentSizeBytes hL).symm.trans (isTwoPow_alignmentInLBA hL ha)

/-- Below 4 GiB the sizes and all writes are as planned, but for the copy of the first FAT. -/
theorem setConfiguration_sizesExact_of (hL : IsTwoPow LBASizeBytes k) (hk : 9 ≤ k) (hk' : k ≤ 12)
    (ha : IsTwoPow alignmentSizeBytes j)
    (hfits : imageLBA (2 ^ k) (2 ^ (j - k)) (fileLBA (2 ^ k) efiSizeBytes.toNat)
      (fileLBA (2 ^ k) kernelSizeBytes.toNat) * 2 ^ k < 2 ^ 32) :
    SizesExact (setConfiguration LBASizeBytes efiSizeBytes kernelSizeBytes alignmentSizeBytes)
        efiSizeBytes kernelSizeBytes ↔
      MirrorFits (2 ^ k) (2 ^ (j - k)) (fileLBA (2 ^ k) efiSizeBytes.toNat)
        (fileLBA (2 ^ k) kernelSizeBytes.toNat) := by
  set c := setConfiguration LBASizeBytes efiSizeBytes kernelSizeBytes alignmentSizeBytes with hc
  set a := 2 ^ (j - k) with hadef
  set n := fileLBA (2 ^ k) efiSizeBytes.toNat with hn
  have halign : blockAlignment (2 ^ k) alignmentSizeBytes.toNat = a := blockAlignment_twoPow hL ha
  have halt : a < 2 ^ 23 := halign ▸ blockAlignment_lt alignmentSizeBytes hk
  have hplan := planFits_of_bytes_lt hk hk' halt hfits
  obtain ⟨hp, hpartition⟩ := setConfiguration_planned_of hL hk hk' (by rwa [halign])
  rw [halign] at hp hpartition
  have hlayout : PlannedLayout c (2 ^ k) a n (fileLBA (2 ^ k) kernelSizeBytes.toNat) :=
    setConfiguration_plannedLayout hL hk' hp hpartition hfits
  have hefi := le_fileLBA_mul k efiSizeBytes.toNat
  obtain ⟨hroom, hblocks, hmin, htable⟩ := plan_room hk' a n
  have hefiLt : efiSizeBytes.toNat < 2 ^ 32 := by
    refine (hefi.trans (Nat.mul_le_mul_right _ ?_)).trans_lt hfits
    rw [imageLBA]
    omega
  obtain ⟨hs, -, hF⟩ := spread_setConfiguration kernelSizeBytes hL hk ha hefiLt
  rw [hpartition.clusters] at hF
  have hroomy := hlayout.roomy hk' hs hF
  have hrequired : (requiredNewClusters c.layout.bytesPerSector
      ((BitVec.ofNat 32 efiSizeBytes.toNat).setWidth 64)).toNat = n := by
    rw [toNat_requiredNewClusters hlayout.bytesPerSector, BitVec.toNat_ofNat,
      Nat.mod_eq_of_lt hefiLt, hn, fileLBA]
  have happlication : c.layout.dataAddress 6 + efiSizeBytes.toNat ≤ c.layout.size := by
    have hle := c.layout.dataAddress_add_le (show 2 ≤ 6 by norm_num) (show 6 + n ≤ n + 8 by omega)
    rw [hlayout.bytesPerSector] at hle
    exact (Nat.add_le_add_left (hefi.trans (Nat.mul_comm _ _).le) _).trans
      (hle.trans hroomy.room)
  have hcases (reads : List (Option (List U8))) (image : Image) (hfresh : FreshPartition c image) :=
    writeEFISystemPartition_cases hroomy (hlayout.emptyClusters hp hk' hs hfresh) kernelSizeBytes
      hrequired happlication reads
  rw [← hlayout.mirrorInside_iff hs]
  constructor
  · intro h
    -- The application is read at once into an empty image.
    rcases hcases [some (zeros efiSizeBytes.toNat)] ⟨fun _ => 0, 0, []⟩
        (fun _ _ _ => rfl) with ⟨hne, -⟩ | ⟨hinside, -⟩ | ⟨-, image', hrun⟩
    · exact (hne rfl).elim
    · exact hinside
    · exact (h.efiWrites _ _ image' (fun _ _ _ => rfl) hrun).elim
  · intro hinside
    refine ⟨?_, ?_, ?_, hlayout.tables_inside hp hk hk' hfits, ?_,
      hlayout.dataWrites (le_fileLBA_mul k _)⟩
    · rw [hp.total, hp.blockSize]
      exact hlayout.size
    · rw [hp.efiStart, hp.blockSize]
      exact hlayout.reservedSectors
    · rw [hp.dataStart, hp.blockSize]
      exact hlayout.dataOffset
    · intro reads image image' hfresh hrun
      rcases hcases reads image hfresh with ⟨-, image₁, hread | hread⟩ | ⟨-, image₁, hread⟩ |
          ⟨hout, -⟩
      · rw [hread] at hrun
        cases hrun
      · rw [hread] at hrun
        cases hrun
      · rw [hread] at hrun
        cases hrun
      · exact hout hinside

/-- Sizes and writes are as planned exactly when the image is below 4 GiB and has room for the
copy of the first FAT. -/
theorem setConfiguration_sizesExact_iff (hL : IsTwoPow LBASizeBytes k) (hk : 9 ≤ k) (hk' : k ≤ 12)
    (ha : IsTwoPow alignmentSizeBytes j)
    (himage : imageLBA (2 ^ k) (blockAlignment (2 ^ k) alignmentSizeBytes.toNat)
      (fileLBA (2 ^ k) efiSizeBytes.toNat) (fileLBA (2 ^ k) kernelSizeBytes.toNat) < 2 ^ 32) :
    let a := blockAlignment (2 ^ k) alignmentSizeBytes.toNat
    let efiBlocks := fileLBA (2 ^ k) efiSizeBytes.toNat
    let kernelBlocks := fileLBA (2 ^ k) kernelSizeBytes.toNat
    SizesExact (setConfiguration LBASizeBytes efiSizeBytes kernelSizeBytes alignmentSizeBytes)
        efiSizeBytes kernelSizeBytes ↔
      imageLBA (2 ^ k) a efiBlocks kernelBlocks * 2 ^ k < 2 ^ 32 ∧
        MirrorFits (2 ^ k) a efiBlocks kernelBlocks := by
  intro a efiBlocks kernelBlocks
  have halign : a = 2 ^ (j - k) := blockAlignment_twoPow hL ha
  constructor
  · intro h
    have hj : j - k < 23 := by
      have := ha.exponent_lt
      omega
    have hplan : PlanFits (2 ^ k) a efiBlocks kernelBlocks := by
      rw [halign]
      exact planFits_of_twoPow hk hk' hj (by rw [← halign]; exact himage)
    obtain ⟨hp, -⟩ := setConfiguration_planned_of hL hk hk' hplan
    -- The product is cut to 32 bits, and is what the field holds.
    have htotal := h.total
    rw [toNat_totalImageSizeBytes hL, hp.blockSize, hp.total] at htotal
    have hfits : imageLBA (2 ^ k) a efiBlocks kernelBlocks * 2 ^ k < 2 ^ 32 :=
      htotal ▸ Nat.mod_lt _ (by norm_num)
    refine ⟨hfits, ?_⟩
    rw [halign] at hfits ⊢
    exact (setConfiguration_sizesExact_of hL hk hk' ha hfits).mp h
  · rintro ⟨hfits, hmirror⟩
    rw [halign] at hfits hmirror
    exact (setConfiguration_sizesExact_of hL hk hk' ha hfits).mpr hmirror

end Exact

/-- An application of a million bytes and a kernel of five, aligned to 1 MiB. -/
theorem setConfiguration_sizesExact_million :
    SizesExact (setConfiguration 512 1000000 5000000 0x100000) 1000000 5000000 :=
  (setConfiguration_sizesExact_iff (k := 9) (j := 20) (by decide) (by decide) (by decide)
    (by decide) (by decide +kernel)).mpr (by decide +kernel)

/-- The size of an image with a kernel of 4 GiB is that of what lies beside the kernel. -/
theorem setConfiguration_not_sizesExact :
    ¬ ∀ (LBASizeBytes : U16) (efiSizeBytes kernelSizeBytes : U64) (alignmentSizeBytes : U32)
        (k j : Nat), IsTwoPow LBASizeBytes k → 9 ≤ k → k ≤ 12 → IsTwoPow alignmentSizeBytes j →
      imageLBA (2 ^ k) (blockAlignment (2 ^ k) alignmentSizeBytes.toNat)
        (fileLBA (2 ^ k) efiSizeBytes.toNat) (fileLBA (2 ^ k) kernelSizeBytes.toNat) < 2 ^ 32 →
      SizesExact (setConfiguration LBASizeBytes efiSizeBytes kernelSizeBytes alignmentSizeBytes)
        efiSizeBytes kernelSizeBytes := by
  intro hclaim
  have htotal := (hclaim 512 3 0x100000000 512 9 9 (by decide) (by decide) (by decide)
    (by decide) (by decide +kernel)).total
  revert htotal
  decide +kernel

end Homegrown.ImageBuilder
