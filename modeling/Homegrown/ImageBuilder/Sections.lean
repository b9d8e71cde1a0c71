import Homegrown.Core.Span
import Homegrown.ImageBuilder.Geometry
import Homegrown.ImageBuilder.Gpt

/-!
# The sections of an image

The protective MBR, the two copies of the GPT and the two partitions follow each other up to
the end of the image. The partitions start at the alignment that was asked for when masking
rounds up to it, and the macros do so for powers of two; `main` passes on any number.
-/

namespace Homegrown.ImageBuilder

/-- `GPTTableAlignmentSizeBytes` in `main`. -/
def GPTTableAlignmentSizeBytes (physicalBoundary optimalTransferLengthGranularity : U32) : U32 :=
  if physicalBoundary ≠ 0 ∨ optimalTransferLengthGranularity ≠ 0 then
    maxValue physicalBoundary optimalTransferLengthGranularity
  else 0x100000

/-- The blocks that a copy touches. -/
def Copy.blocks (copy : Copy) (L : Nat) : Span :=
  ⟨copy.address.toNat / L, (copy.address.toNat + copy.data.length + (L - 1)) / L -
    copy.address.toNat / L⟩

/-- The blocks of a partition. -/
def GPTPartitionEntry.blocks (e : GPTPartitionEntry) : Span :=
  ⟨e.startingLBA.toNat, e.endingLBA.toNat + 1 - e.startingLBA.toNat⟩

/-- The protective MBR, the primary GPT header and table, the EFI system partition, the data
partition, and the backup GPT table and header. -/
def sections (c : Configuration) : List Span :=
  let copies := (writeMBR c ++ writeGPTs c).map fun copy => copy.blocks c.LBASizeBytes.toNat
  copies.take 3 ++ [(efiSystemPartitionEntry c).blocks, (dataPartitionEntry c).blocks] ++
    copies.drop 3

/-- Both partitions start at the alignment, when that is a number of blocks. -/
def Configuration.PartitionsAligned (c : Configuration) (alignmentSizeBytes : U32) : Prop :=
  c.LBASizeBytes.toNat ∣ alignmentSizeBytes.toNat →
    ∀ e ∈ [efiSystemPartitionEntry c, dataPartitionEntry c],
      alignmentSizeBytes.toNat ∣ e.startingLBA.toNat * c.LBASizeBytes.toNat

/-- The image is laid out as the tables say, with both partitions at the alignment. -/
structure LaidOut (c : Configuration) (alignmentSizeBytes : U32) : Prop where
  ordered : (sections c).IsChain fun s t => s.stop ≤ t.start
  disjoint : (sections c).Pairwise Span.Disjoint
  nonempty : ∀ s ∈ sections c, 0 < s.size
  ends : (sections c).getLast?.map Span.stop = some c.totalImageSizeLBA.toNat
  usable : ∀ e ∈ [efiSystemPartitionEntry c, dataPartitionEntry c],
    ∀ header ∈ [primaryGPTHeader c, backupGPTHeader c],
      header.firstUsableLBA ≤ e.startingLBA ∧ e.startingLBA ≤ e.endingLBA ∧
        e.endingLBA ≤ header.lastUsableLBA
  aligned : c.PartitionsAligned alignmentSizeBytes

/-! ## The plan for any alignment -/

/-- The alignment in blocks of `L` bytes. -/
def blockAlignment (L alignmentSizeBytes : Nat) : Nat :=
  if L < alignmentSizeBytes then alignmentSizeBytes / L else 1

/-- The blocks before the EFI system partition: the MBR, and the primary GPT. -/
def tablesLBA (L : Nat) : Nat := 2 + 16384 / L

/-- The blocks of a file of so many bytes. -/
def fileLBA (L bytes : Nat) : Nat := (bytes + (L - 1)) / L

/-- The data clusters, rounded up with masks. -/
def maskedClusters (blocks a : Nat) : Nat := maskUp (max 65526 (blocks + 2)) a

/-- The sectors of the EFI system partition, before they are rounded up. -/
def partitionSectors (L a blocks : Nat) : Nat :=
  maskUp (reservedAndFATSectors (maskedClusters blocks a) (L / 4)) a + maskedClusters blocks a

/-- The blocks of the image. -/
def imageLBA (L a efiBlocks kernelBlocks : Nat) : Nat :=
  maskUp (tablesLBA L) a + maskUp (partitionSectors L a efiBlocks) a + kernelBlocks +
    (16384 / L + 1)

section Plan

variable {LBASizeBytes : U16} {alignmentSizeBytes alignmentLBA : U32} {k : Nat}

theorem toNat_alignmentInLBA (alignmentSizeBytes : U32) (hL : IsTwoPow LBASizeBytes k) :
    (alignmentInLBA LBASizeBytes alignmentSizeBytes).toNat =
      blockAlignment (2 ^ k) alignmentSizeBytes.toNat := by
  have hwide : (LBASizeBytes.setWidth 32).toNat = 2 ^ k := isTwoPow_setWidth hL (by norm_num)
  unfold alignmentInLBA blockAlignment
  by_cases hlt : LBASizeBytes.setWidth 32 < alignmentSizeBytes
  · rw [if_pos hlt, if_pos (hwide ▸ BitVec.lt_def.mp hlt), BitVec.toNat_udiv, hwide]
  · rw [if_neg hlt, if_neg (hwide ▸ mt BitVec.lt_def.mpr hlt)]
    rfl

theorem blockAlignment_pos {L : Nat} (bytes : Nat) (hL : 0 < L) : 0 < blockAlignment L bytes := by
  unfold blockAlignment
  split
  · rename_i hlt
    exact Nat.div_pos hlt.le hL
  · exact Nat.one_pos

theorem blockAlignment_lt (alignmentSizeBytes : U32) (hk : 9 ≤ k) :
    blockAlignment (2 ^ k) alignmentSizeBytes.toNat < 2 ^ 23 := by
  have hpow : 2 ^ 9 ≤ 2 ^ k := Nat.pow_le_pow_right (by norm_num) hk
  have hlt := alignmentSizeBytes.isLt
  unfold blockAlignment
  split
  · rw [Nat.div_lt_iff_lt_mul (by positivity)]
    omega
  · norm_num

/-- A file of fewer blocks than a 32-bit number has as many. -/
theorem toNat_sizeInLBA_of_lt (hL : IsTwoPow LBASizeBytes k) (hk : k ≤ 12) (bytes : U64)
    (hfits : fileLBA (2 ^ k) bytes.toNat < 2 ^ 32) :
    (sizeInLBA LBASizeBytes bytes).toNat = fileLBA (2 ^ k) bytes.toNat := by
  have hpow : 2 ^ k ≤ 2 ^ 12 := Nat.pow_le_pow_right (by norm_num) hk
  have hsum : bytes.toNat + (2 ^ k - 1) < 2 ^ 64 := by
    rw [fileLBA, Nat.div_lt_iff_lt_mul (by positivity)] at hfits
    have hle := Nat.mul_le_mul_left (2 ^ 32) hpow
    omega
  rw [toNat_sizeInLBA hL, Nat.mod_eq_of_lt hsum]
  exact Nat.mod_eq_of_lt hfits

/-- No sum of the plan leaves 32 bits. -/
structure PlanFits (L a efiBlocks kernelBlocks : Nat) : Prop where
  tables : tablesLBA L + (a - 1) < 2 ^ 32
  required : max 65526 (efiBlocks + 2) + (a - 1) < 2 ^ 32
  entries : maskedClusters efiBlocks a + L / 4 ≤ 2 ^ 32
  reserved : reservedAndFATSectors (maskedClusters efiBlocks a) (L / 4) + (a - 1) < 2 ^ 32
  partition : partitionSectors L a efiBlocks + (a - 1) < 2 ^ 32
  image : imageLBA L a efiBlocks kernelBlocks < 2 ^ 32

/-- The sectors of one FAT. -/
def maskedFATSectors (L a efiBlocks : Nat) : Nat :=
  (maskUp (reservedAndFATSectors (maskedClusters efiBlocks a) (L / 4)) a - 32) / 2

/-- The plan of the EFI system partition has the planned values. -/
structure PlannedPartition (p : EFIPartition) (L a efiBlocks : Nat) : Prop where
  bytesPerSector : p.bytesPerSector.toNat = L
  clusters : p.dataClustersCount.toNat = maskedClusters efiBlocks a
  FATSectors : p.FATSize32Sectors.toNat = maskedFATSectors L a efiBlocks
  total : p.totalSectors32Bit.toNat = partitionSectors L a efiBlocks

/-- While no sum wraps, the EFI system partition is planned. -/
theorem calculateEFIPartitionSize_planned (hL : IsTwoPow LBASizeBytes k) (hk : 9 ≤ k)
    {alignmentLBA blocks : U32} {kernelBlocks : Nat} (ha : 0 < alignmentLBA.toNat)
    (hfits : PlanFits (2 ^ k) alignmentLBA.toNat blocks.toNat kernelBlocks) :
    PlannedPartition (calculateEFIPartitionSize LBASizeBytes alignmentLBA blocks) (2 ^ k)
      alignmentLBA.toNat blocks.toNat := by
  have hrequired := hfits.required
  have hpartition := hfits.partition
  have hmax := requiredDataClusters_eq (n := blocks)
  rw [Nat.mod_eq_of_lt (by omega)] at hmax
  have hclusters : (dataClustersCount alignmentLBA blocks).toNat =
      maskedClusters blocks.toNat alignmentLBA.toNat := by
    rw [maskedClusters, ← hmax]
    exact toNat_alignUpValue_mask ha (by rw [hmax]; exact hrequired)
  have hq : 2 ^ (k - 2) = 2 ^ k / 4 := by
    rw [show 4 = 2 ^ 2 by rfl, Nat.pow_div (by omega) (by norm_num)]
  have hreserved := @toNat_reservedAndFATSectors_of_lt _ _ (dataClustersCount alignmentLBA blocks)
    hL (by omega)
    (by rw [hclusters, hq]; exact hfits.entries)
    (by rw [hclusters, hq]; exact (Nat.le_add_right _ _).trans_lt hfits.reserved)
  rw [hclusters, hq] at hreserved
  have hFAT : (reservedAndFATSizeSectors LBASizeBytes alignmentLBA
      (dataClustersCount alignmentLBA blocks)).toNat = maskUp (reservedAndFATSectors
        (maskedClusters blocks.toNat alignmentLBA.toNat) (2 ^ k / 4)) alignmentLBA.toNat := by
    rw [← hreserved]
    exact toNat_alignUpValue_mask ha (by rw [hreserved]; exact hfits.reserved)
  refine ⟨hL, hclusters, ?_, ?_⟩
  · have hle := le_maskUp (reservedAndFATSectors
      (maskedClusters blocks.toNat alignmentLBA.toNat) (2 ^ k / 4)) alignmentLBA.toNat
    have h32 := Nat.le_add_right 32 (2 * ((maskedClusters blocks.toNat alignmentLBA.toNat +
      (2 ^ k / 4 - 1)) / (2 ^ k / 4)))
    rw [← reservedAndFATSectors] at h32
    change ((reservedAndFATSizeSectors LBASizeBytes alignmentLBA
      (dataClustersCount alignmentLBA blocks) -
        ParameterBlock.reservedSectors.setWidth 32) / ParameterBlock.FATs.setWidth 32).toNat = _
    rw [BitVec.toNat_udiv, BitVec.toNat_sub_of_le, hFAT]
    · rfl
    · rw [BitVec.le_def, hFAT]
      exact h32.trans hle
  · change (reservedAndFATSizeSectors LBASizeBytes alignmentLBA
      (dataClustersCount alignmentLBA blocks) + dataClustersCount alignmentLBA blocks).toNat = _
    rw [BitVec.toNat_add, hFAT, hclusters]
    exact Nat.mod_eq_of_lt ((Nat.le_add_right _ _).trans_lt hpartition)

/-- The configuration has the planned values. -/
structure Planned (c : Configuration) (L a efiBlocks kernelBlocks : Nat) : Prop where
  blockSize : c.LBASizeBytes.toNat = L
  tableSize : c.GPTPartitionTableSizeLBA.toNat = 16384 / L
  efiStart : c.EFISystemPartitionStartLBA.toNat = maskUp (tablesLBA L) a
  efiSize : c.EFISystemPartitionSizeLBA.toNat = maskUp (partitionSectors L a efiBlocks) a
  dataStart : c.dataPartitionStartLBA.toNat =
    maskUp (tablesLBA L) a + maskUp (partitionSectors L a efiBlocks) a
  dataSize : c.dataPartitionSizeLBA.toNat = kernelBlocks
  total : c.totalImageSizeLBA.toNat = imageLBA L a efiBlocks kernelBlocks

/-- While no sum wraps, the configuration has the planned values. -/
theorem setConfiguration_planned_of (hL : IsTwoPow LBASizeBytes k) (hk : 9 ≤ k) (hk' : k ≤ 12)
    {efiApplicationSizeBytes kernelSizeBytes : U64}
    (hfits : PlanFits (2 ^ k) (blockAlignment (2 ^ k) alignmentSizeBytes.toNat)
      (fileLBA (2 ^ k) efiApplicationSizeBytes.toNat)
      (fileLBA (2 ^ k) kernelSizeBytes.toNat)) :
    let c := setConfiguration LBASizeBytes efiApplicationSizeBytes kernelSizeBytes
      alignmentSizeBytes
    Planned c (2 ^ k) (blockAlignment (2 ^ k) alignmentSizeBytes.toNat)
        (fileLBA (2 ^ k) efiApplicationSizeBytes.toNat)
        (fileLBA (2 ^ k) kernelSizeBytes.toNat) ∧
      PlannedPartition c.efi (2 ^ k) (blockAlignment (2 ^ k) alignmentSizeBytes.toNat)
        (fileLBA (2 ^ k) efiApplicationSizeBytes.toNat) := by
  intro c
  have halign := toNat_alignmentInLBA alignmentSizeBytes hL
  have hpos : 0 < blockAlignment (2 ^ k) alignmentSizeBytes.toNat :=
    blockAlignment_pos _ (by positivity)
  generalize hc : c = c'
  generalize blockAlignment (2 ^ k) alignmentSizeBytes.toNat = a at *
  generalize hefi : fileLBA (2 ^ k) efiApplicationSizeBytes.toNat = efiBlocks at *
  generalize hkernel : fileLBA (2 ^ k) kernelSizeBytes.toNat = kernelBlocks at *
  have hblocks := hfits.image
  rw [imageLBA] at hblocks
  have htable0 := Nat.zero_le (16384 / 2 ^ k)
  have hrequired := hfits.required
  have hefiLBA := toNat_sizeInLBA_of_lt hL hk' efiApplicationSizeBytes (by
    rw [hefi]
    omega)
  have hkernelLBA := toNat_sizeInLBA_of_lt hL hk' kernelSizeBytes (by
    rw [hkernel]
    omega)
  have hwide : (LBASizeBytes.setWidth 32).toNat = 2 ^ k := isTwoPow_setWidth hL (by norm_num)
  have htable : (gptPartitionTableSize / LBASizeBytes.setWidth 32).toNat = 16384 / 2 ^ k := by
    rw [BitVec.toNat_udiv, hwide]
    rfl
  have htables := hfits.tables
  have hsum : (SectionsInLBASize.protectiveMBR.setWidth 32 +
      SectionsInLBASize.gptHeader.setWidth 32 +
        gptPartitionTableSize / LBASizeBytes.setWidth 32).toNat = tablesLBA (2 ^ k) := by
    rw [BitVec.toNat_add, htable]
    exact Nat.mod_eq_of_lt ((Nat.le_add_right _ _).trans_lt htables)
  have hstart : c'.EFISystemPartitionStartLBA.toNat = maskUp (tablesLBA (2 ^ k)) a := by
    rw [← hc, ← hsum, ← halign]
    exact toNat_alignUpValue_mask (by omega) (by rw [hsum, halign]; exact htables)
  have hpartition := @calculateEFIPartitionSize_planned _ _ hL hk
    (alignmentInLBA LBASizeBytes alignmentSizeBytes) (sizeInLBA LBASizeBytes
      efiApplicationSizeBytes) kernelBlocks (by omega) (by rw [halign, hefiLBA, hefi]; exact hfits)
  rw [halign, hefiLBA, hefi] at hpartition
  have htotal := hpartition.total
  have hsize : c'.EFISystemPartitionSizeLBA.toNat =
      maskUp (partitionSectors (2 ^ k) a efiBlocks) a := by
    rw [← hc, ← htotal, ← halign]
    exact toNat_alignUpValue_mask (by omega) (by rw [htotal, halign]; exact hfits.partition)
  have hdata : c'.dataPartitionStartLBA.toNat = maskUp (tablesLBA (2 ^ k)) a +
      maskUp (partitionSectors (2 ^ k) a efiBlocks) a := by
    have hadd : c'.dataPartitionStartLBA = c'.EFISystemPartitionStartLBA +
      c'.EFISystemPartitionSizeLBA := by rw [← hc]; rfl
    rw [hadd, BitVec.toNat_add, hstart, hsize, Nat.mod_eq_of_lt (by omega)]
  have hdataSize : c'.dataPartitionSizeLBA.toNat = kernelBlocks := by
    rw [← hc, ← hkernel, ← hkernelLBA]
    rfl
  refine ⟨⟨?_, ?_, hstart, hsize, hdata, hdataSize, ?_⟩, ?_⟩
  · rw [← hc]
    exact hL
  · rw [← hc]
    exact htable
  · have hadd : c'.totalImageSizeLBA = c'.dataPartitionStartLBA + c'.dataPartitionSizeLBA +
      (gptPartitionTableSize / LBASizeBytes.setWidth 32 +
        SectionsInLBASize.gptHeader.setWidth 32) := by rw [← hc]; rfl
    have hone : (SectionsInLBASize.gptHeader.setWidth 32 : U32).toNat = 1 := rfl
    rw [hadd, BitVec.toNat_add, BitVec.toNat_add, BitVec.toNat_add, hdata, hdataSize, htable, hone,
      imageLBA]
    omega
  · rw [← hc]
    exact hpartition

/-- A plan of an image below 4 GiB fits. -/
theorem planFits_of_bytes_lt {a efiBlocks kernelBlocks : Nat} (hk : 9 ≤ k) (hk' : k ≤ 12)
    (ha : a < 2 ^ 23) (hfits : imageLBA (2 ^ k) a efiBlocks kernelBlocks * 2 ^ k < 2 ^ 32) :
    PlanFits (2 ^ k) a efiBlocks kernelBlocks := by
  have hpow : 2 ^ 9 ≤ 2 ^ k := Nat.pow_le_pow_right (by norm_num) hk
  have hpow' : 2 ^ k ≤ 2 ^ 12 := Nat.pow_le_pow_right (by norm_num) hk'
  have hblocks : imageLBA (2 ^ k) a efiBlocks kernelBlocks < 2 ^ 23 := by
    have hle := Nat.mul_le_mul_left (imageLBA (2 ^ k) a efiBlocks kernelBlocks) hpow
    omega
  have himage := hblocks.trans (show 2 ^ 23 < 2 ^ 32 by norm_num)
  rw [imageLBA] at hblocks
  have htable0 := Nat.zero_le (16384 / 2 ^ k)
  have htables := le_maskUp (tablesLBA (2 ^ k)) a
  have hsectors := le_maskUp (partitionSectors (2 ^ k) a efiBlocks) a
  have hreserved := le_maskUp (reservedAndFATSectors (maskedClusters efiBlocks a) (2 ^ k / 4)) a
  have hclusters := le_maskUp (max 65526 (efiBlocks + 2)) a
  rw [← maskedClusters] at hclusters
  have hsum : partitionSectors (2 ^ k) a efiBlocks = maskUp (reservedAndFATSectors
    (maskedClusters efiBlocks a) (2 ^ k / 4)) a + maskedClusters efiBlocks a := rfl
  constructor <;> omega

/-- While no 32-bit quantity wraps, the configuration has the planned values. -/
theorem setConfiguration_planned (hL : IsTwoPow LBASizeBytes k) (hk : 9 ≤ k) (hk' : k ≤ 12)
    {efiApplicationSizeBytes kernelSizeBytes : U64}
    (hfits : imageLBA (2 ^ k) (blockAlignment (2 ^ k) alignmentSizeBytes.toNat)
      (fileLBA (2 ^ k) efiApplicationSizeBytes.toNat)
      (fileLBA (2 ^ k) kernelSizeBytes.toNat) * 2 ^ k < 2 ^ 32) :
    Planned (setConfiguration LBASizeBytes efiApplicationSizeBytes kernelSizeBytes
      alignmentSizeBytes) (2 ^ k) (blockAlignment (2 ^ k) alignmentSizeBytes.toNat)
      (fileLBA (2 ^ k) efiApplicationSizeBytes.toNat)
      (fileLBA (2 ^ k) kernelSizeBytes.toNat) :=
  (setConfiguration_planned_of hL hk hk' (planFits_of_bytes_lt hk hk'
    (blockAlignment_lt alignmentSizeBytes hk) hfits)).1

end Plan

/-! ## The sections of a planned image -/

section Sections

variable {c : Configuration} {L a efiBlocks kernelBlocks k : Nat}

/-- A copy to the start of a block touches as many blocks as its bytes fill. -/
theorem Copy.blocks_eq {address : U64} {data : List U8} {b n : Nat} (hL : 0 < L)
    (h : address.toNat = b * L) (hn : (data.length + (L - 1)) / L = n) :
    Copy.blocks ⟨address, data⟩ L = ⟨b, n⟩ := by
  rw [Copy.blocks, h, Nat.mul_div_cancel b hL, Nat.add_assoc, Nat.mul_comm, Nat.mul_add_div hL,
    Nat.add_sub_cancel_left, hn]

/-- The sectors of the EFI system partition are more than the data clusters. -/
theorem partitionSectors_pos : 0 < partitionSectors L a efiBlocks := by
  have hle := le_maskUp (max 65526 (efiBlocks + 2)) a
  rw [partitionSectors, maskedClusters]
  omega

namespace Planned

variable (h : Planned c L a efiBlocks kernelBlocks)

include h

theorem image_eq : c.totalImageSizeLBA.toNat = c.dataPartitionStartLBA.toNat +
    c.dataPartitionSizeLBA.toNat + (c.GPTPartitionTableSizeLBA.toNat + 1) := by
  rw [h.total, h.dataStart, h.dataSize, h.tableSize, imageLBA]

theorem data_eq : c.dataPartitionStartLBA.toNat =
    c.EFISystemPartitionStartLBA.toNat + c.EFISystemPartitionSizeLBA.toNat := by
  rw [h.dataStart, h.efiStart, h.efiSize]

theorem tables_le : 2 + c.GPTPartitionTableSizeLBA.toNat ≤ c.EFISystemPartitionStartLBA.toNat := by
  rw [h.tableSize, h.efiStart]
  exact le_maskUp (tablesLBA L) a

theorem efiSize_pos : 0 < c.EFISystemPartitionSizeLBA.toNat := by
  rw [h.efiSize]
  exact partitionSectors_pos.trans_le (le_maskUp _ a)

/-- The last block before the backup table. -/
theorem toNat_lastUsableLBA : (primaryGPTHeader c).lastUsableLBA.toNat + 1 =
    c.dataPartitionStartLBA.toNat + c.dataPartitionSizeLBA.toNat := by
  have htotal := h.image_eq
  have hpos := h.efiSize_pos
  have hdata := h.data_eq
  have hone : (SectionsInLBASize.gptHeader.setWidth 32 : U32) = 1#32 := rfl
  change ((c.totalImageSizeLBA - SectionsInLBASize.gptHeader.setWidth 32 -
    c.GPTPartitionTableSizeLBA - 1).setWidth 64).toNat + 1 = _
  rw [BitVec.toNat_setWidth_of_le (by norm_num), hone]
  bv_omega

theorem toNat_partitionTableLBA : (backupGPTHeader c).partitionTableLBA.toNat =
    c.dataPartitionStartLBA.toNat + c.dataPartitionSizeLBA.toNat := by
  have htotal := h.image_eq
  have hone : (SectionsInLBASize.gptHeader.setWidth 32 : U32) = 1#32 := rfl
  change ((c.totalImageSizeLBA - SectionsInLBASize.gptHeader.setWidth 32 -
    c.GPTPartitionTableSizeLBA).setWidth 64).toNat = _
  rw [BitVec.toNat_setWidth_of_le (by norm_num), hone]
  bv_omega

theorem toNat_backup_myLBA : (backupGPTHeader c).myLBA.toNat + 1 = c.totalImageSizeLBA.toNat := by
  have htotal := h.image_eq
  have hone : (SectionsInLBASize.gptHeader.setWidth 32 : U32) = 1#32 := rfl
  change ((c.totalImageSizeLBA - SectionsInLBASize.gptHeader.setWidth 32).setWidth 64).toNat + 1 = _
  rw [BitVec.toNat_setWidth_of_le (by norm_num), hone]
  bv_omega

end Planned

/-- The last block of a partition, whose first one and size are 32-bit numbers. -/
theorem toNat_endingLBA {start size : U32} (h : 0 < size.toNat) :
    ((start.setWidth 64 : U64) + size.setWidth 64 - 1).toNat + 1 = start.toNat + size.toNat := by
  have hstart : (start.setWidth 64 : U64).toNat = start.toNat :=
    BitVec.toNat_setWidth_of_le (by norm_num)
  have hsize : (size.setWidth 64 : U64).toNat = size.toNat :=
    BitVec.toNat_setWidth_of_le (by norm_num)
  have hlt := start.isLt
  have hlt' := size.isLt
  bv_omega

/-- The blocks of the entry of a partition. -/
theorem GPTPartitionEntry.blocks_eq {e : GPTPartitionEntry} {start size : U32}
    (hstart : e.startingLBA = start.setWidth 64)
    (hend : e.endingLBA = start.setWidth 64 + size.setWidth 64 - 1) (h : 0 < size.toNat) :
    e.blocks = ⟨start.toNat, size.toNat⟩ := by
  have hwide : (start.setWidth 64 : U64).toNat = start.toNat :=
    BitVec.toNat_setWidth_of_le (by norm_num)
  rw [GPTPartitionEntry.blocks, hstart, hend, toNat_endingLBA h, hwide, Nat.add_sub_cancel_left]

/-- The address of a block whose bytes are within the image. -/
theorem Planned.toNat_address (h : Planned c L a efiBlocks kernelBlocks) {b : U64}
    (hb : b.toNat * L < 2 ^ 32) : (b * c.LBASizeBytes.setWidth 64).toNat = b.toNat * L := by
  have hwide : (c.LBASizeBytes.setWidth 64).toNat = L := by
    rw [BitVec.toNat_setWidth_of_le (by norm_num), h.blockSize]
  rw [BitVec.toNat_mul, hwide, Nat.mod_eq_of_lt (hb.trans (by norm_num))]

/-- Bytes that fill a block or less are in one block. -/
theorem blocks_one {bytes : Nat} (hpos : 0 < bytes) (hle : bytes ≤ 2 ^ k) :
    (bytes + (2 ^ k - 1)) / 2 ^ k = 1 :=
  Nat.div_eq_of_lt_le (by omega) (by omega)

/-- The entries of a table fill whole blocks. -/
theorem blocks_table (hk : k ≤ 14) : (16384 + (2 ^ k - 1)) / 2 ^ k = 16384 / 2 ^ k := by
  have hpos : 0 < 2 ^ k := by positivity
  obtain ⟨d, hd⟩ : 2 ^ k ∣ 16384 := show 2 ^ k ∣ 2 ^ 14 from pow_dvd_pow 2 hk
  rw [hd, Nat.mul_add_div hpos, Nat.div_eq_of_lt (show 2 ^ k - 1 < 2 ^ k by omega), Nat.add_zero,
    Nat.mul_div_cancel_left d hpos]

/-- Where the copies of `writeGPTs` lie: the primary header and table, the backup table and
header. -/
theorem Planned.toNat_gptAddresses (h : Planned c (2 ^ k) a efiBlocks kernelBlocks)
    (hfits : imageLBA (2 ^ k) a efiBlocks kernelBlocks * 2 ^ k < 2 ^ 32) :
    ((1 : U64) * c.LBASizeBytes.setWidth 64).toNat = 1 * 2 ^ k ∧
      ((1 : U64) * c.LBASizeBytes.setWidth 64 + 1 * c.LBASizeBytes.setWidth 64).toNat =
        2 * 2 ^ k ∧
      ((backupGPTHeader c).partitionTableLBA * c.LBASizeBytes.setWidth 64).toNat =
        (backupGPTHeader c).partitionTableLBA.toNat * 2 ^ k ∧
      ((backupGPTHeader c).partitionTableLBA * c.LBASizeBytes.setWidth 64 +
        ((backupGPTHeader c).myLBA - (backupGPTHeader c).partitionTableLBA) *
          c.LBASizeBytes.setWidth 64).toNat = (c.totalImageSizeLBA.toNat - 1) * 2 ^ k := by
  have htotal := h.image_eq
  have hmy := h.toNat_backup_myLBA
  have hpt := h.toNat_partitionTableLBA
  rw [← h.total] at hfits
  have hpos : 0 < 2 ^ k := by positivity
  have hmyFits : (backupGPTHeader c).myLBA.toNat * 2 ^ k < 2 ^ 32 :=
    (Nat.mul_le_mul_right _ (by omega)).trans_lt hfits
  have hptFits : (backupGPTHeader c).partitionTableLBA.toNat * 2 ^ k < 2 ^ 32 :=
    (Nat.mul_le_mul_right _ (by rw [hpt, htotal]; omega)).trans_lt hfits
  have htwo : 2 * 2 ^ k < 2 ^ 32 :=
    (Nat.mul_le_mul_right _ (by
      have htables := h.tables_le
      have hdata := h.data_eq
      omega)).trans_lt hfits
  have hheader := h.toNat_address (b := 1) (by change 1 * 2 ^ k < 2 ^ 32; omega)
  have hdiff : ((backupGPTHeader c).myLBA - (backupGPTHeader c).partitionTableLBA).toNat =
      (backupGPTHeader c).myLBA.toNat - (backupGPTHeader c).partitionTableLBA.toNat := by
    apply BitVec.toNat_sub_of_le
    rw [BitVec.le_def]
    omega
  have hbackup := h.toNat_address hptFits
  refine ⟨hheader, ?_, hbackup, ?_⟩
  · rw [BitVec.toNat_add, hheader]
    exact Nat.mod_eq_of_lt (show 1 * 2 ^ k + 1 * 2 ^ k < 2 ^ 64 by omega) |>.trans (by ring)
  · rw [← Nat.eq_sub_of_add_eq hmy]
    have hle : (backupGPTHeader c).partitionTableLBA.toNat ≤ (backupGPTHeader c).myLBA.toNat := by
      omega
    have hmul := Nat.mul_le_mul_right (2 ^ k) hle
    rw [BitVec.toNat_add, hbackup, h.toNat_address (by rw [hdiff, Nat.sub_mul]; omega), hdiff,
      Nat.sub_mul, Nat.add_sub_cancel' hmul]
    exact Nat.mod_eq_of_lt (hmyFits.trans (by norm_num))

/-- The sections, one after the other. -/
theorem Planned.sections_eq (h : Planned c (2 ^ k) a efiBlocks kernelBlocks) (hk : 9 ≤ k)
    (hk' : k ≤ 12) (hkernel : 0 < kernelBlocks)
    (hfits : imageLBA (2 ^ k) a efiBlocks kernelBlocks * 2 ^ k < 2 ^ 32) :
    sections c = [⟨0, 1⟩, ⟨1, 1⟩, ⟨2, c.GPTPartitionTableSizeLBA.toNat⟩,
      ⟨c.EFISystemPartitionStartLBA.toNat, c.EFISystemPartitionSizeLBA.toNat⟩,
      ⟨c.dataPartitionStartLBA.toNat, c.dataPartitionSizeLBA.toNat⟩,
      ⟨c.dataPartitionStartLBA.toNat + c.dataPartitionSizeLBA.toNat,
        c.GPTPartitionTableSizeLBA.toNat⟩,
      ⟨c.totalImageSizeLBA.toNat - 1, 1⟩] := by
  have hpow : 2 ^ 9 ≤ 2 ^ k := Nat.pow_le_pow_right (by norm_num) hk
  have hpow' : 2 ^ k ≤ 2 ^ 12 := Nat.pow_le_pow_right (by norm_num) hk'
  have hpos : 0 < 2 ^ k := by positivity
  have hpt := h.toNat_partitionTableLBA
  obtain ⟨hheader, htable, hbackup, hbackupHeader⟩ := h.toNat_gptAddresses hfits
  have hone : (gptHeaderSize + (2 ^ k - 1)) / 2 ^ k = 1 :=
    blocks_one (by decide) (le_trans (by decide) hpow)
  have hentries : ((partitionEntries c).length + (2 ^ k - 1)) / 2 ^ k =
      c.GPTPartitionTableSizeLBA.toNat := by
    rw [length_partitionEntries, blocks_table (by omega), h.tableSize]
  have hprimary1 : ((primaryGPTHeader c).bytes.length + (2 ^ k - 1)) / 2 ^ k = 1 := by
    rw [length_primaryGPTHeader, hone]
  have hbackup1 : ((backupGPTHeader c).bytes.length + (2 ^ k - 1)) / 2 ^ k = 1 := by
    rw [length_backupGPTHeader, hone]
  have hmbr : ((protectiveMBR (c.totalImageSizeLBA.setWidth 64)).length + (2 ^ k - 1)) / 2 ^ k =
      1 := by
    rw [length_protectiveMBR]
    exact blocks_one (by norm_num) hpow
  have hzero : (0 : U64).toNat = 0 * 2 ^ k := by rw [Nat.zero_mul]; rfl
  have hefi := GPTPartitionEntry.blocks_eq (e := efiSystemPartitionEntry c) rfl rfl h.efiSize_pos
  have hdata := GPTPartitionEntry.blocks_eq (e := dataPartitionEntry c) rfl rfl
    (h.dataSize ▸ hkernel)
  have hmbrOne : (SectionsInLBASize.protectiveMBR.setWidth 64 : U64) = 1 := rfl
  have hgptOne : (SectionsInLBASize.gptHeader.setWidth 64 : U64) = 1 := rfl
  simp only [sections, writeMBR, writeGPTs, h.blockSize, hmbrOne, hgptOne, List.cons_append,
    List.nil_append, List.map_cons, List.map_nil, List.take_succ_cons, List.take_zero,
    List.drop_succ_cons, List.drop_zero]
  rw [Copy.blocks_eq hpos hzero hmbr, Copy.blocks_eq hpos hheader hprimary1,
    Copy.blocks_eq hpos htable hentries, hefi, hdata, Copy.blocks_eq hpos hbackup hentries,
    Copy.blocks_eq hpos hbackupHeader hbackup1, hpt]

/-- The table has a block. -/
theorem Planned.table_pos (h : Planned c (2 ^ k) a efiBlocks kernelBlocks) (hk' : k ≤ 12) :
    0 < c.GPTPartitionTableSizeLBA.toNat := by
  have hpow' : 2 ^ k ≤ 2 ^ 12 := Nat.pow_le_pow_right (by norm_num) hk'
  rw [h.tableSize]
  exact Nat.div_pos (by omega) (by positivity)

/-- The partitions start after the primary tables, have a block and end before the backup
tables. -/
theorem Planned.usable (h : Planned c L a efiBlocks kernelBlocks) (hkernel : 0 < kernelBlocks) :
    ∀ e ∈ [efiSystemPartitionEntry c, dataPartitionEntry c],
      ∀ header ∈ [primaryGPTHeader c, backupGPTHeader c],
        header.firstUsableLBA ≤ e.startingLBA ∧ e.startingLBA ≤ e.endingLBA ∧
          e.endingLBA ≤ header.lastUsableLBA := by
  have hefi := h.efiSize_pos
  have hdata : 0 < c.dataPartitionSizeLBA.toNat := h.dataSize ▸ hkernel
  have hefiStart : (efiSystemPartitionEntry c).startingLBA.toNat =
      c.EFISystemPartitionStartLBA.toNat := BitVec.toNat_setWidth_of_le (by norm_num)
  have hdataStart : (dataPartitionEntry c).startingLBA.toNat = c.dataPartitionStartLBA.toNat :=
    BitVec.toNat_setWidth_of_le (by norm_num)
  have hefiEnd : (efiSystemPartitionEntry c).endingLBA.toNat + 1 =
      c.EFISystemPartitionStartLBA.toNat + c.EFISystemPartitionSizeLBA.toNat := toNat_endingLBA hefi
  have hdataEnd : (dataPartitionEntry c).endingLBA.toNat + 1 =
      c.dataPartitionStartLBA.toNat + c.dataPartitionSizeLBA.toNat := toNat_endingLBA hdata
  have hlast := h.toNat_lastUsableLBA
  have htables := h.tables_le
  have hfirst :
      (primaryGPTHeader c).firstUsableLBA.toNat = 2 + c.GPTPartitionTableSizeLBA.toNat := by
    have hlt := c.EFISystemPartitionStartLBA.isLt
    change (((2 : U32) + c.GPTPartitionTableSizeLBA).setWidth 64).toNat = _
    rw [BitVec.toNat_setWidth_of_le (by norm_num), BitVec.toNat_add]
    exact Nat.mod_eq_of_lt (htables.trans_lt hlt)
  have hseq := h.data_eq
  -- The two headers agree on the usable blocks.
  have hheaders : ∀ header ∈ [primaryGPTHeader c, backupGPTHeader c],
      header.firstUsableLBA = (primaryGPTHeader c).firstUsableLBA ∧
        header.lastUsableLBA = (primaryGPTHeader c).lastUsableLBA := by
    intro header hmem
    rcases List.mem_pair.mp hmem with rfl | rfl
    · exact ⟨rfl, rfl⟩
    · exact ⟨rfl, rfl⟩
  intro e he header hmem
  obtain ⟨h1, h2⟩ := hheaders header hmem
  rw [h1, h2, BitVec.le_def, BitVec.le_def, BitVec.le_def]
  rcases List.mem_pair.mp he with rfl | rfl
  · omega
  · omega

/-- The sections of a planned image are in order, whatever the alignment. -/
theorem Planned.laidOut_iff (h : Planned c (2 ^ k) a efiBlocks kernelBlocks) (hk : 9 ≤ k)
    (hk' : k ≤ 12) (hkernel : 0 < kernelBlocks)
    (hfits : imageLBA (2 ^ k) a efiBlocks kernelBlocks * 2 ^ k < 2 ^ 32)
    {alignmentSizeBytes : U32} :
    LaidOut c alignmentSizeBytes ↔ c.PartitionsAligned alignmentSizeBytes := by
  have hseq := h.sections_eq hk hk' hkernel hfits
  have htable := h.table_pos hk'
  have htables := h.tables_le
  have hefi := h.efiSize_pos
  have hdata : 0 < c.dataPartitionSizeLBA.toNat := h.dataSize ▸ hkernel
  have hdataStart := h.data_eq
  have htotal := h.image_eq
  have hordered : (sections c).IsChain fun s t => s.stop ≤ t.start := by
    rw [hseq]
    simp only [List.isChain_cons_cons, List.IsChain.singleton, and_true, Span.stop]
    omega
  constructor
  · exact fun hlaid => hlaid.aligned
  · intro haligned
    refine ⟨hordered, Span.pairwise_disjoint_of_sorted hordered, ?_, ?_, h.usable hkernel, haligned⟩
    · rw [hseq]
      simp only [List.forall_mem_cons, List.not_mem_nil, false_implies, implies_true, and_true]
      omega
    · rw [hseq]
      simp only [List.getLast?_cons_cons, List.getLast?_singleton, Option.map_some, Span.stop,
        Option.some.injEq]
      omega

/-! ## When masking aligns -/

/-- What the mask clears is the remainder, for the start of the EFI system partition and for
its size in blocks. -/
def MasksAreRemainders (L a efiBlocks : Nat) : Prop :=
  ∀ x ∈ [tablesLBA L, partitionSectors L a efiBlocks],
    (x + (a - 1)) &&& (a - 1) = (x + (a - 1)) % a

/-- The alignment is no whole number of blocks, or a power of two of them, or one of the few
smaller numbers of blocks for which the masks happen to clear remainders. -/
def AlignmentApplies (L alignmentSizeBytes efiBlocks : Nat) : Prop :=
  L ∣ alignmentSizeBytes → (∃ j, alignmentSizeBytes / L = 2 ^ j) ∨
    (alignmentSizeBytes / L < tablesLBA L ∧
      MasksAreRemainders L (alignmentSizeBytes / L) efiBlocks)

/-- The masks align both partitions exactly for powers of two and the few smaller numbers. -/
theorem dvd_starts_iff (ha : 0 < a) :
    (a ∣ maskUp (tablesLBA L) a ∧ a ∣ maskUp (partitionSectors L a efiBlocks) a) ↔
      (∃ j, a = 2 ^ j) ∨ (a < tablesLBA L ∧ MasksAreRemainders L a efiBlocks) := by
  have hmasks : MasksAreRemainders L a efiBlocks ↔
      a ∣ maskUp (tablesLBA L) a ∧ a ∣ maskUp (partitionSectors L a efiBlocks) a := by
    rw [dvd_maskUp_iff ha, dvd_maskUp_iff ha]
    simp [MasksAreRemainders]
  rw [hmasks]
  constructor
  · rintro ⟨hstart, hsize⟩
    by_cases hlt : a < tablesLBA L
    · exact .inr ⟨hlt, hstart, hsize⟩
    · have htables : 0 < tablesLBA L := Nat.le_add_right_of_le (by norm_num)
      exact .inl ((dvd_maskUp_iff_two_pow htables (not_lt.mp hlt)).mp hstart)
  · rintro (⟨j, rfl⟩ | ⟨-, hstart, hsize⟩)
    · rw [maskUp_two_pow, maskUp_two_pow]
      exact ⟨dvd_roundUp, dvd_roundUp⟩
    · exact ⟨hstart, hsize⟩

/-- An alignment in bytes that is a number of blocks is that of the configuration. -/
theorem blockAlignment_mul {bytes : Nat} (hL : 0 < L) (hbytes : 0 < bytes) (hdvd : L ∣ bytes) :
    blockAlignment L bytes = bytes / L ∧ blockAlignment L bytes * L = bytes := by
  obtain ⟨d, rfl⟩ := hdvd
  have hd : 1 ≤ d := Nat.pos_of_mul_pos_left hbytes
  rw [Nat.mul_div_cancel_left d hL, blockAlignment]
  by_cases hlt : L < L * d
  · rw [if_pos hlt, Nat.mul_div_cancel_left d hL, Nat.mul_comm]
    exact ⟨rfl, rfl⟩
  · have hone : d = 1 := by
      by_contra hne
      exact hlt (lt_mul_of_one_lt_right hL (by omega))
    rw [if_neg hlt, hone, Nat.one_mul, Nat.mul_one]
    exact ⟨rfl, rfl⟩

theorem Planned.partitionsAligned_iff {alignmentSizeBytes : U32}
    (h : Planned c (2 ^ k) (blockAlignment (2 ^ k) alignmentSizeBytes.toNat) efiBlocks kernelBlocks)
    (hbytes : 0 < alignmentSizeBytes.toNat) :
    c.PartitionsAligned alignmentSizeBytes ↔
      AlignmentApplies (2 ^ k) alignmentSizeBytes.toNat efiBlocks := by
  rw [Configuration.PartitionsAligned, AlignmentApplies, h.blockSize]
  apply imp_congr_right
  intro hdvd
  obtain ⟨hdiv, hmul⟩ := blockAlignment_mul (by positivity) hbytes hdvd
  have hpos : 0 < blockAlignment (2 ^ k) alignmentSizeBytes.toNat :=
    blockAlignment_pos _ (by positivity)
  rw [← hdiv]
  generalize blockAlignment (2 ^ k) alignmentSizeBytes.toNat = a at *
  have hefiStart : (efiSystemPartitionEntry c).startingLBA.toNat = maskUp (tablesLBA (2 ^ k)) a :=
    (BitVec.toNat_setWidth_of_le (by norm_num)).trans h.efiStart
  have hdataStart : (dataPartitionEntry c).startingLBA.toNat = maskUp (tablesLBA (2 ^ k)) a +
      maskUp (partitionSectors (2 ^ k) a efiBlocks) a :=
    (BitVec.toNat_setWidth_of_le (by norm_num)).trans h.dataStart
  have hblock : 0 < 2 ^ k := by positivity
  rw [← dvd_starts_iff hpos, ← hmul]
  simp only [List.forall_mem_cons, List.not_mem_nil, false_implies, implies_true, and_true,
    hefiStart, hdataStart, Nat.mul_dvd_mul_iff_right hblock]
  constructor
  · rintro ⟨hstart, hsum⟩
    exact ⟨hstart, (Nat.dvd_add_right hstart).mp hsum⟩
  · rintro ⟨hstart, hsize⟩
    exact ⟨hstart, Nat.dvd_add hstart hsize⟩

/-- `main` never asks for an alignment of no bytes. -/
theorem GPTTableAlignmentSizeBytes_pos (physicalBoundary optimalTransferLengthGranularity : U32) :
    0 < (GPTTableAlignmentSizeBytes physicalBoundary optimalTransferLengthGranularity).toNat := by
  unfold GPTTableAlignmentSizeBytes
  split
  · rename_i h
    rw [toNat_maxValue]
    have hzero (v : U32) (hv : v ≠ 0) : 0 < v.toNat :=
      Nat.pos_of_ne_zero fun h0 => hv (BitVec.eq_of_toNat_eq h0)
    rcases h with h | h
    · exact lt_max_of_lt_left (hzero _ h)
    · exact lt_max_of_lt_right (hzero _ h)
  · decide

/-- While no 32-bit quantity wraps, an image is laid out as its tables say, with the partitions
at the alignment, exactly when the alignment applies. -/
theorem setConfiguration_laidOut_iff {LBASizeBytes : U16}
    {efiApplicationSizeBytes kernelSizeBytes : U64}
    {physicalBoundary optimalTransferLengthGranularity : U32}
    (hL : IsTwoPow LBASizeBytes k) (hk : 9 ≤ k) (hk' : k ≤ 12)
    (hkernel : 1 ≤ kernelSizeBytes.toNat)
    (hfits : imageLBA (2 ^ k) (blockAlignment (2 ^ k) (GPTTableAlignmentSizeBytes physicalBoundary
        optimalTransferLengthGranularity).toNat) (fileLBA (2 ^ k) efiApplicationSizeBytes.toNat)
      (fileLBA (2 ^ k) kernelSizeBytes.toNat) * 2 ^ k < 2 ^ 32) :
    let alignment := GPTTableAlignmentSizeBytes physicalBoundary optimalTransferLengthGranularity
    LaidOut (setConfiguration LBASizeBytes efiApplicationSizeBytes kernelSizeBytes alignment)
        alignment ↔
      AlignmentApplies (2 ^ k) alignment.toNat (fileLBA (2 ^ k) efiApplicationSizeBytes.toNat) := by
  intro alignment
  have hplanned := setConfiguration_planned hL hk hk' hfits
  have hblocks : 0 < fileLBA (2 ^ k) kernelSizeBytes.toNat :=
    Nat.div_pos (by omega) (by positivity)
  rw [hplanned.laidOut_iff hk hk' hblocks hfits,
    hplanned.partitionsAligned_iff (GPTTableAlignmentSizeBytes_pos _ _)]

end Sections

/-- An application of a million bytes and a kernel of five, without an alignment asked for. -/
theorem setConfiguration_laidOut_million :
    LaidOut (setConfiguration 512 1000000 5000000 (GPTTableAlignmentSizeBytes 0 0))
      (GPTTableAlignmentSizeBytes 0 0) :=
  (setConfiguration_laidOut_iff (k := 9) (by decide) (by decide) (by decide) (by decide)
    (by decide +kernel)).mpr fun _ => .inl ⟨11, by decide⟩

/-- With an optimal transfer length of 1.5 MiB, 3072 blocks of 512 bytes, the EFI system
partition starts at block 1024. -/
theorem setConfiguration_not_laidOut :
    ¬ ∀ (LBASizeBytes : U16) (efiApplicationSizeBytes kernelSizeBytes : U64)
        (physicalBoundary optimalTransferLengthGranularity : U32) (k : Nat),
      let alignment := GPTTableAlignmentSizeBytes physicalBoundary optimalTransferLengthGranularity
      IsTwoPow LBASizeBytes k → 9 ≤ k → k ≤ 12 → 1 ≤ efiApplicationSizeBytes.toNat →
      1 ≤ kernelSizeBytes.toNat →
      imageLBA (2 ^ k) (blockAlignment (2 ^ k) alignment.toNat)
        (fileLBA (2 ^ k) efiApplicationSizeBytes.toNat)
        (fileLBA (2 ^ k) kernelSizeBytes.toNat) * 2 ^ k < 2 ^ 32 →
      LaidOut (setConfiguration LBASizeBytes efiApplicationSizeBytes kernelSizeBytes alignment)
        alignment := by
  intro h
  have hlaid := h 512 1000000 5000000 0 1572864 9 (by decide) (by decide) (by decide) (by decide)
    (by decide) (by decide +kernel)
  have haligned := hlaid.aligned (by decide +kernel) _ (List.mem_cons_self ..)
  revert haligned
  decide +kernel

end Homegrown.ImageBuilder
