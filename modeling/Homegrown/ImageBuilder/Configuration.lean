import Homegrown.Shared.Maths

/-!
# The configuration of an image

`setConfiguration` lays out the image in blocks of `LBASizeBytes` bytes: protective
MBR, GPT, the EFI system partition, the data partition and the backup GPT. The size of
the EFI system partition comes from `calculateEFIPartitionSize`, which plans a FAT32 file
system with one sector for each cluster and keeps the plan in static variables. All
quantities have the widths of the source and wrap as they do there.
-/

namespace Homegrown.ImageBuilder

/-- `GPT_PARTITION_TABLE_SIZE`, 16 KiB. -/
def gptPartitionTableSize : U32 := 0x4000

/-- `SectionsInLBASize.PROTECTIVE_MBR`. -/
def SectionsInLBASize.protectiveMBR : U16 := 1

/-- `SectionsInLBASize.GPT_HEADER`. -/
def SectionsInLBASize.gptHeader : U16 := 1

/-- `MIN_CLUSTERS_OF_FAT32`. -/
def minClustersOfFAT32 : U32 := 65526

/-- `RESERVED_CLUSTER_INDICES`. -/
def reservedClusterIndices : U32 := 2

/-- `SectorSize.DATA_FILE`. -/
def SectorSize.dataFile : U8 := 1

/-- `SectorSize.DISK_FILE`. -/
def SectorSize.diskFile : U8 := 1

/-- `parameterBlock.sectorsPerCluster`. -/
def ParameterBlock.sectorsPerCluster : U8 := 1

/-- `parameterBlock.reservedSectors`. -/
def ParameterBlock.reservedSectors : U16 := 32

/-- `parameterBlock.FATs`. -/
def ParameterBlock.FATs : U8 := 2

/-- `DATA_CLUSTERS_COUNT`, as `calculateEFIPartitionSize` sets it. -/
def dataClustersCount (alignmentLBA EFIApplicationSizeLBA : U32) : U32 :=
  let requiredDataClusters := maxValue minClustersOfFAT32
    (ParameterBlock.sectorsPerCluster.setWidth 32 * (EFIApplicationSizeLBA +
      SectorSize.dataFile.setWidth 32 + SectorSize.diskFile.setWidth 32))
  alignUpValue requiredDataClusters alignmentLBA

/-- `reservedAndFATSizeSectors` in `calculateEFIPartitionSize`. -/
def reservedAndFATSizeSectors (LBASizeBytes : U16) (alignmentLBA dataClustersCount : U32) : U32 :=
  let requiredFATSizeSectors := ceilingDivValue dataClustersCount (LBASizeBytes.setWidth 32 / 4)
  alignUpValue (ParameterBlock.reservedSectors.setWidth 32 +
    requiredFATSizeSectors * ParameterBlock.FATs.setWidth 32) alignmentLBA

/-- What `calculateEFIPartitionSize` computes: the fields of `parameterBlock` it sets, and
`DATA_CLUSTERS_COUNT` and `FAT_SIZE_BYTES`. -/
structure EFIPartition where
  bytesPerSector : U16
  dataClustersCount : U32
  FATSize32Sectors : U32
  FATSizeBytes : U32
  totalSectors32Bit : U32
  deriving DecidableEq, Repr

/-- `calculateEFIPartitionSize`. -/
def calculateEFIPartitionSize (LBASizeBytes : U16) (alignmentLBA EFIApplicationSizeLBA : U32) :
    EFIPartition :=
  let bytesPerSector := LBASizeBytes
  let dataClustersCount := dataClustersCount alignmentLBA EFIApplicationSizeLBA
  let reservedAndFATSizeSectors :=
    reservedAndFATSizeSectors LBASizeBytes alignmentLBA dataClustersCount
  let FATSize32Sectors := (reservedAndFATSizeSectors -
    ParameterBlock.reservedSectors.setWidth 32) / ParameterBlock.FATs.setWidth 32
  { bytesPerSector
    dataClustersCount
    FATSize32Sectors
    FATSizeBytes := FATSize32Sectors * bytesPerSector.setWidth 32
    totalSectors32Bit := reservedAndFATSizeSectors + dataClustersCount }

/-- `Configuration`, with the plan of the EFI system partition. -/
structure Configuration where
  LBASizeBytes : U16
  alignmentLBA : U32
  totalImageSizeLBA : U32
  totalImageSizeBytes : U64
  GPTPartitionTableSizeLBA : U32
  EFISystemPartitionStartLBA : U32
  EFISystemPartitionSizeLBA : U32
  dataPartitionStartLBA : U32
  dataPartitionSizeLBA : U32
  efi : EFIPartition
  deriving DecidableEq, Repr

/-- The alignment in blocks: it stays 1 unless a larger one is asked for. -/
def alignmentInLBA (LBASizeBytes : U16) (alignmentSizeBytes : U32) : U32 :=
  if LBASizeBytes.setWidth 32 < alignmentSizeBytes then
    alignmentSizeBytes / LBASizeBytes.setWidth 32
  else 1

/-- The size of a file in blocks, cut to 32 bits. -/
def sizeInLBA (LBASizeBytes : U16) (sizeBytes : U64) : U32 :=
  (ceilingDivValue sizeBytes (LBASizeBytes.setWidth 64)).setWidth 32

/-- `setConfiguration`, for a block size. -/
def setConfiguration (LBASizeBytes : U16) (efiApplicationSizeBytes kernelSizeBytes : U64)
    (alignmentSizeBytes : U32) : Configuration :=
  let alignmentLBA := alignmentInLBA LBASizeBytes alignmentSizeBytes
  -- MBR + primary GPT
  let GPTPartitionTableSizeLBA := gptPartitionTableSize / LBASizeBytes.setWidth 32
  let EFISystemPartitionStartLBA := alignUpValue
    (SectionsInLBASize.protectiveMBR.setWidth 32 + SectionsInLBASize.gptHeader.setWidth 32 +
      GPTPartitionTableSizeLBA) alignmentLBA
  -- EFI Partition
  let efi := calculateEFIPartitionSize LBASizeBytes alignmentLBA
    (sizeInLBA LBASizeBytes efiApplicationSizeBytes)
  let EFISystemPartitionSizeLBA := alignUpValue efi.totalSectors32Bit alignmentLBA
  -- Data Partition
  let dataPartitionStartLBA := EFISystemPartitionStartLBA + EFISystemPartitionSizeLBA
  let dataPartitionSizeLBA := sizeInLBA LBASizeBytes kernelSizeBytes
  -- Backup GPT
  let totalImageSizeLBA := dataPartitionStartLBA + dataPartitionSizeLBA +
    (GPTPartitionTableSizeLBA + SectionsInLBASize.gptHeader.setWidth 32)
  { LBASizeBytes
    alignmentLBA
    totalImageSizeLBA
    -- The product is one of 32-bit numbers.
    totalImageSizeBytes := (totalImageSizeLBA * LBASizeBytes.setWidth 32).setWidth 64
    GPTPartitionTableSizeLBA
    EFISystemPartitionStartLBA
    EFISystemPartitionSizeLBA
    dataPartitionStartLBA
    dataPartitionSizeLBA
    efi }

/-! ## The alignment and the sizes as numbers -/

section Values

variable {k j : Nat} {LBASizeBytes : U16} {alignmentSizeBytes alignmentLBA : U32}

/-- A power of two stays one in a wider word. -/
theorem isTwoPow_setWidth {w v : Nat} {a : BitVec w} (h : IsTwoPow a k) (hv : w ≤ v) :
    IsTwoPow (a.setWidth v) k := by
  rw [IsTwoPow, BitVec.toNat_setWidth_of_le hv]
  exact h

/-- The alignment is a power of two of at most as many blocks as fit in its bytes. -/
theorem isTwoPow_alignmentInLBA (hL : IsTwoPow LBASizeBytes k)
    (ha : IsTwoPow alignmentSizeBytes j) :
    IsTwoPow (alignmentInLBA LBASizeBytes alignmentSizeBytes) (j - k) := by
  have hwide : (LBASizeBytes.setWidth 32).toNat = 2 ^ k := isTwoPow_setWidth hL (by norm_num)
  unfold alignmentInLBA
  split
  · rename_i hlt
    rw [BitVec.lt_def, hwide, ha] at hlt
    have hkj : k < j := (Nat.pow_lt_pow_iff_right (by norm_num)).mp hlt
    rw [IsTwoPow, BitVec.toNat_udiv, hwide, ha, Nat.pow_div hkj.le (by norm_num)]
  · rename_i hle
    rw [BitVec.lt_def, hwide, ha, Nat.pow_lt_pow_iff_right (by norm_num)] at hle
    rw [IsTwoPow, Nat.sub_eq_zero_of_le (not_lt.mp hle)]
    rfl

/-- The size of a file in blocks: the sum is cut to 64 bits, and the quotient to 32. -/
theorem toNat_sizeInLBA (hL : IsTwoPow LBASizeBytes k) (sizeBytes : U64) :
    (sizeInLBA LBASizeBytes sizeBytes).toNat =
      (sizeBytes.toNat + (2 ^ k - 1)) % 2 ^ 64 / 2 ^ k % 2 ^ 32 := by
  have hwide := isTwoPow_setWidth hL (v := 64) (by norm_num)
  have hassoc : sizeBytes + LBASizeBytes.setWidth 64 - 1 =
      sizeBytes + (LBASizeBytes.setWidth 64 - 1) := by
    rw [BitVec.sub_eq_add_neg, BitVec.sub_eq_add_neg, BitVec.add_assoc]
  rw [sizeInLBA, BitVec.toNat_setWidth, ceilingDivValue, hwide.toNat_ctz,
    BitVec.toNat_ushiftRight, Nat.shiftRight_eq_div_pow, hassoc, BitVec.toNat_add,
    hwide.toNat_sub_one]

end Values

end Homegrown.ImageBuilder
