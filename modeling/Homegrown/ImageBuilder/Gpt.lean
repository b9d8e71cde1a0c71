import Homegrown.ImageBuilder.Crc32
import Homegrown.ImageBuilder.Fat

/-!
# The partition tables

`writeMBR` and `writeGPTs` describe the partitions of a configuration. Each is the list of the
copies it makes into the image: where, and which bytes. The GPT header is static, and the
primary one is what `writeGPTs` makes of it in the first call.
-/

namespace Homegrown.ImageBuilder

/-- A 64-bit number in memory. -/
def le64 (v : U64) : List U8 := le32 (v.setWidth 32) ++ le32 ((v >>> 32).setWidth 32)

/-- Bytes that are copied to an address of the image. -/
structure Copy where
  address : U64
  data : List U8
  deriving DecidableEq, Repr

/-! ## The protective MBR -/

/-- `MBRPartition`. -/
structure MBRPartition where
  bootIndicator : U8
  startingCHS : List U8
  osType : U8
  endingCHS : List U8
  startingLBA : U32
  sizeLBA : U32
  deriving DecidableEq, Repr

/-- The bytes of an `MBRPartition`. -/
def MBRPartition.bytes (p : MBRPartition) : List U8 :=
  [p.bootIndicator] ++ p.startingCHS ++ [p.osType] ++ p.endingCHS ++ le32 p.startingLBA ++
    le32 p.sizeLBA

/-- The first partition of `protectiveMBR`. -/
def protectivePartition (totalImageSizeLBA : U64) : MBRPartition where
  bootIndicator := 0
  startingCHS := [0x00, 0x02, 0x00]
  osType := 0xEE
  endingCHS := [0xFF, 0xFF, 0xFF]
  startingLBA := 1
  sizeLBA := if 0xFFFFFFFF < totalImageSizeLBA then 0xFFFFFFFF
    else (totalImageSizeLBA - 1).setWidth 32

/-- `BOOT_SIGNATURE`. -/
def bootSignature : U16 := 0xAA55

/-- The bytes of `protectiveMBR`. -/
def protectiveMBR (totalImageSizeLBA : U64) : List U8 :=
  zeros 440 ++ le32 0 ++ le16 0 ++ (protectivePartition totalImageSizeLBA).bytes ++ zeros 48 ++
    le16 bootSignature

/-- `writeMBR`. -/
def writeMBR (c : Configuration) : List Copy :=
  [⟨0, protectiveMBR (c.totalImageSizeLBA.setWidth 64)⟩]

/-! ## The GPT -/

/-- `UUID`, by its fields. -/
structure UUID where
  timeLo : U32
  timeMid : U16
  timeHiAndVer : U16
  clockSeqHiAndRes : U8
  clockSeqLo : U8
  node : List U8
  deriving DecidableEq, Repr

/-- The bytes of a `UUID`. -/
def UUID.bytes (u : UUID) : List U8 :=
  le32 u.timeLo ++ le16 u.timeMid ++ le16 u.timeHiAndVer ++ [u.clockSeqHiAndRes, u.clockSeqLo] ++
    u.node

/-- `EFI_SYSTEM_PARTITION_GUID`. -/
def efiSystemPartitionGUID : UUID :=
  ⟨0xC12A7328, 0xF81F, 0x11D2, 0xBA, 0x4B, [0x00, 0xA0, 0xC9, 0x3E, 0xC9, 0x3B]⟩

/-- `FLOS_BASIC_DATA_GUID`. -/
def flosBasicDataGUID : UUID :=
  ⟨0x5f68a13c, 0xcdae, 0x4372, 0x95, 0xc7, [0xfb, 0xc3, 0x8a, 0x42, 0xff, 0x3e]⟩

/-- `RANDOM_GUID_1`. -/
def randomGUID1 : UUID :=
  ⟨0x314D4330, 0x29de, 0x4029, 0xA6, 0x0D, [0x89, 0xEA, 0x41, 0x02, 0x6A, 0x5D]⟩

/-- `RANDOM_GUID_2`. -/
def randomGUID2 : UUID :=
  ⟨0x1E736CF5, 0x0F0F, 0x47B4, 0x8E, 0xE0, [0xB6, 0xB5, 0x01, 0x0C, 0x05, 0xDD]⟩

/-- `RANDOM_GUID_3`. -/
def randomGUID3 : UUID :=
  ⟨0x1B67CFAB, 0x21EF, 0x4033, 0xB9, 0xDD, [0xCE, 0x61, 0x8C, 0xB3, 0x2C, 0xB8]⟩

/-- `GPT_PARTITION_TABLE_ENTRIES`. -/
def gptPartitionTableEntries : Nat := 128

/-- `GPT_PARTITION_TABLE_ENTRY_SIZE`. -/
def gptPartitionTableEntrySize : Nat := 128

/-- `GPTHeader`. -/
structure GPTHeader where
  signature : List U8
  revision : U32
  headerSize : U32
  headerCRC32 : U32
  reserved : U32
  myLBA : U64
  alternateLBA : U64
  firstUsableLBA : U64
  lastUsableLBA : U64
  diskGUID : UUID
  partitionTableLBA : U64
  numberOfEntries : U32
  sizeOfEntry : U32
  partitionTableCRC32 : U32
  deriving DecidableEq, Repr

/-- The bytes of a `GPTHeader`, which is packed. -/
def GPTHeader.bytes (h : GPTHeader) : List U8 :=
  h.signature ++ le32 h.revision ++ le32 h.headerSize ++ le32 h.headerCRC32 ++ le32 h.reserved ++
    le64 h.myLBA ++ le64 h.alternateLBA ++ le64 h.firstUsableLBA ++ le64 h.lastUsableLBA ++
    h.diskGUID.bytes ++ le64 h.partitionTableLBA ++ le32 h.numberOfEntries ++
    le32 h.sizeOfEntry ++ le32 h.partitionTableCRC32

/-- `sizeof(GPTHeader)`. -/
def gptHeaderSize : Nat := 92

/-- `GPTPartitionEntry`. -/
structure GPTPartitionEntry where
  partitionTypeGUID : UUID
  uniquePartitionGUID : UUID
  startingLBA : U64
  endingLBA : U64
  attributes : U64
  partitionNameUTF16 : List U8
  deriving DecidableEq, Repr

/-- The bytes of a `GPTPartitionEntry`: the name is followed by zeros up to 72 bytes. -/
def GPTPartitionEntry.bytes (e : GPTPartitionEntry) : List U8 :=
  e.partitionTypeGUID.bytes ++ e.uniquePartitionGUID.bytes ++ le64 e.startingLBA ++
    le64 e.endingLBA ++ le64 e.attributes ++ e.partitionNameUTF16 ++
    zeros (72 - e.partitionNameUTF16.length)

/-- A name of ASCII characters in UTF-16. -/
def utf16 (s : String) : List U8 := (text s).flatMap fun c => [c, 0]

/-- `fillPartitionEntry`, for the entry of the EFI system partition. -/
def efiSystemPartitionEntry (c : Configuration) : GPTPartitionEntry where
  partitionTypeGUID := efiSystemPartitionGUID
  uniquePartitionGUID := randomGUID2
  startingLBA := c.EFISystemPartitionStartLBA.setWidth 64
  endingLBA := c.EFISystemPartitionStartLBA.setWidth 64 +
    c.EFISystemPartitionSizeLBA.setWidth 64 - 1
  attributes := 0
  partitionNameUTF16 := utf16 "EFI SYSTEM"

/-- `fillPartitionEntry`, for the entry of the data partition. -/
def dataPartitionEntry (c : Configuration) : GPTPartitionEntry where
  partitionTypeGUID := flosBasicDataGUID
  uniquePartitionGUID := randomGUID3
  startingLBA := c.dataPartitionStartLBA.setWidth 64
  endingLBA := c.dataPartitionStartLBA.setWidth 64 + c.dataPartitionSizeLBA.setWidth 64 - 1
  attributes := 0
  partitionNameUTF16 := utf16 "BASIC DATA"

/-- The bytes of `partitionEntries`: all entries but two are zero. -/
def partitionEntries (c : Configuration) : List U8 :=
  (efiSystemPartitionEntry c).bytes ++ (dataPartitionEntry c).bytes ++
    zeros ((gptPartitionTableEntries - 2) * gptPartitionTableEntrySize)

/-- The header with the checksum of its bytes, which is zero for the computation. -/
def GPTHeader.withCRC32 (h : GPTHeader) : GPTHeader :=
  let cleared := { h with headerCRC32 := 0 }
  { cleared with headerCRC32 := calculateCRC32 cleared.bytes }

/-- `gptHeader`, when the primary header is written. -/
def primaryGPTHeader (c : Configuration) : GPTHeader :=
  GPTHeader.withCRC32
    { signature := text "EFI PART"
      revision := 0x00010000
      headerSize := BitVec.ofNat 32 gptHeaderSize
      headerCRC32 := 0
      reserved := 0
      myLBA := SectionsInLBASize.protectiveMBR.setWidth 64
      alternateLBA :=
        (c.totalImageSizeLBA - SectionsInLBASize.gptHeader.setWidth 32).setWidth 64
      firstUsableLBA := (SectionsInLBASize.protectiveMBR.setWidth 32 +
        SectionsInLBASize.gptHeader.setWidth 32 + c.GPTPartitionTableSizeLBA).setWidth 64
      lastUsableLBA := (c.totalImageSizeLBA - SectionsInLBASize.gptHeader.setWidth 32 -
        c.GPTPartitionTableSizeLBA - 1).setWidth 64
      diskGUID := randomGUID1
      partitionTableLBA := SectionsInLBASize.protectiveMBR.setWidth 64 +
        SectionsInLBASize.gptHeader.setWidth 64
      numberOfEntries := BitVec.ofNat 32 gptPartitionTableEntries
      sizeOfEntry := BitVec.ofNat 32 gptPartitionTableEntrySize
      partitionTableCRC32 := calculateCRC32 (partitionEntries c) }

/-- `gptHeader`, when the backup header is written. -/
def backupGPTHeader (c : Configuration) : GPTHeader :=
  let primary := primaryGPTHeader c
  GPTHeader.withCRC32
    { primary with
      myLBA := primary.alternateLBA
      alternateLBA := primary.myLBA
      partitionTableLBA := (c.totalImageSizeLBA - SectionsInLBASize.gptHeader.setWidth 32 -
        c.GPTPartitionTableSizeLBA).setWidth 64 }

/-- `writeGPTs`. -/
def writeGPTs (c : Configuration) : List Copy :=
  let primary := primaryGPTHeader c
  let backup := backupGPTHeader c
  let LBASizeBytes := c.LBASizeBytes.setWidth 64
  let primaryBuffer := SectionsInLBASize.protectiveMBR.setWidth 64 * LBASizeBytes
  let backupBuffer := backup.partitionTableLBA * LBASizeBytes
  [⟨primaryBuffer, primary.bytes⟩,
    ⟨primaryBuffer + SectionsInLBASize.gptHeader.setWidth 64 * LBASizeBytes, partitionEntries c⟩,
    ⟨backupBuffer, partitionEntries c⟩,
    ⟨backupBuffer + (backup.myLBA - backup.partitionTableLBA) * LBASizeBytes, backup.bytes⟩]

/-! ## The sizes of what is copied -/

section Sizes

variable {c : Configuration}

@[simp] theorem length_le64 (v : U64) : (le64 v).length = 8 := rfl

theorem length_protectiveMBR (totalImageSizeLBA : U64) :
    (protectiveMBR totalImageSizeLBA).length = 512 := by
  simp [protectiveMBR, MBRPartition.bytes, protectivePartition]

theorem length_partitionEntries : (partitionEntries c).length = 16384 := by
  have hefi : (efiSystemPartitionEntry c).bytes.length = 128 := by
    simp [GPTPartitionEntry.bytes, efiSystemPartitionEntry, UUID.bytes, efiSystemPartitionGUID,
      randomGUID2, utf16, text]
  have hdata : (dataPartitionEntry c).bytes.length = 128 := by
    simp [GPTPartitionEntry.bytes, dataPartitionEntry, UUID.bytes, flosBasicDataGUID,
      randomGUID3, utf16, text]
  simp [partitionEntries, hefi, hdata, gptPartitionTableEntries, gptPartitionTableEntrySize]

theorem length_primaryGPTHeader : (primaryGPTHeader c).bytes.length = gptHeaderSize := by
  simp [GPTHeader.bytes, GPTHeader.withCRC32, primaryGPTHeader, UUID.bytes, randomGUID1, text,
    gptHeaderSize]

theorem length_backupGPTHeader : (backupGPTHeader c).bytes.length = gptHeaderSize := by
  simp [GPTHeader.bytes, GPTHeader.withCRC32, primaryGPTHeader, backupGPTHeader, UUID.bytes,
    randomGUID1, text, gptHeaderSize]

end Sizes

end Homegrown.ImageBuilder
