import Homegrown.Core.Outcome
import Homegrown.ImageBuilder.Configuration
import Homegrown.Shared.Text.Converter

/-!
# Writing the EFI system partition

`writeEFISystemPartition` writes a FAT32 file system into the mapped image: the first
FAT entries, directories and files with their clusters, the second FAT, and last the
reserved sectors. Addresses are offsets into the image, and an access past its end is a
fault. `ASSERT` is empty in a release build and left out.

`files` is no part of the source: it records the files that were created and the bytes
that were written for each.
-/

namespace Homegrown.ImageBuilder

/-- Why writing an image does not return. -/
inductive ImageFault where
  /-- An access past the end of the mapped image. -/
  | segmentationFault
  /-- `__builtin_unreachable`. -/
  | unreachable
  /-- `read` returns no bytes any more, and the loop around it goes on. -/
  | endlessRead
  deriving DecidableEq, Repr

/-- A file that was created. -/
structure CreatedFile where
  name : List U8
  cluster : U32
  contents : List U8
  deriving DecidableEq, Repr

/-- The mapped image, and `CURRENT_FREE_DATA_CLUSTER_INDEX`. -/
structure Image where
  bytes : Nat → U8
  currentFreeDataClusterIndex : U32
  files : List CreatedFile

/-- Programs that write the image. -/
abbrev Writer := EStateM ImageFault Image

/-- Where things are in the image: its size, the start of the EFI system partition,
`PRIMARY_FAT` and `DATA_CLUSTERS`. -/
structure Layout where
  size : Nat
  reservedSectors : Nat
  primaryFAT : Nat
  dataClusters : Nat
  bytesPerSector : U16
  FATSizeBytes : U32
  deriving DecidableEq, Repr

/-- The layout of a configuration. -/
def Configuration.layout (c : Configuration) : Layout :=
  let reservedSectors := (c.EFISystemPartitionStartLBA * c.LBASizeBytes.setWidth 32).toNat
  let primaryFAT := reservedSectors +
    c.efi.bytesPerSector.toNat * ParameterBlock.reservedSectors.toNat
  { size := c.totalImageSizeBytes.toNat
    reservedSectors
    primaryFAT
    dataClusters := primaryFAT + (c.efi.FATSizeBytes * ParameterBlock.FATs.setWidth 32).toNat
    bytesPerSector := c.efi.bytesPerSector
    FATSizeBytes := c.efi.FATSizeBytes }

/-! ## Memory -/

/-- A 16-bit number in memory. -/
def le16 (v : U16) : List U8 := [v.setWidth 8, (v >>> 8).setWidth 8]

/-- A 32-bit number in memory. -/
def le32 (v : U32) : List U8 :=
  [v.setWidth 8, (v >>> 8).setWidth 8, (v >>> 16).setWidth 8, (v >>> 24).setWidth 8]

/-- Bytes that are zero. -/
def zeros (n : Nat) : List U8 := List.replicate n 0

@[simp] theorem length_le16 (v : U16) : (le16 v).length = 2 := rfl

@[simp] theorem length_le32 (v : U32) : (le32 v).length = 4 := rfl

@[simp] theorem length_zeros (n : Nat) : (zeros n).length = n := List.length_replicate

/-- The bytes of an image after some were overwritten. -/
def overwrite (bytes : Nat → U8) (address : Nat) (data : List U8) : Nat → U8 := fun i =>
  if address ≤ i ∧ i < address + data.length then data.getD (i - address) 0 else bytes i

/-- The bytes from an address on. -/
def bytesAt (bytes : Nat → U8) (address n : Nat) : List U8 :=
  (List.range n).map fun i => bytes (address + i)

/-- A store of bytes. -/
def write (l : Layout) (address : Nat) (data : List U8) : Writer Unit :=
  if data = [] ∨ address + data.length ≤ l.size then
    modify fun image => { image with bytes := overwrite image.bytes address data }
  else throw .segmentationFault

/-- A load of bytes. -/
def read (l : Layout) (address n : Nat) : Writer (List U8) := do
  if address + n ≤ l.size then return bytesAt (← get).bytes address n
  else throw .segmentationFault

/-- `memcpy` within the image, between two ranges that do not overlap. -/
def memcpy (l : Layout) (dest src n : Nat) : Writer Unit :=
  if dest + n ≤ l.size ∧ src + n ≤ l.size then
    modify fun image => { image with
      bytes := fun i => if dest ≤ i ∧ i < dest + n then image.bytes (src + (i - dest))
        else image.bytes i }
  else throw .segmentationFault

/-- An assignment to an entry of `PRIMARY_FAT`. -/
def setPrimaryFAT (l : Layout) (i value : U32) : Writer Unit :=
  write l (l.primaryFAT + 4 * i.toNat) (le32 value)

/-! ## Clusters -/

/-- `END_OF_CHAIN_MARKER`. -/
def endOfChainMarker : U32 := 0xFFFFFFFF

/-- `ROOT_CLUSTER_FAT_INDEX`. -/
def rootClusterFATIndex : U32 := 2

/-- `FAT32_SHORT_NAME_LEN`. -/
def fat32ShortNameLen : Nat := 11

/-- `sizeof(DirEntryShortName)`. -/
def dirEntrySize : Nat := 32

/-- `getDataCluster`. The offset is a product of 32-bit numbers. -/
def getDataCluster (l : Layout) (clusterIndex : U32) : Nat :=
  l.dataClusters +
    (l.bytesPerSector.setWidth 32 * (clusterIndex - reservedClusterIndices)).toNat

/-- The number of clusters that `createContiguousSpaceForNewEntry` takes for bytes. -/
def requiredNewClusters (bytesPerSector : U16) (bytes : U64) : U32 :=
  (ceilingDivValue bytes (bytesPerSector.setWidth 64)).setWidth 32

/-- The loop of `createContiguousSpaceForNewEntry`, for the entries that are left. -/
def linkClusters (l : Layout) (lastCluster : U32) : Nat → U32 → Writer Unit
  | 0, _ => return ()
  | left + 1, i => do
    setPrimaryFAT l i (if i = lastCluster then endOfChainMarker else i + 1)
    linkClusters l lastCluster left (i + 1)

/-- `createContiguousSpaceForNewEntry`. -/
def createContiguousSpaceForNewEntry (l : Layout) (bytes : U64) : Writer U32 := do
  let result := (← get).currentFreeDataClusterIndex
  let exclusiveLastCluster := result + requiredNewClusters l.bytesPerSector bytes
  let lastCluster := exclusiveLastCluster - 1
  linkClusters l lastCluster (exclusiveLastCluster.toNat - result.toNat) result
  modify fun image => { image with currentFreeDataClusterIndex := exclusiveLastCluster }
  return result

/-! ## Directories -/

/-- A `DirEntryShortName`. -/
def dirEntryShortName (name : List U8) (attributes : U8) (cluster fileSize : U32) : List U8 :=
  name ++ [attributes] ++ zeros 8 ++ le16 ((cluster >>> 16).setWidth 16) ++
    zeros 4 ++ le16 (cluster.setWidth 16) ++ le32 fileSize

/-- `FAT32_FILE_ATTRIBUTES`. -/
def fat32FileAttributes : U8 := 0

/-- `FAT32_DIRECTORY_ATTRIBUTES`. -/
def fat32DirectoryAttributes : U8 := 0x10

/-- `ZERO_NAME`. -/
def zeroName : List U8 := zeros fat32ShortNameLen

/-- `writeDirectoryEntry`. -/
def writeDirectoryEntry (l : Layout) (clusterBuffer : Nat) (cluster : U32) (name : List U8) :
    Writer Unit :=
  write l clusterBuffer (dirEntryShortName name fat32DirectoryAttributes cluster 0)

/-- `writeDOTEntries`. -/
def writeDOTEntries (l : Layout) (clusterBuffer : Nat) (currentCluster parentCluster : U32) :
    Writer Unit := do
  writeDirectoryEntry l clusterBuffer currentCluster (text ".          ")
  writeDirectoryEntry l (clusterBuffer + dirEntrySize) parentCluster (text "..         ")

/-- The cluster number in a directory entry. -/
def clusterOfEntry (entry : List U8) : U32 :=
  entry.getD 21 0 ++ entry.getD 20 0 ++ entry.getD 27 0 ++ entry.getD 26 0

/-- The number of directory entries in a cluster. -/
def entriesInCluster (l : Layout) : Nat := l.bytesPerSector.toNat / dirEntrySize

/-- The loop of `createOrGetDirectory`, for the entries that are left. -/
def createOrGetDirectoryFrom (l : Layout) (name : List U8) (parentCluster : U32) :
    Nat → Nat → Writer U32
  | 0, _ => throw .unreachable
  | left + 1, entry => do
    let found ← read l entry dirEntrySize
    if found.take fat32ShortNameLen = name then
      return clusterOfEntry found
    else if found.take fat32ShortNameLen = zeroName then do
      let createdCluster ← createContiguousSpaceForNewEntry l (BitVec.ofNat 64 dirEntrySize)
      writeDirectoryEntry l entry createdCluster name
      writeDOTEntries l (getDataCluster l createdCluster) createdCluster parentCluster
      return createdCluster
    else
      createOrGetDirectoryFrom l name parentCluster left (entry + dirEntrySize)

/-- `createOrGetDirectory`. -/
def createOrGetDirectory (l : Layout) (name : List U8) (parentCluster : U32) : Writer U32 :=
  createOrGetDirectoryFrom l name parentCluster (entriesInCluster l)
    (getDataCluster l parentCluster)

/-- `createPath`, for the names between the delimiters of the path. -/
def createPath (l : Layout) : List (List U8) → U32 → Writer U32
  | [], startCluster => return startCluster
  | name :: names, startCluster => do
    let cluster ← createOrGetDirectory l name startCluster
    createPath l names cluster

/-! ## Files -/

/-- The loop of `getNewFileEntryLocation`, for the entries that are left. -/
def getNewFileEntryLocationFrom (l : Layout) : Nat → Nat → Writer Nat
  | 0, _ => throw .unreachable
  | left + 1, entry => do
    let name ← read l entry fat32ShortNameLen
    if name = zeroName then return entry
    else getNewFileEntryLocationFrom l left (entry + dirEntrySize)

/-- `getNewFileEntryLocation`. -/
def getNewFileEntryLocation (l : Layout) (parentCluster : U32) : Writer Nat :=
  getNewFileEntryLocationFrom l (entriesInCluster l) (getDataCluster l parentCluster)

/-- `writeFileEntry`. -/
def writeFileEntry (l : Layout) (clusterBuffer : Nat) (name : List U8) (size : U32) :
    Writer Unit := do
  let cluster := (← get).currentFreeDataClusterIndex
  write l clusterBuffer (dirEntryShortName name fat32FileAttributes cluster size)

/-- `createFileEntryAfterWritingData`, with the bytes that were written. -/
def createFileEntryAfterWritingData (l : Layout) (name : List U8) (parentCluster : U32)
    (contents : List U8) : Writer Unit := do
  let size := BitVec.ofNat 32 contents.length
  let location ← getNewFileEntryLocation l parentCluster
  writeFileEntry l location name size
  let cluster ← createContiguousSpaceForNewEntry l (size.setWidth 64)
  modify fun image => { image with files := image.files ++ [⟨name, cluster, contents⟩] }

/-- `CREATE_FAT32_FILE`, with the text that the body appends. -/
def createFAT32File (l : Layout) (name : List U8) (parentCluster : U32) (contents : List U8) :
    Writer Unit := do
  let buffer := getDataCluster l (← get).currentFreeDataClusterIndex
  write l buffer contents
  createFileEntryAfterWritingData l name parentCluster contents

/-- The loop that reads the EFI application, given what each `read` of the file returns:
bytes, or a failure. It returns the bytes it stored, unless a read failed. -/
def readEFIApplication (l : Layout) :
    List (Option (List U8)) → Nat → Nat → Writer (Option (List U8))
  | reads, buffer, left =>
    if left = 0 then return some []
    else match reads with
      | [] => throw .endlessRead
      | none :: _ => return none
      | some data :: reads => do
        let data := data.take left
        write l buffer data
        let rest ← readEFIApplication l reads (buffer + data.length) (left - data.length)
        return rest.map (data ++ ·)

/-! ## Reserved sectors -/

/-- `FIXED_MEDIA`. -/
def fixedMedia : U8 := 0xF8

/-- `parameterBlock`. -/
def biosParameterBlock (c : Configuration) : List U8 :=
  [0xEB, 0x00, 0x90] ++ text "THISDISK" ++ le16 c.efi.bytesPerSector ++
    [ParameterBlock.sectorsPerCluster] ++ le16 ParameterBlock.reservedSectors ++
    [ParameterBlock.FATs] ++ le16 0 ++ le16 0 ++ [fixedMedia] ++ le16 0 ++ le16 0 ++ le16 0 ++
    le32 c.EFISystemPartitionStartLBA ++ le32 c.efi.totalSectors32Bit ++
    le32 c.efi.FATSize32Sectors ++ le16 0 ++ le16 0 ++ le32 2 ++ le16 1 ++ le16 6 ++
    zeros 12 ++ [0x80] ++ [0] ++ [0x29] ++ zeros 4 ++ text "NO NAME    " ++
    text "FAT32   " ++ zeros 420 ++ le16 0xAA55

/-- `FSInfo`. -/
def fileSystemInformation (freeCount nextFree : U32) : List U8 :=
  le32 0x41615252 ++ zeros 480 ++ le32 0x61417272 ++ le32 freeCount ++
    le32 nextFree ++ zeros 12 ++ le32 0xAA550000

/-- The part of `writeEFISystemPartition` that writes the reserved sectors. -/
def writeReservedSectors (c : Configuration) (l : Layout) : Writer Unit := do
  let nextFree := (← get).currentFreeDataClusterIndex
  let freeCount := c.efi.dataClustersCount - nextFree
  let sector := l.bytesPerSector.toNat
  -- Primary Sectors
  write l l.reservedSectors (biosParameterBlock c)
  write l (l.reservedSectors + sector) (fileSystemInformation freeCount nextFree)
  -- Backup Sectors
  write l (l.reservedSectors + sector * 6) (biosParameterBlock c)
  write l (l.reservedSectors + sector * 7) (fileSystemInformation freeCount nextFree)

/-! ## The partition -/

/-- What is written to `KERNEL.INF`. -/
def kernelInf (c : Configuration) (kernelSizeBytes : U64) : List U8 :=
  text "KERNEL_SIZE_BYTES=" ++ U64ToString kernelSizeBytes ++ text "\n" ++
    text "KERNEL_START_LBA=" ++ U64ToString (c.dataPartitionStartLBA.setWidth 64) ++ text "\n"

theorem length_kernelInf (c : Configuration) (kernelSizeBytes : U64) :
    0 < (kernelInf c kernelSizeBytes).length ∧ (kernelInf c kernelSizeBytes).length ≤ 77 := by
  have hsize := length_U64ToString kernelSizeBytes
  have hstart := length_U64ToString (c.dataPartitionStartLBA.setWidth 64)
  have hnewline : (text "\n").length = 1 := rfl
  have hfirst : (text "KERNEL_SIZE_BYTES=").length = 18 := rfl
  have hsecond : (text "KERNEL_START_LBA=").length = 17 := rfl
  simp only [kernelInf, List.length_append]
  omega

/-- What is written to `DISKDATA.INF`. -/
def diskDataInf (c : Configuration) : List U8 :=
  text "DISK_SIZE_BYTES=" ++ U64ToString c.totalImageSizeBytes ++ text "\n" ++
    text "DISK_SIZE_LBA=" ++ U64ToString (c.totalImageSizeLBA.setWidth 64) ++ text "\n"

/-- The two reserved entries of the FAT, and the root directory. -/
def writeReservedEntries (l : Layout) : Writer Unit := do
  setPrimaryFAT l 0 (0xFFFFFF00 ||| fixedMedia.setWidth 32)
  setPrimaryFAT l 1 endOfChainMarker
  setPrimaryFAT l 2 endOfChainMarker
  modify fun image => { image with currentFreeDataClusterIndex := 3 }

/-- The copies of the first FAT. `mirrorLocation` is a pointer to 32-bit entries, and
`FAT_SIZE_BYTES` is added to it as a number of entries. -/
def writeMirrors (l : Layout) : Nat → Nat → Writer Unit
  | 0, _ => return ()
  | copies + 1, mirrorLocation => do
    memcpy l mirrorLocation l.primaryFAT l.FATSizeBytes.toNat
    writeMirrors l copies (mirrorLocation + 4 * l.FATSizeBytes.toNat)

/-- `writeEFISystemPartition`, given what the reads of the EFI application return. -/
def writeEFISystemPartition (c : Configuration) (reads : List (Option (List U8)))
    (efiSizeBytes kernelSizeBytes : U64) : Writer Bool := do
  let l := c.layout
  writeReservedEntries l
  let efiCluster ← createPath l [text "EFI        "] rootClusterFATIndex
  let efiBootCluster ← createPath l [text "BOOT       "] efiCluster
  let efiFLOSCluster ← createPath l [text "FLOS       "] efiCluster
  let buffer := getDataCluster l (← get).currentFreeDataClusterIndex
  match ← readEFIApplication l reads buffer efiSizeBytes.toNat with
  | none => return false
  | some application =>
    createFileEntryAfterWritingData l (text "BOOTX64 EFI") efiBootCluster application
    createFAT32File l (text "KERNEL  INF") efiFLOSCluster (kernelInf c kernelSizeBytes)
    createFAT32File l (text "DISKDATAINF") efiFLOSCluster (diskDataInf c)
    writeMirrors l (ParameterBlock.FATs.toNat - 1)
      (l.primaryFAT + 4 * l.FATSizeBytes.toNat)
    writeReservedSectors c l
    return true

end Homegrown.ImageBuilder
