import Homegrown.ImageBuilder.UEFIImage
import Homegrown.OsLoader.DataReading
import Homegrown.OsLoader.DiskReading

/-!
# From the image to the kernel in memory

The image builder says where the kernel is in a file of the EFI system partition, and the loader
reads that file and then those blocks. Neither knows the other, and firmware lies between them:
`loadKernel_createUEFIImage` states that the kernel comes through.
-/

namespace Homegrown.OsLoader

open ImageBuilder

section Load

variable {σ : Type}

/-- The path of the file in the EFI system partition. -/
def kernelInfPath : String := "\\EFI\\FLOS\\KERNEL.INF"

/-- `getKernelInfo`, with the read of the file. -/
def readKernelInfo (boot : BootServices σ) : Loader σ DataPartitionFile := do
  let device ← orExit boot.loadedImage "Could not open Loaded Image Protocol\n"
  let sfsp ← orExit device.simpleFileSystem "Could not open Simple File System Protocol\n"
  let root ← orExit sfsp.openVolume "Could not Open Volume for root directory in ESP\n"
  let file ← orExit (root.openFile kernelInfPath) "Could not Open File\n"
  let fileSize ← orExit file.fileSize "Could not get file info\n"
  let _ ← boot.allocate (ceilingDivValue fileSize UEFIPageSize)
    "Could not allocate memory for file\n"
  let data ← orExit (file.read fileSize) "Could not read file into buffer\n"
  if h : data.length = fileSize.toNat then
    match getKernelInfo ⟨data, h ▸ fileSize.isLt⟩ with
    | some info => return info.kernelFile
    | none => throw .unassigned
  else throw (.message (text "Could not read file into buffer\n"))

/-- The start of `efi_main`, up to where the kernel is in memory. -/
def loadKernel (boot : BootServices σ) (kernelMagic : List U8) : Loader σ KernelContent := do
  let kernelFile ← readKernelInfo boot
  match kernelFile.lbaStart, kernelFile.bytes with
  | some lbaStart, some bytes =>
    readDiskLbasFromCurrentGlobalImage boot kernelMagic lbaStart bytes
  | _, _ => throw .unassigned

end Load

/-! ## What firmware makes of a disk -/

/-- A handle on some blocks of a disk: a read within them returns their bytes, and a read that
leaves them fails. -/
structure Window (biop : BlockIoProtocol) (bytes : Nat → U8) (blockSize first count : Nat) :
    Prop where
  size : biop.media.blockSize.toNat = blockSize
  inside : ∀ lba size : U64, blockSize ∣ size.toNat →
    lba.toNat * blockSize + size.toNat ≤ count * blockSize →
      biop.readBlocks biop.media.mediaId lba size =
        some (Fat32.slice bytes ((first + lba.toNat) * blockSize) size.toNat)
  outside : ∀ lba size : U64, 0 < size.toNat →
    count * blockSize < lba.toNat * blockSize + size.toNat →
      biop.readBlocks biop.media.mediaId lba size = none

/-- A handle on a medium that is not that of the loader, or that has no kernel at the block. -/
def Foreign (biop : BlockIoProtocol) (mediaId : U32) (kernelMagic : List U8) (diskLba : U64) :
    Prop :=
  biop.media.mediaId = mediaId → ∀ size data,
    biop.readBlocks biop.media.mediaId diskLba size = some data →
      data.take kernelMagic.length ≠ kernelMagic

/-- Firmware that has started the loader from a disk. It opens the file of the EFI system
partition, and has handles on the disk, on each of its partitions and on other media, in whatever
order. -/
structure StartedFrom {σ : Type} (boot : BootServices σ) (bytes : Nat → U8)
    (blockSize blocks : Nat) (kernelMagic : List U8) (diskLba : U64) where
  device : Device
  imageBiop : BlockIoProtocol
  root : RootDirectory
  handles : List Device
  loadedImage : boot.loadedImage = some device
  blockIo : device.blockIo = some imageBiop
  simpleFileSystem : device.simpleFileSystem = some ⟨some root⟩
  kernelInf : ∀ content, systemFile bytes blockSize [text "EFI        ", text "FLOS       "]
    (text "KERNEL  INF") = some content → content.length < 2 ^ 64 →
      ∃ file, root.openFile kernelInfPath = some file ∧
        file.fileSize = some (BitVec.ofNat 64 content.length) ∧
        file.read (BitVec.ofNat 64 content.length) = some content
  handleBuffer : boot.handleBuffer = some handles
  known : ∀ handle ∈ handles, ∃ biop, handle.blockIo = some biop ∧
    (Window biop bytes blockSize 0 blocks ∨
      (∃ p ∈ Gpt.partitions bytes blockSize,
        Window biop bytes blockSize p.firstBlock (p.lastBlock + 1 - p.firstBlock)) ∨
      Foreign biop imageBiop.media.mediaId kernelMagic diskLba)
  disk : ∃ handle ∈ handles, ∃ biop, handle.blockIo = some biop ∧
    biop.media.mediaId = imageBiop.media.mediaId ∧ Window biop bytes blockSize 0 blocks

section Firmware

variable {σ : Type} {boot : BootServices σ} {bytes : Nat → U8} {blockSize blocks : Nat}
  {kernelMagic : List U8} {diskLba : U64} {t : σ}

/-- The file that is read is the one that firmware finds in the partition. -/
theorem StartedFrom.endsIn_readKernelInfo
    (started : StartedFrom boot bytes blockSize blocks kernelMagic diskLba) {content : ByteString}
    {info : KernelInfo} (hfile : systemFile bytes blockSize [text "EFI        ",
      text "FLOS       "] (text "KERNEL  INF") = some content.buf)
    (hinfo : getKernelInfo content = some info) :
    EndsIn (readKernelInfo boot t) Stop.OutOfPages
      fun kernelFile _ => kernelFile = info.kernelFile := by
  obtain ⟨file, hopen, hsize, hread⟩ := started.kernelInf content.buf hfile content.length_lt
  have hlength : content.buf.length = (BitVec.ofNat 64 content.buf.length).toNat :=
    content.toNat_len.symm
  rw [readKernelInfo, started.loadedImage, orExit_some, pure_bind, started.simpleFileSystem,
    orExit_some, pure_bind, orExit_some, pure_bind, hopen, orExit_some, pure_bind, hsize,
    orExit_some, pure_bind]
  refine (BootServices.endsIn_allocate (by decide) _ t).bind fun address t' _ _ => ?_
  rw [hread, orExit_some, pure_bind, dif_pos hlength, hinfo]
  exact .pure rfl

end Firmware

section Handles

variable {c : Configuration} {bytes : Nat → U8} {kernel kernelMagic read : List U8}
  {k a efiBlocks kernelBlocks blocks : Nat} {mediaId : U32} {biop : BlockIoProtocol}

/-- The first four bytes of the kernel. -/
theorem createMagic_eq_some (h : createMagic kernel = some kernelMagic) :
    kernelMagic = kernel.take 4 ∧ 4 ≤ kernel.length := by
  simp only [createMagic] at h
  split at h
  · cases h
  · rename_i hlen
    rw [List.length_take] at hlen
    exact ⟨(Option.some.inj h).symm, by omega⟩

/-- The kernel begins as the kernel does. -/
theorem take_createMagic (h : createMagic kernel = some kernelMagic) (rest : List U8) :
    (kernel ++ rest).take kernelMagic.length = kernelMagic := by
  obtain ⟨rfl, hlen⟩ := createMagic_eq_some h
  rw [List.length_take, min_eq_left hlen, List.take_append_of_le_length hlen]

/-- The blocks that the loader asks for are those of the data partition. -/
structure Asked (c : Configuration) (diskLba bytes : U64) (k kernelBlocks : Nat) : Prop where
  lba : diskLba.toNat = c.dataPartitionStartLBA.toNat
  start : 0 < c.dataPartitionStartLBA.toNat
  size : roundUp bytes.toNat (2 ^ k) = kernelBlocks * 2 ^ k
  some_blocks : 0 < kernelBlocks
  low : bytes.toNat + (2 ^ k - 1) < 2 ^ 32

variable {diskLba size : U64}

/-- The buffer has room for the blocks. -/
theorem Asked.alignedBytes (h : Asked c diskLba size k kernelBlocks)
    (hsize : biop.media.blockSize.toNat = 2 ^ k) :
    (alignUpToBlock size biop.media.blockSize).toNat = kernelBlocks * 2 ^ k := by
  rw [toNat_alignUpToBlock hsize h.low, h.size]

/-- From the handle on the disk the kernel is read. -/
theorem Asked.readHandle_disk (h : Asked c diskLba size k kernelBlocks)
    (hwindow : Window biop bytes (2 ^ k) 0 blocks)
    (hblocks : c.dataPartitionStartLBA.toNat + kernelBlocks ≤ blocks)
    (hkernel : HoldsAt bytes (c.dataPartitionStartLBA.toNat * 2 ^ k)
      (kernel ++ zeros (kernelBlocks *
      2 ^ k - kernel.length))) (hlen : kernel.length ≤ kernelBlocks * 2 ^ k)
    (hmagic : createMagic kernel = some kernelMagic) (hmedia : biop.media.mediaId = mediaId) :
    readHandle kernelMagic mediaId diskLba size biop =
      some (kernel ++ zeros (kernelBlocks * 2 ^ k - kernel.length)) := by
  have haligned := h.alignedBytes hwindow.size
  have hfits := Nat.mul_le_mul_right (2 ^ k) hblocks
  rw [Nat.add_mul] at hfits
  have hread := hwindow.inside diskLba (alignUpToBlock size biop.media.blockSize)
    (haligned ▸ Nat.dvd_mul_left _ _) (by rw [haligned, h.lba]; exact hfits)
  rw [haligned, h.lba, Nat.zero_add] at hread
  have hslice : Fat32.slice bytes (c.dataPartitionStartLBA.toNat * 2 ^ k) (kernelBlocks * 2 ^ k) =
      kernel ++ zeros (kernelBlocks * 2 ^ k - kernel.length) := by
    rw [HoldsAt, List.length_append, length_zeros, Nat.add_sub_of_le hlen] at hkernel
    exact hkernel
  rw [readHandle, if_pos hmedia, hread, hslice]
  exact Option.filter_some_pos (decide_eq_true (take_createMagic hmagic _))

/-- The blocks lie behind the last one of a partition, counted from its first one. -/
theorem Asked.readHandle_partition (h : Asked c diskLba size k kernelBlocks) {first count : Nat}
    (hwindow : Window biop bytes (2 ^ k) first count)
    (hcount : count < c.dataPartitionStartLBA.toNat + kernelBlocks) :
    readHandle kernelMagic mediaId diskLba size biop = none := by
  have haligned := h.alignedBytes hwindow.size
  have hlt := Nat.mul_lt_mul_of_pos_right hcount (show 0 < 2 ^ k by positivity)
  have hsome := Nat.mul_pos h.some_blocks (show 0 < 2 ^ k by positivity)
  rw [Nat.add_mul] at hlt
  refine readHandle_eq_none fun _ data hdata => ?_
  rw [hwindow.outside diskLba _ (by rw [haligned]; exact hsome)
    (by rw [haligned, h.lba]; exact hlt)] at hdata
  cases hdata

/-- A partition of a planned image ends before that, counted from its first block. -/
theorem count_partition_lt (hp : Planned c (2 ^ k) a efiBlocks kernelBlocks)
    (htables : Tables c bytes) (hfits : imageLBA (2 ^ k) a efiBlocks kernelBlocks * 2 ^ k < 2 ^ 32)
    (hefi : 0 < c.EFISystemPartitionSizeLBA.toNat) (hstart : 0 < c.dataPartitionStartLBA.toNat)
    (hkernel : 0 < kernelBlocks) {p : Gpt.Partition} (h : p ∈ Gpt.partitions bytes (2 ^ k)) :
    p.lastBlock + 1 - p.firstBlock < c.dataPartitionStartLBA.toNat + kernelBlocks := by
  rw [htables.partitions_eq hp hfits] at h
  have hdata : 0 < c.dataPartitionSizeLBA.toNat := hp.dataSize ▸ hkernel
  have hefiEnd := @toNat_endingLBA c.EFISystemPartitionStartLBA _ hefi
  have hdataEnd := @toNat_endingLBA c.dataPartitionStartLBA _ hdata
  have hwide (b : U32) : (b.setWidth 64 : U64).toNat = b.toNat :=
    BitVec.toNat_setWidth_of_le (by norm_num)
  have hsize := hp.dataSize
  have hefiSize := hp.efiSize
  have hdataStart := hp.dataStart
  rcases List.mem_pair.mp h with rfl | rfl
  · simp only [efiSystemPartitionEntry, hwide]
    omega
  · simp only [dataPartitionEntry, hwide]
    omega

end Handles

/-! ## The kernel comes through -/

section Through

variable {σ : Type} {boot : BootServices σ} {c : Configuration} {bytes : Nat → U8}
  {application kernel kernelMagic : List U8} {k j a efiBlocks blocks : Nat} {t : σ}
  {kernelCluster diskCluster : U32} {LBASizeBytes : U16} {alignmentSizeBytes : U32}
  {efiReads kernelReads : List (Option (List U8))}

/-- What the file says of a planned image is where the kernel is. -/
theorem asked_of_planned (h : ImagePlanned c k a efiBlocks (fileLBA (2 ^ k) kernel.length))
    (hkernel : 0 < kernel.length) : Asked c (c.dataPartitionStartLBA.setWidth 64)
      (BitVec.ofNat 64 kernel.length) k (fileLBA (2 ^ k) kernel.length) := by
  have hle := le_fileLBA_mul k kernel.length
  have hpow : 0 < 2 ^ k := by positivity
  have hfits := h.fits
  have hmore := Nat.mul_le_mul_right (2 ^ k) (show fileLBA (2 ^ k) kernel.length + 1 ≤
    imageLBA (2 ^ k) a efiBlocks (fileLBA (2 ^ k) kernel.length) by
      rw [imageLBA]
      exact Nat.add_le_add (Nat.le_add_left _ _) (Nat.le_add_left _ _))
  rw [Nat.add_mul, Nat.one_mul] at hmore
  have hlength : (BitVec.ofNat 64 kernel.length).toNat = kernel.length :=
    Nat.mod_eq_of_lt (by omega)
  have htables := h.planned.tables_le
  have hdata := h.planned.data_eq
  refine ⟨BitVec.toNat_setWidth_of_le (by norm_num), by omega, ?_, ?_, ?_⟩
  · rw [hlength]
    rfl
  · rw [Nat.pos_iff_ne_zero]
    intro hzero
    rw [hzero, Nat.zero_mul] at hle
    omega
  · rw [hlength]
    omega

/-- From a filled image the loader reads the kernel, whatever else firmware has handles on. -/
theorem loadKernel_filled (h : ImagePlanned c k a efiBlocks (fileLBA (2 ^ k) kernel.length))
    (hfilled : ImageBuilder.Filled c (bootVolume application
      (kernelInf c (BitVec.ofNat 64 kernel.length)) (diskDataInf c) kernelCluster diskCluster)
      kernel
        bytes)
    (hmagic : createMagic kernel = some kernelMagic) (hblocks : c.totalImageSizeLBA.toNat ≤ blocks)
    (started : StartedFrom boot bytes (2 ^ k) blocks kernelMagic
      (c.dataPartitionStartLBA.setWidth 64)) :
    EndsIn (loadKernel boot kernelMagic t) Stop.OutOfPages fun content _ => content.data =
      kernel ++ zeros (fileLBA (2 ^ k) kernel.length * 2 ^ k - kernel.length) := by
  have hpositive : 0 < kernel.length := by
    have hlen := (createMagic_eq_some hmagic).2
    omega
  have hasked := asked_of_planned h hpositive
  have hbootable := ImageBuilder.Filled.bootable h hfilled
  have himage := h.planned.image_eq
  have hsize := h.planned.dataSize
  have hkernel := hbootable.kernel
  have hfile := hbootable.kernelInf
  rw [h.planned.blockSize] at hfile
  rw [h.planned.blockSize, hsize] at hkernel
  have hdisk (biop : BlockIoProtocol) (hwindow : Window biop bytes (2 ^ k) 0 blocks)
      (hmedia : biop.media.mediaId = started.imageBiop.media.mediaId) :=
    hasked.readHandle_disk hwindow (by omega) hkernel (le_fileLBA_mul k _) hmagic hmedia
  have hinfo : EndsIn (readKernelInfo boot t) Stop.OutOfPages _ :=
    started.endsIn_readKernelInfo hfile (getKernelInfo_kernelInf c (BitVec.ofNat 64 kernel.length))
  refine hinfo.bind fun kernelFile t' _ hkernelFile => ?_
  subst hkernelFile
  refine readDiskLbas_of_handles started.loadedImage started.blockIo started.handleBuffer
    (fun handle hhandle => by
      obtain ⟨biop, hbiop, hwindow | ⟨p, hp, hwindow⟩ | hforeign⟩ := started.known handle hhandle
      · refine ⟨biop, hbiop, fun read hread => ?_⟩
        by_cases hmedia : biop.media.mediaId = started.imageBiop.media.mediaId
        · exact Option.some.inj (hread.symm.trans (hdisk biop hwindow hmedia))
        · rw [readHandle, if_neg hmedia] at hread
          cases hread
      · refine ⟨biop, hbiop, fun read hread => ?_⟩
        rw [hasked.readHandle_partition hwindow (count_partition_lt h.planned hfilled.tables h.fits
          h.planned.efiSize_pos hasked.start hasked.some_blocks hp)] at hread
        cases hread
      · refine ⟨biop, hbiop, fun read hread => ?_⟩
        rw [readHandle_eq_none fun hmedia => hforeign hmedia _] at hread
        cases hread)
    (by
      obtain ⟨handle, hhandle, biop, hbiop, hmedia, hwindow⟩ := started.disk
      exact ⟨handle, hhandle, biop, hbiop, hdisk biop hwindow hmedia⟩)

/-- The kernel that the image builder was given is what the loader has in memory, followed by
zeros up to the end of a block: on every firmware that started the loader from the image, unless
that has no more pages. -/
theorem loadKernel_createUEFIImage (hL : IsTwoPow LBASizeBytes k) (hk : 9 ≤ k) (hk' : k ≤ 12)
    (ha : IsTwoPow alignmentSizeBytes j)
    (hfits : imageLBA (2 ^ k) (blockAlignment (2 ^ k) alignmentSizeBytes.toNat)
      (fileLBA (2 ^ k) application.length) (fileLBA (2 ^ k) kernel.length) * 2 ^ k < 2 ^ 32)
    (hmirror : MirrorAside (2 ^ k) (blockAlignment (2 ^ k) alignmentSizeBytes.toNat)
      (fileLBA (2 ^ k) application.length)) (hefi : Delivers efiReads application)
    (hkernel : Delivers kernelReads kernel) (happlication : application ≠ [])
    (hmagic : createMagic kernel = some kernelMagic) :
    let c := setConfiguration LBASizeBytes (BitVec.ofNat 64 application.length)
      (BitVec.ofNat 64 kernel.length) alignmentSizeBytes
    ReturnsWith (createUEFIImage c efiReads kernelReads (BitVec.ofNat 64 application.length)
      (BitVec.ofNat 64 kernel.length) emptyImage) fun done image => done = true ∧
        ∀ (σ : Type) (boot : BootServices σ) (t : σ) (blocks : Nat),
          c.totalImageSizeLBA.toNat ≤ blocks →
          StartedFrom boot image.bytes (2 ^ k) blocks kernelMagic
            (c.dataPartitionStartLBA.setWidth 64) →
          EndsIn (loadKernel boot kernelMagic t) Stop.OutOfPages fun content _ => content.data =
            kernel ++ zeros (fileLBA (2 ^ k) kernel.length * 2 ^ k - kernel.length) := by
  intro c
  obtain ⟨h, kernelCluster, diskCluster, hcreated⟩ := createUEFIImage_planned hL hk hk' ha hfits
    hmirror hefi hkernel happlication
  exact hcreated.weaken fun _ _ hfilled => ⟨hfilled.1, fun σ boot t blocks hblocks started =>
    loadKernel_filled h hfilled.2 hmagic hblocks started⟩

end Through

/-! ## Firmware with one disk -/

/-- A handle on some blocks of the disk, where the root directory has one file. -/
def diskHandle (kernelInf : Option (List U8)) (bytes : Nat → U8) (blockSize first count : Nat) :
    Device where
  blockIo := some
    { media := ⟨1, BitVec.ofNat 32 blockSize⟩
      readBlocks := fun mediaId lba size =>
        if mediaId = 1 ∧ blockSize ∣ size.toNat ∧
            lba.toNat * blockSize + size.toNat ≤ count * blockSize then
          some (Fat32.slice bytes ((first + lba.toNat) * blockSize) size.toNat)
        else none }
  simpleFileSystem := some ⟨some ⟨fun path =>
    if path = kernelInfPath then
      kernelInf.map fun content =>
        ⟨some (BitVec.ofNat 64 content.length), fun size => some (content.take size.toNat)⟩
    else none⟩⟩

/-- The state of boot services that give away one page after the other, until they are left. -/
structure DiskState where
  next : U64
  left : Bool

/-- Boot services on one disk, whose partitions have handles before it does, and with some pages
of memory. -/
def diskServices (kernelInf : Option (List U8)) (bytes : Nat → U8) (blockSize blocks memory : Nat) :
    BootServices DiskState where
  loadedImage := some (diskHandle kernelInf bytes blockSize 0 blocks)
  handleBuffer := some ((Gpt.partitions bytes blockSize).map (fun p =>
    diskHandle kernelInf bytes blockSize p.firstBlock (p.lastBlock + 1 - p.firstBlock)) ++
      [diskHandle kernelInf bytes blockSize 0 blocks])
  allocatePages := fun pages t =>
    if t.next ≠ 0 ∧ 4096 ∣ t.next.toNat ∧ t.next.toNat + pages.toNat * 4096 ≤ memory * 4096 then
      some (t.next, ⟨t.next + pages * UEFIPageSize, t.left⟩)
    else none

section DiskServices

variable {kernelInf : Option (List U8)} {bytes : Nat → U8} {blockSize blocks first count : Nat}

theorem window_diskHandle (hsize : blockSize < 2 ^ 32) :
    ∃ biop, (diskHandle kernelInf bytes blockSize first count).blockIo = some biop ∧
      biop.media.mediaId = 1 ∧ Window biop bytes blockSize first count := by
  refine ⟨_, rfl, rfl, Nat.mod_eq_of_lt hsize, fun lba size hdvd hle => ?_,
    fun lba size _ hlt => ?_⟩
  · exact if_pos ⟨rfl, hdvd, hle⟩
  · exact if_neg fun h => absurd h.2.2 (Nat.not_le.mpr hlt)

/-- The file as firmware finds it on a disk. -/
def kernelInfOf (bytes : Nat → U8) (blockSize : Nat) : Option (List U8) :=
  systemFile bytes blockSize [text "EFI        ", text "FLOS       "] (text "KERNEL  INF")

/-- Such services have started the loader from the disk. -/
def startedFromDisk (memory : Nat) (hsize : blockSize < 2 ^ 32) (kernelMagic : List U8)
    (diskLba : U64) : StartedFrom (diskServices (kernelInfOf bytes blockSize) bytes blockSize blocks
      memory) bytes blockSize blocks kernelMagic diskLba where
  device := diskHandle (kernelInfOf bytes blockSize) bytes blockSize 0 blocks
  imageBiop := ((diskHandle (kernelInfOf bytes blockSize) bytes blockSize 0 blocks).blockIo).get rfl
  root := _
  handles := _
  loadedImage := rfl
  blockIo := rfl
  simpleFileSystem := rfl
  kernelInf := by
    intro content hcontent hlength
    have htake : content.take (BitVec.ofNat 64 content.length).toNat = content := by
      rw [BitVec.toNat_ofNat, Nat.mod_eq_of_lt hlength, List.take_length]
    refine ⟨⟨some (BitVec.ofNat 64 content.length), fun size => some (content.take size.toNat)⟩,
      ?_, rfl, congrArg some htake⟩
    simp only [kernelInfOf, if_true, hcontent, Option.map_some]
  handleBuffer := rfl
  known := by
    intro handle hhandle
    rcases List.mem_append.mp hhandle with hp | hdisk
    · obtain ⟨p, hpartition, rfl⟩ := List.mem_map.mp hp
      obtain ⟨biop, hbiop, -, hwindow⟩ := window_diskHandle hsize
      exact ⟨biop, hbiop, .inr (.inl ⟨p, hpartition, hwindow⟩)⟩
    · obtain rfl := List.mem_singleton.mp hdisk
      obtain ⟨biop, hbiop, -, hwindow⟩ := window_diskHandle hsize
      exact ⟨biop, hbiop, .inl hwindow⟩
  disk := by
    obtain ⟨biop, hbiop, hmedia, hwindow⟩ := @window_diskHandle (kernelInfOf bytes blockSize) bytes
      blockSize 0 blocks hsize
    exact ⟨_, List.mem_append_right _ (List.mem_singleton_self _), biop, hbiop, hmedia, hwindow⟩

end DiskServices

/-- The kernel of four bytes comes from the last handle. -/
theorem loadKernel_createUEFIImage_four :
    let c := setConfiguration 512 (BitVec.ofNat 64 3) (BitVec.ofNat 64 4) 512
    ReturnsWith (createUEFIImage c [some [1, 2], some [3]] [some [4, 5, 6, 7]] (BitVec.ofNat 64 3)
      (BitVec.ofNat 64 4) emptyImage) fun done image => done = true ∧
        EndsIn (loadKernel (diskServices (kernelInfOf image.bytes (2 ^ 9)) image.bytes (2 ^ 9)
          c.totalImageSizeLBA.toNat 64) [4, 5, 6, 7] ⟨0x1000, false⟩) Stop.OutOfPages
            fun content _ => content.data =
              [4, 5, 6, 7] ++ zeros (fileLBA (2 ^ 9) 4 * 2 ^ 9 - 4) := by
  intro c
  have hcreated := @loadKernel_createUEFIImage [1, 2, 3] [4, 5, 6, 7] [4, 5, 6, 7] 9 9 512 512
    [some [1, 2], some [3]] [some [4, 5, 6, 7]] (by decide) (by decide) (by decide) (by decide)
    (by decide +kernel) (by decide +kernel) (.piece [1, 2] (.piece [3] (.done [])))
    (.piece [4, 5, 6, 7] (.done [])) (by decide) (by decide)
  exact hcreated.weaken fun _ _ h =>
    ⟨h.1, h.2 DiskState _ _ _ le_rfl (startedFromDisk 64 (by norm_num) _ _)⟩

end Homegrown.OsLoader
