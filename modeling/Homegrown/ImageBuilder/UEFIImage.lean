import Homegrown.ImageBuilder.BootVolume
import Homegrown.ImageBuilder.Partitions
import Homegrown.ImageBuilder.Sizes

/-!
# The image that boots

`createUEFIImage` writes the tables and both partitions into an image that is empty at first. From
the bytes of the image alone firmware then finds the EFI system partition and the application in
it, and the application finds what was written for it there (`createUEFIImage_bootable`). The one
condition beside the sizes is that the misplaced copy of the first FAT lands in free clusters.
-/

namespace Homegrown.ImageBuilder

/-- Copies into the mapped image. -/
def writeCopies (l : Layout) : List Copy → Writer Unit
  | [] => return ()
  | copy :: copies => do
    write l copy.address.toNat copy.data
    writeCopies l copies

/-- `createUEFIImage`, from where the image is mapped, given what the reads of the application and
of the kernel return. `false` stands for the jump to the error handler. -/
def createUEFIImage (c : Configuration) (efiReads kernelReads : List (Option (List U8)))
    (efiSizeBytes kernelSizeBytes : U64) : Writer Bool := do
  writeCopies c.layout (writeMBR c)
  writeCopies c.layout (writeGPTs c)
  if ← writeEFISystemPartition c efiReads efiSizeBytes kernelSizeBytes then
    writeDataPartition c kernelReads kernelSizeBytes
  else return false

/-- A file of the EFI system partition, as firmware finds both. -/
def systemFile (bytes : Nat → U8) (blockSize : Nat) (directories : List (List U8))
    (name : List U8) : Option (List U8) := do
  let p ← Gpt.find bytes blockSize efiSystemPartitionGUID.bytes
  Fat32.readFile bytes (p.firstBlock * blockSize) directories name

/-- Firmware finds the application on a disk of these bytes, and the application the kernel. -/
structure Bootable (c : Configuration) (application kernel : List U8) (bytes : Nat → U8) :
    Prop where
  mbr : HoldsAt bytes 0 (protectiveMBR (c.totalImageSizeLBA.setWidth 64))
  gpts : GPTsVerify c bytes
  application : systemFile bytes c.LBASizeBytes.toNat [text "EFI        ", text "BOOT       "]
    (text "BOOTX64 EFI") = some application
  kernelInf : systemFile bytes c.LBASizeBytes.toNat [text "EFI        ", text "FLOS       "]
    (text "KERNEL  INF") = some (kernelInf c (BitVec.ofNat 64 kernel.length))
  diskDataInf : systemFile bytes c.LBASizeBytes.toNat [text "EFI        ", text "FLOS       "]
    (text "DISKDATAINF") = some (diskDataInf c)
  dataPartition : Gpt.find bytes c.LBASizeBytes.toNat flosBasicDataGUID.bytes =
    some ⟨flosBasicDataGUID.bytes, c.dataPartitionStartLBA.toNat,
      (dataPartitionEntry c).endingLBA.toNat⟩
  kernel : HoldsAt bytes (c.dataPartitionStartLBA.toNat * c.LBASizeBytes.toNat)
    (kernel ++ zeros (c.dataPartitionSizeLBA.toNat * c.LBASizeBytes.toNat - kernel.length))

/-- The copy of the first FAT is planned to land in clusters of the partition that are free. -/
def MirrorAside (L a efiBlocks : Nat) : Prop :=
  efiBlocks + 6 ≤ 2 * maskedFATSectors L a efiBlocks ∧
    32 + 5 * maskedFATSectors L a efiBlocks ≤ maskUp (partitionSectors L a efiBlocks) a

instance (L a efiBlocks : Nat) : Decidable (MirrorAside L a efiBlocks) :=
  inferInstanceAs (Decidable (_ ∧ _))

section Copies

variable {c : Configuration} {l : Layout} {copies : List Copy} {image : Image} {bytes : Nat → U8}
  {k a efiBlocks kernelBlocks : Nat}

/-- Copies within the image are made. -/
theorem writeCopies_returns
    (h : ∀ copy ∈ copies, copy.address.toNat + copy.data.length ≤ l.size) :
    writeCopies l copies image = .ok () { image with bytes := applyCopies image.bytes copies } := by
  induction copies generalizing image with
  | nil => rfl
  | cons copy copies ih =>
    rw [writeCopies, bind_of_ok (write_returns (h copy (List.mem_cons_self ..)))]
    exact ih fun copy hcopy => h copy (List.mem_cons_of_mem _ hcopy)

/-- Bytes beside the copies stay. -/
theorem applyCopies_of_notMem {x : Nat} (h : ∀ copy ∈ copies, x < copy.address.toNat ∨
    copy.address.toNat + copy.data.length ≤ x) : applyCopies bytes copies x = bytes x := by
  have hbyte : bytesAt (applyCopies bytes copies) x 1 = bytesAt bytes x 1 :=
    bytesAt_applyCopies_of_apart fun copy hcopy => by
      have hcopy := h copy hcopy
      omega
  simpa [bytesAt] using hbyte

/-- The copies lie before the partitions or behind them, and apart from each other. -/
theorem Planned.copies_beside (h : Planned c (2 ^ k) a efiBlocks kernelBlocks) (hk : 9 ≤ k)
    (hk' : k ≤ 12) (hfits : imageLBA (2 ^ k) a efiBlocks kernelBlocks * 2 ^ k < 2 ^ 32) :
    (∀ copy ∈ writeMBR c ++ writeGPTs c,
      copy.address.toNat + copy.data.length ≤ c.EFISystemPartitionStartLBA.toNat * 2 ^ k ∨
        (c.dataPartitionStartLBA.toNat + c.dataPartitionSizeLBA.toNat) * 2 ^ k ≤
          copy.address.toNat) ∧
      (writeMBR c ++ writeGPTs c).Pairwise fun s t =>
        s.address.toNat + s.data.length ≤ t.address.toNat ∨
          t.address.toNat + t.data.length ≤ s.address.toNat := by
  obtain ⟨hheader, htable, hbackup, hbackupHeader⟩ := h.toNat_gptAddresses hfits
  have hpow : 2 ^ 9 ≤ 2 ^ k := Nat.pow_le_pow_right (by norm_num) hk
  have hpt := h.toNat_partitionTableLBA
  have htotal := h.image_eq
  have hdata := h.data_eq
  have hsize : c.GPTPartitionTableSizeLBA.toNat * 2 ^ k = 16384 := by
    rw [h.tableSize]
    exact Nat.div_mul_cancel (show 2 ^ k ∣ 2 ^ 14 from pow_dvd_pow 2 (by omega))
  have htables := Nat.mul_le_mul_right (2 ^ k) h.tables_le
  have hbehind := Nat.mul_le_mul_right (2 ^ k) (show c.EFISystemPartitionStartLBA.toNat ≤
    c.dataPartitionStartLBA.toNat + c.dataPartitionSizeLBA.toNat by omega)
  have hlast := Nat.mul_le_mul_right (2 ^ k) (show c.dataPartitionStartLBA.toNat +
    c.dataPartitionSizeLBA.toNat ≤ c.totalImageSizeLBA.toNat - 1 by omega)
  rw [Nat.add_mul, hsize] at htables
  have hzero : (0 : U64).toNat = 0 := rfl
  have hone : (SectionsInLBASize.protectiveMBR.setWidth 64 : U64) = 1 := rfl
  have hone' : (SectionsInLBASize.gptHeader.setWidth 64 : U64) = 1 := rfl
  constructor
  · simp only [writeMBR, writeGPTs, hone, hone', List.cons_append, List.nil_append,
      List.forall_mem_cons, List.not_mem_nil, false_implies, implies_true, and_true, hzero,
      length_protectiveMBR, length_primaryGPTHeader, length_backupGPTHeader,
      length_partitionEntries, hheader, htable, hbackup, hbackupHeader, hpt, gptHeaderSize]
    omega
  · refine List.pairwise_append.mpr ⟨List.pairwise_singleton _ _, h.writeGPTs_apart hk hk' hfits,
      fun s hs t ht => ?_⟩
    obtain rfl := List.mem_singleton.mp hs
    left
    revert t
    simp only [writeGPTs, hone, hone', List.forall_mem_cons, List.not_mem_nil, false_implies,
      implies_true, and_true, hzero, length_protectiveMBR, hheader, htable, hbackup, hbackupHeader,
      hpt]
    omega

end Copies

/-! ## All of the image -/

section Image

variable {LBASizeBytes : U16} {efiSizeBytes kernelSizeBytes : U64} {alignmentSizeBytes : U32}
  {c : Configuration} {k j a efiBlocks kernelBlocks : Nat}
  {efiReads kernelReads : List (Option (List U8))} {application kernel : List U8}

/-- In a planned image the copy of the first FAT does no harm where it is planned so. -/
theorem PlannedLayout.mirrorHarmless (h : PlannedLayout c (2 ^ k) a efiBlocks kernelBlocks)
    (hs : c.layout.Spread) (hmirror : MirrorAside (2 ^ k) a efiBlocks) :
    MirrorHarmless c.layout efiBlocks c.dataPartitionOffset := by
  obtain ⟨hbehind, hwithin⟩ := hmirror
  have hfat : c.layout.primaryFAT + 4 * c.layout.FATSizeBytes.toNat =
      (maskUp (tablesLBA (2 ^ k)) a + 32 + 4 * maskedFATSectors (2 ^ k) a efiBlocks) * 2 ^ k := by
    rw [h.primaryFAT_eq hs, h.FATSizeBytes]
    ring
  have hfat' : c.layout.primaryFAT + 5 * c.layout.FATSizeBytes.toNat =
      (maskUp (tablesLBA (2 ^ k)) a + 32 + 5 * maskedFATSectors (2 ^ k) a efiBlocks) * 2 ^ k := by
    rw [h.primaryFAT_eq hs, h.FATSizeBytes]
    ring
  constructor
  · rw [h.dataAddress_eq hs, hfat]
    exact Nat.mul_le_mul_right _ (by omega)
  · rw [hfat', h.dataOffset]
    exact Nat.mul_le_mul_right _ (by omega)

/-- A configuration whose image is as planned. -/
structure ImagePlanned (c : Configuration) (k a efiBlocks kernelBlocks : Nat) : Prop where
  low : 9 ≤ k
  high : k ≤ 12
  planned : Planned c (2 ^ k) a efiBlocks kernelBlocks
  layout : PlannedLayout c (2 ^ k) a efiBlocks kernelBlocks
  roomy : c.layout.Roomy efiBlocks
  FATs : c.efi.FATSize32Sectors.toNat * c.efi.bytesPerSector.toNat = c.layout.FATSizeBytes.toNat
  fits : imageLBA (2 ^ k) a efiBlocks kernelBlocks * 2 ^ k < 2 ^ 32

/-- Below 4 GiB the image is as planned. -/
theorem setConfiguration_imagePlanned (hL : IsTwoPow LBASizeBytes k) (hk : 9 ≤ k) (hk' : k ≤ 12)
    (ha : IsTwoPow alignmentSizeBytes j)
    (hfits : imageLBA (2 ^ k) (blockAlignment (2 ^ k) alignmentSizeBytes.toNat)
      (fileLBA (2 ^ k) efiSizeBytes.toNat) (fileLBA (2 ^ k) kernelSizeBytes.toNat) * 2 ^ k <
        2 ^ 32) :
    ImagePlanned (setConfiguration LBASizeBytes efiSizeBytes kernelSizeBytes alignmentSizeBytes) k
      (blockAlignment (2 ^ k) alignmentSizeBytes.toNat) (fileLBA (2 ^ k) efiSizeBytes.toNat)
      (fileLBA (2 ^ k) kernelSizeBytes.toNat) := by
  have hplan := planFits_of_bytes_lt hk hk' (blockAlignment_lt alignmentSizeBytes hk) hfits
  obtain ⟨hp, hpartition⟩ := setConfiguration_planned_of hL hk hk' hplan
  have hlayout := setConfiguration_plannedLayout hL hk' hp hpartition hfits
  obtain ⟨hroom, hblocks, hmin, htable⟩ := plan_room hk'
    (blockAlignment (2 ^ k) alignmentSizeBytes.toNat) (fileLBA (2 ^ k) efiSizeBytes.toNat)
  have hefiLt : efiSizeBytes.toNat < 2 ^ 32 := by
    refine ((le_fileLBA_mul k _).trans (Nat.mul_le_mul_right _ ?_)).trans_lt hfits
    rw [imageLBA]
    omega
  obtain ⟨hs, -, hF⟩ := spread_setConfiguration kernelSizeBytes hL hk ha hefiLt
  rw [hpartition.clusters] at hF
  refine ⟨hk, hk', hp, hlayout, hlayout.roomy hk' hs hF, ?_, hfits⟩
  rw [hpartition.FATSectors, hpartition.bytesPerSector, hlayout.FATSizeBytes]

/-- What lies in the span of the partition is what the writer of the partition made of it. -/
theorem HoldsVolume.congr {v : Volume} {bytes bytes' : Nat → U8} (h : HoldsVolume c v bytes)
    (hs : c.layout.Spread) (hsame : ∀ x, c.layout.reservedSectors ≤ x →
      x < c.layout.dataAddress (v.next c.layout.bytesPerSector.toNat) → bytes' x = bytes x) :
    HoldsVolume c v bytes' := by
  obtain ⟨hsector, image, hstores, hvolume⟩ := h
  have hprimary := hs.primaryFAT
  have hdata := hs.dataClusters
  have hbytes := hs.sector_bounds.1
  have hbase : c.layout.dataClusters ≤ c.layout.dataAddress (v.next
    c.layout.bytesPerSector.toNat) := Nat.le_add_right _ _
  refine ⟨hsector.congr fun x hge hlt => hsame x hge ?_, image, hstores, fun x hge hlt =>
    (hsame x (by omega) hlt).trans (hvolume x hge hlt)⟩
  rw [length_biosParameterBlock] at hlt
  omega

/-- The bytes of an image: the tables, the volume in the span of the partition, and the kernel
behind it. -/
structure Filled (c : Configuration) (v : Volume) (kernel : List U8) (bytes : Nat → U8) : Prop where
  tables : Tables c bytes
  volume : HoldsVolume c v bytes
  kernel : HoldsAt bytes c.dataPartitionOffset
    (kernel ++ zeros (c.dataPartitionSizeLBA.toNat * c.LBASizeBytes.toNat - kernel.length))

/-- Firmware finds everything in such an image. -/
theorem Filled.bootable (h : ImagePlanned c k a efiBlocks kernelBlocks)
    {kernelCluster diskCluster : U32} {bytes : Nat → U8}
    (hfilled : Filled c (bootVolume application (kernelInf c (BitVec.ofNat 64 kernel.length))
      (diskDataInf c) kernelCluster diskCluster) kernel bytes) :
    Bootable c application kernel bytes := by
  have hp := h.planned
  have hreserved : c.EFISystemPartitionStartLBA.toNat * 2 ^ k = c.layout.reservedSectors := by
    rw [h.layout.reservedSectors, hp.efiStart]
  have hoffset : c.dataPartitionOffset = c.dataPartitionStartLBA.toNat * 2 ^ k := by
    rw [h.layout.dataOffset, hp.dataStart]
  have hwide (b : U32) : (b.setWidth 64 : U64).toNat = b.toNat :=
    BitVec.toNat_setWidth_of_le (by norm_num)
  have hsystem (directories : List (List U8)) (name : List U8) :
      systemFile bytes c.LBASizeBytes.toNat directories name =
        Fat32.readFile bytes c.layout.reservedSectors directories name := by
    rw [systemFile, hp.blockSize, hfilled.tables.find_efi hp h.fits, ← hreserved]
    simp only [Option.bind_eq_bind, Option.bind_some, efiSystemPartitionEntry, hwide]
  obtain ⟨happlication, hkernelInf, hdiskDataInf⟩ := hfilled.volume.readFiles h.roomy.spread h.FATs
  refine ⟨hfilled.tables.mbr, hfilled.tables.gptsVerify hp h.low h.high h.fits, ?_, ?_, ?_, ?_, ?_⟩
  · rw [hsystem, happlication]
  · rw [hsystem, hkernelInf]
  · rw [hsystem, hdiskDataInf]
  · rw [hp.blockSize, hfilled.tables.find_data hp h.fits, dataPartitionEntry, hwide]
  · have hkernel := hfilled.kernel
    rwa [hoffset, ← hp.blockSize] at hkernel

/-- Where the parts of a planned image are. -/
theorem ImagePlanned.places (h : ImagePlanned c k a efiBlocks kernelBlocks) :
    c.layout.reservedSectors = c.EFISystemPartitionStartLBA.toNat * 2 ^ k ∧
      c.dataPartitionOffset = c.dataPartitionStartLBA.toNat * 2 ^ k ∧
      c.layout.reservedSectors ≤ c.dataPartitionOffset ∧
      c.dataPartitionOffset + c.dataPartitionSizeLBA.toNat * 2 ^ k ≤ c.layout.size ∧
      (c.dataPartitionStartLBA.toNat + c.dataPartitionSizeLBA.toNat) * 2 ^ k =
        c.dataPartitionOffset + c.dataPartitionSizeLBA.toNat * 2 ^ k := by
  have hreserved : c.layout.reservedSectors = c.EFISystemPartitionStartLBA.toNat * 2 ^ k := by
    rw [h.layout.reservedSectors, h.planned.efiStart]
  have hoffset : c.dataPartitionOffset = c.dataPartitionStartLBA.toNat * 2 ^ k := by
    rw [h.layout.dataOffset, h.planned.dataStart]
  have hdata := h.planned.data_eq
  have himage := h.planned.image_eq
  refine ⟨hreserved, hoffset, ?_, ?_, ?_⟩
  · rw [hreserved, hoffset]
    exact Nat.mul_le_mul_right _ (by omega)
  · rw [hoffset, h.layout.size, ← h.planned.total, ← Nat.add_mul]
    exact Nat.mul_le_mul_right _ (by omega)
  · rw [hoffset, Nat.add_mul]

/-- The bytes of an image that holds the tables only. -/
def tableBytes (c : Configuration) : Nat → U8 :=
  applyCopies (fun _ => 0) (writeMBR c ++ writeGPTs c)

/-- The bytes between the primary tables and the data partition. -/
def partitionSpan (c : Configuration) : Span :=
  ⟨c.layout.reservedSectors, c.dataPartitionOffset - c.layout.reservedSectors⟩

theorem ImagePlanned.partitionSpan_stop (h : ImagePlanned c k a efiBlocks kernelBlocks) :
    (partitionSpan c).stop = c.dataPartitionOffset := Nat.add_sub_of_le h.places.2.2.1

/-- The tables leave the partitions empty. -/
theorem ImagePlanned.tableBytes_zero (h : ImagePlanned c k a efiBlocks kernelBlocks) {x : Nat}
    (hge : c.layout.reservedSectors ≤ x)
    (hlt : x < c.dataPartitionOffset + c.dataPartitionSizeLBA.toNat * 2 ^ k) :
    tableBytes c x = 0 := by
  obtain ⟨hreserved, -, -, -, hstop⟩ := h.places
  obtain ⟨hbeside, -⟩ := h.planned.copies_beside h.low h.high h.fits
  refine applyCopies_of_notMem fun copy hcopy => ?_
  have hcopy := hbeside copy hcopy
  rw [hstop, ← hreserved] at hcopy
  omega

/-- The kernel lies behind the partition, and before the backup tables. -/
theorem ImagePlanned.filled (h : ImagePlanned c k a efiBlocks kernelBlocks) {v : Volume}
    {image : Image} (hv : c.layout.dataAddress (v.next c.layout.bytesPerSector.toNat) ≤
      c.dataPartitionOffset) (hvolume : HoldsVolume c v image.bytes)
    (hfits : kernel.length ≤ c.dataPartitionSizeLBA.toNat * 2 ^ k) :
    Filled c v kernel (overwrite (image.within (partitionSpan c) (tableBytes c)).bytes
      c.dataPartitionOffset kernel) := by
  obtain ⟨hreserved, hoffset, hle, hsize, hstop⟩ := h.places
  obtain ⟨hbeside, hapart⟩ := h.planned.copies_beside h.low h.high h.fits
  have hspan := h.partitionSpan_stop
  rw [hstop, ← hreserved] at hbeside
  have hbefore {x : Nat} (hge : c.layout.reservedSectors ≤ x) (hlt : x < c.dataPartitionOffset) :
      overwrite (image.within (partitionSpan c) (tableBytes c)).bytes c.dataPartitionOffset kernel
        x = image.bytes x := by
    rw [overwrite_of_notMem (.inl hlt)]
    exact if_pos ⟨hge, hlt.trans_eq hspan.symm⟩
  have haside {x : Nat} (hx : x < c.layout.reservedSectors ∨
      c.dataPartitionOffset + kernel.length ≤ x) :
      overwrite (image.within (partitionSpan c) (tableBytes c)).bytes c.dataPartitionOffset kernel
        x = tableBytes c x := by
    rw [overwrite_of_notMem (by omega)]
    refine if_neg fun hin => ?_
    have hge : c.layout.reservedSectors ≤ x := hin.1
    have hlt : x < c.dataPartitionOffset := hin.2.trans_eq hspan
    omega
  refine ⟨fun copy hcopy => ?_, ?_, ?_⟩
  · have hcopies : HoldsAt (tableBytes c) copy.address.toNat copy.data :=
      bytesAt_applyCopies hapart hcopy
    refine hcopies.congr fun x hge hlt => haside ?_
    have hcopy := hbeside copy hcopy
    omega
  · exact hvolume.congr h.roomy.spread fun x hge hlt => hbefore hge (hlt.trans_le hv)
  · refine holdsAt_append.mpr ⟨bytesAt_overwrite_self rfl, ?_⟩
    rw [HoldsAt, length_zeros, h.planned.blockSize]
    refine bytesAt_zeros fun i hi => ?_
    rw [haside (.inr (by omega))]
    exact h.tableBytes_zero (by omega) (by omega)

/-- The tables, the partition and the kernel are written to their places. -/
theorem ImagePlanned.createUEFIImage_filled (h : ImagePlanned c k a efiBlocks kernelBlocks)
    (hmirror : MirrorAside (2 ^ k) a efiBlocks) (hefi : Delivers efiReads application)
    (hkernel : Delivers kernelReads kernel) (happlication : application ≠ [])
    (hefiSize : efiSizeBytes.toNat = application.length)
    (hkernelSize : kernelSizeBytes.toNat = kernel.length)
    (hefiBlocks : fileLBA (2 ^ k) application.length = efiBlocks)
    (hkernelBlocks : fileLBA (2 ^ k) kernel.length = kernelBlocks) :
    ∃ kernelCluster diskCluster, ReturnsWith
      (createUEFIImage c efiReads kernelReads efiSizeBytes kernelSizeBytes emptyImage)
      fun done image => done = true ∧ Filled c (bootVolume application
        (kernelInf c kernelSizeBytes) (diskDataInf c) kernelCluster diskCluster) kernel
          image.bytes := by
  obtain ⟨-, -, hle, hsize, -⟩ := h.places
  have hspan := h.partitionSpan_stop
  have hinside := h.layout.tables_inside h.planned h.low h.high h.fits
  have hharmless := h.layout.mirrorHarmless h.roomy.spread hmirror
  have hblocks : (application.length + (c.layout.bytesPerSector.toNat - 1)) /
      c.layout.bytesPerSector.toNat = efiBlocks := by
    rw [h.layout.bytesPerSector]
    exact hefiBlocks
  have hfits : kernel.length ≤ c.dataPartitionSizeLBA.toNat * 2 ^ k := by
    rw [h.planned.dataSize, ← hkernelBlocks]
    exact le_fileLBA_mul k _
  have hMBR (image : Image) : writeCopies c.layout (writeMBR c) image =
      .ok () { image with bytes := applyCopies image.bytes (writeMBR c) } :=
    writeCopies_returns fun copy hcopy => hinside copy (List.mem_append_left _ hcopy)
  have hGPTs (image : Image) : writeCopies c.layout (writeGPTs c) image =
      .ok () { image with bytes := applyCopies image.bytes (writeGPTs c) } :=
    writeCopies_returns fun copy hcopy => hinside copy (List.mem_append_right _ hcopy)
  have hblank : { emptyImage with
      bytes := applyCopies (applyCopies emptyImage.bytes (writeMBR c)) (writeGPTs c) } =
        emptyImage.within (partitionSpan c) (tableBytes c) := by
    simp only [Image.within, Image.mk.injEq, and_true]
    funext x
    have htables : applyCopies (applyCopies emptyImage.bytes (writeMBR c)) (writeGPTs c) x =
      tableBytes c x := congrFun (List.foldl_append ..).symm x
    rw [htables]
    split
    · rename_i hx
      rw [hspan] at hx
      exact h.tableBytes_zero hx.1 (by omega)
    · rfl
  obtain ⟨kernelCluster, diskCluster, image', hvolume, hrun⟩ := writeEFISystemPartition_volume
    h.roomy (R := partitionSpan c) le_rfl (by rw [hspan]; omega) (by rwa [hspan]) hefi happlication
    hefiSize hblocks kernelSizeBytes
  have hdata (image : Image) : readEFIApplication c.layout kernelReads c.dataPartitionOffset
      kernel.length image = .ok (some kernel)
        { image with bytes := overwrite image.bytes c.dataPartitionOffset kernel } :=
    readEFIApplication_delivers hkernel (by omega)
  have hcreated : createUEFIImage c efiReads kernelReads efiSizeBytes kernelSizeBytes emptyImage =
      (pure true : Writer Bool) { image'.within (partitionSpan c) (tableBytes c) with
        bytes := overwrite (image'.within (partitionSpan c) (tableBytes c)).bytes
          c.dataPartitionOffset kernel } := by
    rw [createUEFIImage, bind_of_ok (hMBR _), bind_of_ok (hGPTs _), hblank, bind_of_ok (hrun _)]
    simp only [if_true]
    rw [writeDataPartition, hkernelSize, bind_of_ok (hdata _)]
    rfl
  refine ⟨kernelCluster, diskCluster, true, _, hcreated, rfl, h.filled ?_ hvolume hfits⟩
  rw [next_bootVolume h.roomy.spread hblocks]
  have hbehind := hharmless.behind
  have hwithin := hharmless.within
  omega

/-- The image is as planned, and filled, whenever it is below 4 GiB, the copy of the first FAT is
planned to land in free clusters, and no read of the two files fails. -/
theorem createUEFIImage_planned (hL : IsTwoPow LBASizeBytes k) (hk : 9 ≤ k) (hk' : k ≤ 12)
    (ha : IsTwoPow alignmentSizeBytes j)
    (hfits : imageLBA (2 ^ k) (blockAlignment (2 ^ k) alignmentSizeBytes.toNat)
      (fileLBA (2 ^ k) application.length) (fileLBA (2 ^ k) kernel.length) * 2 ^ k < 2 ^ 32)
    (hmirror : MirrorAside (2 ^ k) (blockAlignment (2 ^ k) alignmentSizeBytes.toNat)
      (fileLBA (2 ^ k) application.length)) (hefi : Delivers efiReads application)
    (hkernel : Delivers kernelReads kernel) (happlication : application ≠ []) :
    let c := setConfiguration LBASizeBytes (BitVec.ofNat 64 application.length)
      (BitVec.ofNat 64 kernel.length) alignmentSizeBytes
    ImagePlanned c k (blockAlignment (2 ^ k) alignmentSizeBytes.toNat)
      (fileLBA (2 ^ k) application.length) (fileLBA (2 ^ k) kernel.length) ∧
    ∃ kernelCluster diskCluster, ReturnsWith (createUEFIImage c efiReads kernelReads
      (BitVec.ofNat 64 application.length) (BitVec.ofNat 64 kernel.length) emptyImage)
        fun done image => done = true ∧ Filled c (bootVolume application
          (kernelInf c (BitVec.ofNat 64 kernel.length)) (diskDataInf c) kernelCluster diskCluster)
            kernel image.bytes := by
  intro c
  have hbytes {n : Nat} (hn : fileLBA (2 ^ k) n ≤ imageLBA (2 ^ k)
      (blockAlignment (2 ^ k) alignmentSizeBytes.toNat) (fileLBA (2 ^ k) application.length)
      (fileLBA (2 ^ k) kernel.length)) : (BitVec.ofNat 64 n).toNat = n := by
    have hle := (le_fileLBA_mul k n).trans (Nat.mul_le_mul_right _ hn)
    exact Nat.mod_eq_of_lt (by omega)
  obtain ⟨hroom, hblocks, hmin, htable⟩ := plan_room hk'
    (blockAlignment (2 ^ k) alignmentSizeBytes.toNat) (fileLBA (2 ^ k) application.length)
  have hefiSize : (BitVec.ofNat 64 application.length).toNat = application.length :=
    hbytes (by rw [imageLBA]; omega)
  have hkernelSize : (BitVec.ofNat 64 kernel.length).toNat = kernel.length :=
    hbytes (by rw [imageLBA]; omega)
  have h : ImagePlanned c k _ (fileLBA (2 ^ k) (BitVec.ofNat 64 application.length).toNat)
      (fileLBA (2 ^ k) (BitVec.ofNat 64 kernel.length).toNat) :=
    setConfiguration_imagePlanned hL hk hk' ha (by rwa [hefiSize, hkernelSize])
  rw [hefiSize, hkernelSize] at h
  exact ⟨h, h.createUEFIImage_filled hmirror hefi hkernel happlication hefiSize hkernelSize rfl rfl⟩

/-- An image is created from which firmware finds the application, and the application the kernel:
whenever the image is below 4 GiB, the copy of the first FAT is planned to land in free clusters,
and no read of the two files fails. -/
theorem createUEFIImage_bootable (hL : IsTwoPow LBASizeBytes k) (hk : 9 ≤ k) (hk' : k ≤ 12)
    (ha : IsTwoPow alignmentSizeBytes j)
    (hfits : imageLBA (2 ^ k) (blockAlignment (2 ^ k) alignmentSizeBytes.toNat)
      (fileLBA (2 ^ k) application.length) (fileLBA (2 ^ k) kernel.length) * 2 ^ k < 2 ^ 32)
    (hmirror : MirrorAside (2 ^ k) (blockAlignment (2 ^ k) alignmentSizeBytes.toNat)
      (fileLBA (2 ^ k) application.length)) (hefi : Delivers efiReads application)
    (hkernel : Delivers kernelReads kernel) (happlication : application ≠ []) :
    let c := setConfiguration LBASizeBytes (BitVec.ofNat 64 application.length)
      (BitVec.ofNat 64 kernel.length) alignmentSizeBytes
    ReturnsWith (createUEFIImage c efiReads kernelReads (BitVec.ofNat 64 application.length)
      (BitVec.ofNat 64 kernel.length) emptyImage) fun done image =>
        done = true ∧ Bootable c application kernel image.bytes := by
  intro c
  obtain ⟨h, kernelCluster, diskCluster, hcreated⟩ := createUEFIImage_planned hL hk hk' ha hfits
    hmirror hefi hkernel happlication
  exact hcreated.weaken fun _ _ hfilled => ⟨hfilled.1, Filled.bootable h hfilled.2⟩

/-- An application of three bytes that is read in two pieces, and a kernel of four bytes. -/
theorem createUEFIImage_bootable_three :
    let c := setConfiguration 512 (BitVec.ofNat 64 3) (BitVec.ofNat 64 4) 512
    ReturnsWith (createUEFIImage c [some [1, 2], some [3]] [some [4, 5, 6, 7]] (BitVec.ofNat 64 3)
      (BitVec.ofNat 64 4) emptyImage) fun done image =>
        done = true ∧ Bootable c [1, 2, 3] [4, 5, 6, 7] image.bytes :=
  @createUEFIImage_bootable 512 512 9 9 [some [1, 2], some [3]] [some [4, 5, 6, 7]] [1, 2, 3]
    [4, 5, 6, 7] (by decide) (by decide) (by decide) (by decide) (by decide +kernel)
    (by decide +kernel) (.piece [1, 2] (.piece [3] (.done []))) (.piece [4, 5, 6, 7] (.done []))
    (by decide)

end Image

end Homegrown.ImageBuilder
