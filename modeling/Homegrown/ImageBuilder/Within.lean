import Homegrown.Core.Span
import Homegrown.ImageBuilder.Writes

/-!
# What the writer of the EFI system partition touches

As long as the files and the copy of the first FAT lie within a span, `writeEFISystemPartition`
reads and writes nothing outside of it. So it makes of the span what it makes of it in an image
that holds nothing else, and leaves all other bytes as they are.
-/

namespace Homegrown.ImageBuilder

/-- The image, with other bytes outside of a span. -/
def Image.within (R : Span) (outside : Nat → U8) (image : Image) : Image :=
  { image with bytes := fun a => if R.start ≤ a ∧ a < R.stop then image.bytes a else outside a }

/-- So many bytes from an address on lie in a span. -/
def Inside (R : Span) (address n : Nat) : Prop := R.start ≤ address ∧ address + n ≤ R.stop

section Within

variable {R : Span} {outside : Nat → U8} {l : Layout} {image : Image} {address n left : Nat}
  {data name : List U8} {i d : U32}

theorem Inside.sub (h : Inside R address n) {k m : Nat} (hm : k + m ≤ n) :
    Inside R (address + k) m := by
  obtain ⟨hstart, hstop⟩ := h
  exact ⟨by omega, by omega⟩

theorem Image.overwrite_within (h : Inside R address data.length) :
    { image.within R outside with
      bytes := overwrite (image.within R outside).bytes address data } =
      Image.within R outside { image with bytes := overwrite image.bytes address data } := by
  obtain ⟨hstart, hstop⟩ := h
  simp only [Image.within, Image.mk.injEq, and_true]
  funext a
  by_cases ha : address ≤ a ∧ a < address + data.length
  · rw [overwrite, if_pos ha, if_pos ⟨by omega, by omega⟩, overwrite, if_pos ha]
  · rw [overwrite, if_neg ha]
    split
    · rw [overwrite, if_neg ha]
    · rfl

theorem Image.bytesAt_within (h : Inside R address n) :
    bytesAt (image.within R outside).bytes address n = bytesAt image.bytes address n := by
  obtain ⟨hstart, hstop⟩ := h
  exact bytesAt_congr fun i hi => if_pos ⟨by omega, by omega⟩

theorem commutes_write (h : Inside R address data.length) :
    Commutes (Image.within R outside) (write l address data) image := by
  intro _ t hrun
  obtain ⟨hfits, rfl⟩ := write_eq_ok.mp hrun
  exact write_eq_ok.mpr ⟨hfits, Image.overwrite_within h⟩

theorem commutes_read (h : Inside R address n) :
    Commutes (Image.within R outside) (read l address n) image := by
  intro _ t hrun
  obtain ⟨hfits, rfl, rfl⟩ := read_eq_ok.mp hrun
  exact read_eq_ok.mpr ⟨hfits, Image.bytesAt_within h, rfl⟩

/-- Linking touches the entries of the clusters. -/
theorem commutes_linkClusters (last : U32) (h : Inside R (l.primaryFAT + 4 * i.toNat) (4 * left))
    (hfits : i.toNat + left < 2 ^ 32) :
    Commutes (Image.within R outside) (linkClusters l last left i) image := by
  induction left generalizing i image with
  | zero => exact Commutes.pure ()
  | succ left ih =>
    have hnext : (i + 1).toNat = i.toNat + 1 := toNat_add_ofNat (j := 1) (by omega)
    obtain ⟨hstart, hstop⟩ := h
    rw [linkClusters]
    refine (commutes_write ⟨hstart, ?_⟩).bind fun _ _ _ => ih ⟨?_, ?_⟩ (by omega)
    · rw [length_le32]
      omega
    · omega
    · omega

theorem commutes_createContiguousSpaceForNewEntry {bytes : U64}
    (hn : (requiredNewClusters l.bytesPerSector bytes).toNat = n)
    (h : Inside R (l.primaryFAT + 4 * image.currentFreeDataClusterIndex.toNat) (4 * n))
    (hfits : image.currentFreeDataClusterIndex.toNat + n < 2 ^ 32) :
    Commutes (Image.within R outside) (createContiguousSpaceForNewEntry l bytes) image := by
  rw [createContiguousSpaceForNewEntry]
  have hlast : (image.currentFreeDataClusterIndex +
      requiredNewClusters l.bytesPerSector bytes).toNat -
        image.currentFreeDataClusterIndex.toNat = n := by
    rw [BitVec.toNat_add, hn, Nat.mod_eq_of_lt hfits, Nat.add_sub_cancel_left]
  refine Commutes.get_bind rfl ?_
  dsimp only
  rw [hlast]
  refine (commutes_linkClusters _ h hfits).bind fun _ _ _ => ?_
  refine Commutes.bind (Commutes.modify ?_) fun _ _ _ => Commutes.pure _
  rfl

/-- What is written for a new directory lies in a span: its entry in the FAT, and the entries that
it starts with. -/
structure NextInside (R : Span) (l : Layout) (image : Image) : Prop where
  link : Inside R (l.primaryFAT + 4 * image.currentFreeDataClusterIndex.toNat) 4
  cluster : Inside R (getDataCluster l image.currentFreeDataClusterIndex) (2 * dirEntrySize)
  lt : image.currentFreeDataClusterIndex.toNat + 1 < 2 ^ 32

/-- A directory entry is written in its place. -/
theorem commutes_writeDirectoryEntry (hname : IsShortName name) (c : U32)
    (h : Inside R address dirEntrySize) :
    Commutes (Image.within R outside) (writeDirectoryEntry l address c name) image := by
  refine commutes_write ?_
  have hlength : (directoryEntry name c).bytes.length = dirEntrySize := DirEntry.length_bytes hname
  exact hlength.symm ▸ h

/-- The result of taking clusters is the first of them. -/
theorem createContiguousSpaceForNewEntry_result {bytes : U64} {c : U32} {image' : Image}
    (hrun : createContiguousSpaceForNewEntry l bytes image = .ok c image') :
    c = image.currentFreeDataClusterIndex := by
  simp only [createContiguousSpaceForNewEntry, bind_eq_ok, get_eq_ok, modify_eq_ok,
    pure_eq_ok] at hrun
  obtain ⟨_, _, ⟨rfl, rfl⟩, -, -, -, -, -, -, rfl, -⟩ := hrun
  rfl

theorem commutes_createDirectoryAt (hl : l.Spread) (hname : IsShortName name)
    (h : Inside R address dirEntrySize) (hnext : NextInside R l image) :
    Commutes (Image.within R outside) (createDirectoryAt l name d address) image := by
  obtain ⟨k, hk, hpow⟩ := hl.sector
  have hsector := hl.sector_bounds.1
  have hone : (requiredNewClusters l.bytesPerSector (BitVec.ofNat 64 dirEntrySize)).toNat = 1 :=
    toNat_requiredNewClusters_one hpow (n := dirEntrySize) (by decide)
      (by rw [← hpow]; exact le_trans (by decide) hsector)
  refine (commutes_createContiguousSpaceForNewEntry hone hnext.link hnext.lt).bind
    fun c image' hrun => (commutes_writeDirectoryEntry hname c h).bind fun _ _ _ => ?_
  obtain rfl := createContiguousSpaceForNewEntry_result hrun
  refine Commutes.bind ?_ fun _ _ _ => Commutes.pure _
  have hsecond := hnext.cluster.sub (k := dirEntrySize) (m := dirEntrySize) (by decide)
  have hfirst := hnext.cluster.sub (k := 0) (m := dirEntrySize) (by decide)
  rw [Nat.add_zero] at hfirst
  exact (commutes_writeDirectoryEntry ⟨rfl, by decide⟩ _ hfirst).bind fun _ _ _ =>
    commutes_writeDirectoryEntry ⟨rfl, by decide⟩ _ hsecond

/-- A scan touches the directory, and what is written for a new one. -/
theorem commutes_createOrGetDirectoryFrom (hl : l.Spread) (hname : IsShortName name)
    (h : Inside R address (dirEntrySize * left)) (hnext : NextInside R l image) :
    Commutes (Image.within R outside) (createOrGetDirectoryFrom l name d left address) image := by
  induction left generalizing address with
  | zero => exact Commutes.throw _
  | succ left ih =>
    rw [Nat.mul_succ] at h
    have hfirst := h.sub (k := 0) (m := dirEntrySize) (by omega)
    have hrest := h.sub (k := dirEntrySize) (m := dirEntrySize * left) (by omega)
    rw [Nat.add_zero] at hfirst
    rw [createOrGetDirectoryFrom]
    refine (commutes_read hfirst).bind fun found image' hrun => ?_
    obtain ⟨-, -, rfl⟩ := read_eq_ok.mp hrun
    split
    · exact Commutes.pure _
    · split
      · exact commutes_createDirectoryAt hl hname hfirst hnext
      · exact ih hrest

theorem commutes_getNewFileEntryLocationFrom (h : Inside R address (dirEntrySize * left)) :
    Commutes (Image.within R outside) (getNewFileEntryLocationFrom l left address) image := by
  induction left generalizing address with
  | zero => exact Commutes.throw _
  | succ left ih =>
    rw [Nat.mul_succ] at h
    have hle : 0 + fat32ShortNameLen ≤ dirEntrySize * left + dirEntrySize := by
      have hsize : 0 + fat32ShortNameLen ≤ dirEntrySize := by decide
      omega
    have hfirst := h.sub hle
    have hrest := h.sub (k := dirEntrySize) (m := dirEntrySize * left) (by omega)
    rw [Nat.add_zero] at hfirst
    rw [getNewFileEntryLocationFrom]
    refine (commutes_read hfirst).bind fun found image' hrun => ?_
    obtain ⟨-, -, rfl⟩ := read_eq_ok.mp hrun
    split
    · exact Commutes.pure _
    · exact ih hrest

/-- The place for a new file is one of a directory's. -/
theorem getNewFileEntryLocationFrom_place {location : Nat} {image' : Image}
    (hrun : getNewFileEntryLocationFrom l left address image = .ok location image') :
    image' = image ∧ ∃ i < left, location = address + dirEntrySize * i := by
  induction left generalizing address with
  | zero => exact (throw_eq_ok.mp hrun).elim
  | succ left ih =>
    rw [getNewFileEntryLocationFrom, bind_eq_ok] at hrun
    obtain ⟨_, _, hread, hrest⟩ := hrun
    obtain ⟨-, -, rfl⟩ := read_eq_ok.mp hread
    split at hrest
    · obtain ⟨rfl, rfl⟩ := pure_eq_ok.mp hrest
      exact ⟨rfl, 0, Nat.succ_pos _, rfl⟩
    · obtain ⟨himage, i, hi, rfl⟩ := ih hrest
      exact ⟨himage, i + 1, Nat.succ_lt_succ hi, by rw [Nat.mul_succ]; omega⟩

/-- A file touches its directory and the entries of its clusters. -/
theorem commutes_createFileEntryAfterWritingData (hname : IsShortName name)
    (hd : Inside R (getDataCluster l d) l.bytesPerSector.toNat)
    (hn : (requiredNewClusters l.bytesPerSector
      ((BitVec.ofNat 32 data.length).setWidth 64)).toNat = n)
    (hlinks : Inside R (l.primaryFAT + 4 * image.currentFreeDataClusterIndex.toNat) (4 * n))
    (hfits : image.currentFreeDataClusterIndex.toNat + n < 2 ^ 32) :
    Commutes (Image.within R outside) (createFileEntryAfterWritingData l name d data) image := by
  have hentries : 0 + dirEntrySize * entriesInCluster l ≤ l.bytesPerSector.toNat := by
    rw [Nat.zero_add, Nat.mul_comm]
    exact Nat.div_mul_le_self _ _
  have hplaces := hd.sub hentries
  rw [Nat.add_zero] at hplaces
  rw [createFileEntryAfterWritingData]
  refine (commutes_getNewFileEntryLocationFrom hplaces).bind fun location image₁ hlocation => ?_
  obtain ⟨rfl, i, hi, rfl⟩ := getNewFileEntryLocationFrom_place hlocation
  have hplace := hd.sub (entry_le hi)
  have hentry : Inside R (getDataCluster l d + dirEntrySize * i) (dirEntryShortName name
      fat32FileAttributes image₁.currentFreeDataClusterIndex
        (BitVec.ofNat 32 data.length)).length := by
    rw [show (dirEntryShortName name fat32FileAttributes image₁.currentFreeDataClusterIndex
      (BitVec.ofNat 32 data.length)).length = dirEntrySize from DirEntry.length_bytes
        (e := ⟨name, fat32FileAttributes, image₁.currentFreeDataClusterIndex, _⟩) hname]
    exact hplace
  refine Commutes.bind (Commutes.get_bind rfl (commutes_write hentry)) fun _ image₂ hwrite => ?_
  simp only [writeFileEntry, bind_eq_ok, get_eq_ok, write_eq_ok] at hwrite
  obtain ⟨_, _, ⟨rfl, rfl⟩, -, rfl⟩ := hwrite
  refine Commutes.bind (commutes_createContiguousSpaceForNewEntry hn hlinks hfits) fun _ _ _ => ?_
  refine Commutes.modify ?_
  rfl

theorem commutes_createFAT32File (hname : IsShortName name)
    (hd : Inside R (getDataCluster l d) l.bytesPerSector.toNat)
    (hdata : Inside R (getDataCluster l image.currentFreeDataClusterIndex) data.length)
    (hn : (requiredNewClusters l.bytesPerSector
      ((BitVec.ofNat 32 data.length).setWidth 64)).toNat = n)
    (hlinks : Inside R (l.primaryFAT + 4 * image.currentFreeDataClusterIndex.toNat) (4 * n))
    (hfits : image.currentFreeDataClusterIndex.toNat + n < 2 ^ 32) :
    Commutes (Image.within R outside) (createFAT32File l name d data) image := by
  rw [createFAT32File]
  refine Commutes.get_bind rfl ((commutes_write hdata).bind fun _ image' hwrite => ?_)
  obtain ⟨-, rfl⟩ := write_eq_ok.mp hwrite
  exact commutes_createFileEntryAfterWritingData hname hd hn hlinks hfits

theorem commutes_writeReservedEntries (h : Inside R l.primaryFAT 12) :
    Commutes (Image.within R outside) (writeReservedEntries l) image := by
  have hplace (i v : U32) (hi : i.toNat ≤ 2) :
      Inside R (l.primaryFAT + 4 * i.toNat) (le32 v).length :=
    h.sub (by rw [length_le32]; omega)
  rw [writeReservedEntries]
  refine (commutes_write (hplace 0 _ (by decide))).bind fun _ _ _ =>
    (commutes_write (hplace 1 _ (by decide))).bind fun _ _ _ =>
      (commutes_write (hplace 2 _ (by decide))).bind fun _ _ _ => Commutes.modify ?_
  rfl

/-- The copy of a FAT touches both places. -/
theorem commutes_memcpy {source : Nat} (h : Inside R address n) (hsource : Inside R source n) :
    Commutes (Image.within R outside) (memcpy l address source n) image := by
  obtain ⟨hstart, hstop⟩ := h
  obtain ⟨hstart', hstop'⟩ := hsource
  rw [memcpy]
  split
  · refine Commutes.modify ?_
    simp only [Image.within, Image.mk.injEq, and_true]
    funext a
    by_cases ha : address ≤ a ∧ a < address + n
    · rw [if_pos ha, if_pos ⟨by omega, by omega⟩, if_pos ⟨by omega, by omega⟩, if_pos ha]
    · rw [if_neg ha, if_neg ha]
  · exact Commutes.throw _

theorem commutes_writeMirrors {location : Nat} (h : Inside R location l.FATSizeBytes.toNat)
    (hsource : Inside R l.primaryFAT l.FATSizeBytes.toNat) :
    Commutes (Image.within R outside) (writeMirrors l (ParameterBlock.FATs.toNat - 1) location)
      image := by
  rw [show ParameterBlock.FATs.toNat - 1 = 1 from rfl, writeMirrors]
  exact (commutes_memcpy h hsource).bind fun _ _ _ => Commutes.pure _

theorem commutes_writeReservedSectors (hl : l.Spread) (c : Configuration)
    (h : Inside R l.reservedSectors (l.bytesPerSector.toNat * 32)) :
    Commutes (Image.within R outside) (writeReservedSectors c l) image := by
  have hsector := hl.sector_bounds.1
  have hplace {k : Nat} (hk : k ≤ 7) {data : List U8} (hdata : data.length = 512) :
      Inside R (l.reservedSectors + l.bytesPerSector.toNat * k) data.length := by
    have hmul := Nat.mul_le_mul_left l.bytesPerSector.toNat (show k + 1 ≤ 32 by omega)
    rw [Nat.mul_succ] at hmul
    exact h.sub (by omega)
  have hfirst := hplace (k := 0) (by norm_num) (length_biosParameterBlock c)
  have hsecond (n m : U32) := hplace (k := 1) (by norm_num) (length_fileSystemInformation n m)
  rw [Nat.mul_zero, Nat.add_zero] at hfirst
  rw [writeReservedSectors]
  refine Commutes.get_bind rfl ((commutes_write hfirst).bind fun _ _ _ => ?_)
  refine (commutes_write ?_).bind fun _ _ _ =>
    (commutes_write (hplace (by norm_num) (length_biosParameterBlock c))).bind fun _ _ _ =>
      commutes_write (hplace (by norm_num) (length_fileSystemInformation _ _))
  rw [← Nat.mul_one l.bytesPerSector.toNat]
  exact hsecond _ _

end Within

end Homegrown.ImageBuilder
