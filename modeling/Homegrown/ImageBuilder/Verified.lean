import Homegrown.ImageBuilder.Sections
import Homegrown.ImageBuilder.Stored

/-!
# The two copies of the GPT

After `writeGPTs` both headers lie in the blocks that they name, each with its own checksum, and
in front of each lies, or behind it, the table that it names. Only where they lie tells the
copies apart.
-/

namespace Homegrown.ImageBuilder

/-- The bytes of an image after some copies. -/
def applyCopies (bytes : Nat → U8) (copies : List Copy) : Nat → U8 :=
  copies.foldl (fun bytes copy => overwrite bytes copy.address.toNat copy.data) bytes

/-- `sizeof(partitionEntries)`. -/
def partitionEntriesSize : Nat := gptPartitionTableEntries * gptPartitionTableEntrySize

/-- A header lies in its own block and names that of the other one, and both checksums fit. -/
structure HeaderVerifies (bytes : Nat → U8) (L : Nat) (header other : GPTHeader) : Prop where
  stored : bytesAt bytes (header.myLBA.toNat * L) gptHeaderSize = header.bytes
  headerCRC32 : header.headerCRC32 = crc32 { header with headerCRC32 := 0 }.bytes
  partitionTableCRC32 : header.partitionTableCRC32 =
    crc32 (bytesAt bytes (header.partitionTableLBA.toNat * L) partitionEntriesSize)
  alternateLBA : header.alternateLBA = other.myLBA

/-- The fields that do not depend on where a header lies. -/
def GPTHeader.withoutPlace (header : GPTHeader) : GPTHeader :=
  { header with headerCRC32 := 0, myLBA := 0, alternateLBA := 0, partitionTableLBA := 0 }

/-- Both copies of the GPT verify, and hold the same. -/
structure GPTsVerify (c : Configuration) (bytes : Nat → U8) : Prop where
  primary : HeaderVerifies bytes c.LBASizeBytes.toNat (primaryGPTHeader c) (backupGPTHeader c)
  backup : HeaderVerifies bytes c.LBASizeBytes.toNat (backupGPTHeader c) (primaryGPTHeader c)
  places : (primaryGPTHeader c).myLBA = 1 ∧
    (backupGPTHeader c).myLBA.toNat + 1 = c.totalImageSizeLBA.toNat
  fields : (primaryGPTHeader c).withoutPlace = (backupGPTHeader c).withoutPlace
  tables : bytesAt bytes ((primaryGPTHeader c).partitionTableLBA.toNat * c.LBASizeBytes.toNat)
      partitionEntriesSize =
    bytesAt bytes ((backupGPTHeader c).partitionTableLBA.toNat * c.LBASizeBytes.toNat)
      partitionEntriesSize

section Copies

variable {bytes : Nat → U8} {copies : List Copy} {copy : Copy} {address n : Nat}

theorem bytesAt_applyCopies_of_apart (h : ∀ copy ∈ copies, address + n ≤ copy.address.toNat ∨
      copy.address.toNat + copy.data.length ≤ address) :
    bytesAt (applyCopies bytes copies) address n = bytesAt bytes address n := by
  induction copies generalizing bytes with
  | nil => rfl
  | cons copy copies ih =>
    have hrest := @ih (overwrite bytes copy.address.toNat copy.data)
      fun copy hcopy => h copy (List.mem_cons_of_mem _ hcopy)
    exact hrest.trans (bytesAt_overwrite_of_apart (h copy (List.mem_cons_self ..)))

/-- Copies that do not overlap all lie in the image. -/
theorem bytesAt_applyCopies (h : copies.Pairwise fun s t =>
      s.address.toNat + s.data.length ≤ t.address.toNat ∨
        t.address.toNat + t.data.length ≤ s.address.toNat) (hcopy : copy ∈ copies) :
    bytesAt (applyCopies bytes copies) copy.address.toNat copy.data.length = copy.data := by
  induction copies generalizing bytes with
  | nil => exact (List.not_mem_nil hcopy).elim
  | cons first copies ih =>
    obtain ⟨hfirst, hrest⟩ := List.pairwise_cons.mp h
    rcases List.mem_cons.mp hcopy with rfl | hcopy
    · exact (bytesAt_applyCopies_of_apart fun copy hcopy => hfirst copy hcopy).trans
        (bytesAt_overwrite_self rfl)
    · exact ih hrest hcopy

end Copies

section Verify

variable {c : Configuration} {L a efiBlocks kernelBlocks k : Nat}

/-- The checksum of a header is that of its bytes without it. -/
theorem GPTHeader.withCRC32_verifies (header : GPTHeader) :
    header.withCRC32.headerCRC32 = crc32 { header.withCRC32 with headerCRC32 := 0 }.bytes :=
  calculateCRC32_eq _

/-- Neither the checksum nor the place is among the other fields. -/
theorem GPTHeader.withCRC32_withoutPlace (header : GPTHeader) :
    header.withCRC32.withoutPlace = header.withoutPlace := rfl

theorem backup_withoutPlace :
    (primaryGPTHeader c).withoutPlace = (backupGPTHeader c).withoutPlace := by
  rw [backupGPTHeader, GPTHeader.withCRC32_withoutPlace]
  rfl

/-- The copies of the tables of a planned image do not overlap. -/
theorem Planned.writeGPTs_apart (h : Planned c (2 ^ k) a efiBlocks kernelBlocks) (hk : 9 ≤ k)
    (hk' : k ≤ 12) (hfits : imageLBA (2 ^ k) a efiBlocks kernelBlocks * 2 ^ k < 2 ^ 32) :
    (writeGPTs c).Pairwise fun s t => s.address.toNat + s.data.length ≤ t.address.toNat ∨
      t.address.toNat + t.data.length ≤ s.address.toNat := by
  obtain ⟨hheader, htable, hbackup, hbackupHeader⟩ := h.toNat_gptAddresses hfits
  have hpow : 2 ^ 9 ≤ 2 ^ k := Nat.pow_le_pow_right (by norm_num) hk
  have htables := h.tables_le
  have hdata := h.data_eq
  have htotal := h.image_eq
  have hpt := h.toNat_partitionTableLBA
  have hsize : c.GPTPartitionTableSizeLBA.toNat * 2 ^ k = 16384 := by
    rw [h.tableSize]
    exact Nat.div_mul_cancel (show 2 ^ k ∣ 2 ^ 14 from pow_dvd_pow 2 (by omega))
  -- The tables are whole blocks, and the backup ones follow all of the primary ones.
  have hbehind := Nat.mul_le_mul_right (2 ^ k) (show 2 + c.GPTPartitionTableSizeLBA.toNat ≤
    (backupGPTHeader c).partitionTableLBA.toNat by omega)
  have hlast : (c.totalImageSizeLBA.toNat - 1) * 2 ^ k =
      (backupGPTHeader c).partitionTableLBA.toNat * 2 ^ k + 16384 := by
    rw [← hsize, ← Nat.add_mul]
    congr 1
    omega
  rw [Nat.add_mul, hsize] at hbehind
  have hone : (SectionsInLBASize.protectiveMBR.setWidth 64 : U64) = 1 := rfl
  have hone' : (SectionsInLBASize.gptHeader.setWidth 64 : U64) = 1 := rfl
  simp only [writeGPTs, hone, hone', List.pairwise_cons, List.forall_mem_cons, List.not_mem_nil,
    false_implies, implies_true, and_true, List.Pairwise.nil, length_primaryGPTHeader,
    length_backupGPTHeader, length_partitionEntries, hheader, htable, hbackup, hbackupHeader,
    hlast, gptHeaderSize]
  omega

/-- Both copies of the GPT verify after the tables of a planned image were written. -/
theorem Planned.gptsVerify (h : Planned c (2 ^ k) a efiBlocks kernelBlocks) (hk : 9 ≤ k)
    (hk' : k ≤ 12) (hfits : imageLBA (2 ^ k) a efiBlocks kernelBlocks * 2 ^ k < 2 ^ 32)
    (bytes : Nat → U8) : GPTsVerify c (applyCopies bytes (writeGPTs c)) := by
  obtain ⟨hheader, htable, hbackup, hbackupHeader⟩ := h.toNat_gptAddresses hfits
  have hmy := h.toNat_backup_myLBA
  have hstored : ∀ copy ∈ writeGPTs c, bytesAt (applyCopies bytes (writeGPTs c))
      copy.address.toNat copy.data.length = copy.data := fun copy hcopy =>
    bytesAt_applyCopies (h.writeGPTs_apart hk hk' hfits) hcopy
  generalize applyCopies bytes (writeGPTs c) = image at hstored ⊢
  have hone : (SectionsInLBASize.protectiveMBR.setWidth 64 : U64) = 1 := rfl
  have hone' : (SectionsInLBASize.gptHeader.setWidth 64 : U64) = 1 := rfl
  simp only [writeGPTs, hone, hone', List.forall_mem_cons, List.not_mem_nil, false_implies,
    implies_true, and_true, hheader, htable, hbackup, hbackupHeader, length_primaryGPTHeader,
    length_backupGPTHeader, length_partitionEntries] at hstored
  obtain ⟨hprimary, hentries, hbackupEntries, hbackup⟩ := hstored
  have hmyBackup : (backupGPTHeader c).myLBA.toNat = c.totalImageSizeLBA.toNat - 1 :=
    Nat.eq_sub_of_add_eq hmy
  have hprimaryPlaces : (primaryGPTHeader c).myLBA.toNat = 1 ∧
      (primaryGPTHeader c).partitionTableLBA.toNat = 2 := ⟨rfl, rfl⟩
  have hsize : partitionEntriesSize = 16384 := rfl
  have hcrc : (primaryGPTHeader c).partitionTableCRC32 = crc32 (partitionEntries c) :=
    calculateCRC32_eq _
  have hcrc' : (backupGPTHeader c).partitionTableCRC32 = crc32 (partitionEntries c) := hcrc
  constructor
  case primary =>
    refine ⟨?_, GPTHeader.withCRC32_verifies _, ?_, rfl⟩
    · rw [h.blockSize, hprimaryPlaces.1, hprimary]
    · rw [h.blockSize, hprimaryPlaces.2, hsize, hentries, hcrc]
  case backup =>
    refine ⟨?_, GPTHeader.withCRC32_verifies _, ?_, rfl⟩
    · rw [h.blockSize, hmyBackup, hbackup]
    · rw [h.blockSize, hsize, hbackupEntries, hcrc']
  case places => exact ⟨rfl, hmy⟩
  case fields => exact backup_withoutPlace
  case tables =>
    rw [h.blockSize, hprimaryPlaces.2, hsize, hentries, hbackupEntries]

/-- While no 32-bit quantity wraps, both copies of the GPT verify, whatever the image held. -/
theorem setConfiguration_gptsVerify {LBASizeBytes : U16}
    {efiApplicationSizeBytes kernelSizeBytes : U64} {alignmentSizeBytes : U32}
    (hL : IsTwoPow LBASizeBytes k) (hk : 9 ≤ k) (hk' : k ≤ 12)
    (hfits : imageLBA (2 ^ k) (blockAlignment (2 ^ k) alignmentSizeBytes.toNat)
      (fileLBA (2 ^ k) efiApplicationSizeBytes.toNat)
      (fileLBA (2 ^ k) kernelSizeBytes.toNat) * 2 ^ k < 2 ^ 32) (bytes : Nat → U8) :
    let c := setConfiguration LBASizeBytes efiApplicationSizeBytes kernelSizeBytes
      alignmentSizeBytes
    GPTsVerify c (applyCopies bytes (writeGPTs c)) :=
  (setConfiguration_planned hL hk hk' hfits).gptsVerify hk hk' hfits bytes

end Verify

/-- An application of a million bytes and a kernel of five, aligned to 1 MiB. -/
theorem setConfiguration_gptsVerify_million :
    let c := setConfiguration 512 1000000 5000000 0x100000
    GPTsVerify c (applyCopies (fun _ => 0) (writeGPTs c)) :=
  setConfiguration_gptsVerify (k := 9) (by decide) (by decide) (by decide) (by decide +kernel) _

end Homegrown.ImageBuilder
