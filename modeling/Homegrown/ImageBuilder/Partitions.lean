import Homegrown.Core.Gpt
import Homegrown.ImageBuilder.Readable
import Homegrown.ImageBuilder.Verified

/-!
# The partitions as firmware finds them

Where the copies of `writeMBR` and `writeGPTs` lie in an image, firmware finds both partitions by
their types (`Tables.find_efi`, `Tables.find_data`).
-/

namespace Homegrown.ImageBuilder

open Fat32

theorem ofLittleEndian_append (xs ys : List U8) :
    ofLittleEndian (xs ++ ys) = ofLittleEndian xs + 256 ^ xs.length * ofLittleEndian ys := by
  induction xs with
  | nil => simp [ofLittleEndian]
  | cons x xs ih =>
    rw [List.cons_append, ofLittleEndian, ofLittleEndian, ih, List.length_cons, pow_succ]
    ring

theorem ofLittleEndian_le64 (v : U64) : ofLittleEndian (le64 v) = v.toNat := by
  have hlt := v.isLt
  rw [le64, ofLittleEndian_append, ofLittleEndian_le32, ofLittleEndian_le32, length_le32,
    BitVec.toNat_setWidth, BitVec.toNat_setWidth, BitVec.toNat_ushiftRight,
    Nat.shiftRight_eq_div_pow]
  omega

section Fields

variable {bytes : Nat → U8} {address : Nat}

theorem HoldsAt.number_le64 {v : U64} (h : HoldsAt bytes address (le64 v)) :
    number bytes address 8 = v.toNat := (congrArg ofLittleEndian h).trans (ofLittleEndian_le64 v)

theorem length_uuid {u : UUID} (h : u.node.length = 6) : u.bytes.length = 16 := by
  simp [UUID.bytes, h]

/-- What firmware reads in a header. -/
theorem HoldsAt.header {header : GPTHeader} (h : HoldsAt bytes address header.bytes)
    (hsignature : header.signature.length = 8) (hguid : header.diskGUID.node.length = 6) :
    slice bytes address 8 = header.signature ∧
      number bytes (address + 72) 8 = header.partitionTableLBA.toNat ∧
      number bytes (address + 80) 4 = header.numberOfEntries.toNat ∧
      number bytes (address + 84) 4 = header.sizeOfEntry.toNat := by
  have huuid := length_uuid hguid
  unfold GPTHeader.bytes at h
  simp only [holdsAt_append, and_assoc, List.length_append, length_le32, length_le64, hsignature,
    huuid, Nat.reduceAdd] at h
  obtain ⟨hsig, -, -, -, -, -, -, -, -, -, htable, hcount, hsize, -⟩ := h
  refine ⟨?_, htable.number_le64, hcount.number_le32, hsize.number_le32⟩
  have hslice : slice bytes address header.signature.length = header.signature := hsig
  rwa [hsignature] at hslice

/-- What firmware reads in an entry. -/
theorem HoldsAt.entry {e : GPTPartitionEntry} (h : HoldsAt bytes address e.bytes)
    (htype : e.partitionTypeGUID.node.length = 6)
    (hunique : e.uniquePartitionGUID.node.length = 6) :
    Gpt.Partition.read bytes address =
      ⟨e.partitionTypeGUID.bytes, e.startingLBA.toNat, e.endingLBA.toNat⟩ := by
  have huuid := length_uuid htype
  unfold GPTPartitionEntry.bytes at h
  simp only [holdsAt_append, and_assoc, List.length_append, length_le64, length_uuid hunique,
    huuid, Nat.reduceAdd] at h
  obtain ⟨hguid, -, hstart, hend, -⟩ := h
  rw [Gpt.Partition.read, hstart.number_le64, hend.number_le64, ← huuid]
  exact congrArg (Gpt.Partition.mk · _ _) hguid

end Fields

/-! ## The tables of an image -/

/-- The image holds what `writeMBR` and `writeGPTs` copy into it. -/
def Tables (c : Configuration) (bytes : Nat → U8) : Prop :=
  ∀ copy ∈ writeMBR c ++ writeGPTs c, HoldsAt bytes copy.address.toNat copy.data

section Apply

variable {bytes : Nat → U8} {copies : List Copy} {address : Nat} {data : List U8}

theorem overwrite_of_holdsAt (h : HoldsAt bytes address data) :
    overwrite bytes address data = bytes := by
  funext a
  rw [overwrite]
  split
  · rename_i ha
    obtain ⟨i, rfl⟩ := Nat.exists_eq_add_of_le ha.1
    have hi : i < data.length := by omega
    have hbyte := congrArg (fun xs => xs.getD i 0) h
    simp only [bytesAt] at hbyte
    rw [List.getD_eq_getElem?_getD, List.getElem?_map, List.getElem?_range hi, Option.map_some,
      Option.getD_some] at hbyte
    rw [hbyte, Nat.add_sub_cancel_left]
  · rfl

/-- Copying what an image holds changes nothing. -/
theorem applyCopies_of_holdsAt (h : ∀ copy ∈ copies, HoldsAt bytes copy.address.toNat copy.data) :
    applyCopies bytes copies = bytes := by
  induction copies with
  | nil => rfl
  | cons copy copies ih =>
    have hfirst := overwrite_of_holdsAt (h copy (List.mem_cons_self ..))
    change applyCopies (overwrite bytes copy.address.toNat copy.data) copies = bytes
    rw [hfirst]
    exact ih fun copy hcopy => h copy (List.mem_cons_of_mem _ hcopy)

end Apply

namespace Tables

variable {c : Configuration} {bytes : Nat → U8} {k a efiBlocks kernelBlocks : Nat}

theorem mbr (h : Tables c bytes) :
    HoldsAt bytes 0 (protectiveMBR (c.totalImageSizeLBA.setWidth 64)) := by
  simp only [Tables, writeMBR, List.cons_append, List.nil_append, List.forall_mem_cons] at h
  exact h.1

/-- Both copies of the GPT verify. -/
theorem gptsVerify (h : Tables c bytes) (hp : Planned c (2 ^ k) a efiBlocks kernelBlocks)
    (hk : 9 ≤ k) (hk' : k ≤ 12)
    (hfits : imageLBA (2 ^ k) a efiBlocks kernelBlocks * 2 ^ k < 2 ^ 32) : GPTsVerify c bytes := by
  have hverify := hp.gptsVerify hk hk' hfits bytes
  rwa [applyCopies_of_holdsAt fun copy hcopy => h copy (List.mem_append_right _ hcopy)] at hverify

/-- The primary header and its table. -/
theorem primary (h : Tables c bytes) (hp : Planned c (2 ^ k) a efiBlocks kernelBlocks)
    (hfits : imageLBA (2 ^ k) a efiBlocks kernelBlocks * 2 ^ k < 2 ^ 32) :
    HoldsAt bytes (2 ^ k) (primaryGPTHeader c).bytes ∧
      HoldsAt bytes (2 * 2 ^ k) (partitionEntries c) := by
  obtain ⟨hheader, htable, -⟩ := hp.toNat_gptAddresses hfits
  have hone : (SectionsInLBASize.protectiveMBR.setWidth 64 : U64) = 1 := rfl
  have hone' : (SectionsInLBASize.gptHeader.setWidth 64 : U64) = 1 := rfl
  simp only [Tables, writeGPTs, hone, hone', List.forall_mem_append, List.forall_mem_cons, hheader,
    htable, Nat.one_mul] at h
  exact ⟨h.2.1, h.2.2.1⟩

/-- What firmware knows of the table of the partitions. -/
theorem header (h : Tables c bytes) (hp : Planned c (2 ^ k) a efiBlocks kernelBlocks)
    (hfits : imageLBA (2 ^ k) a efiBlocks kernelBlocks * 2 ^ k < 2 ^ 32) :
    slice bytes (2 ^ k) 8 = Gpt.signature ∧ Gpt.tableAddress bytes (2 ^ k) = 2 * 2 ^ k ∧
      Gpt.numberOfEntries bytes (2 ^ k) = 128 ∧ Gpt.sizeOfEntry bytes (2 ^ k) = 128 := by
  obtain ⟨hheader, -⟩ := h.primary hp hfits
  obtain ⟨hsignature, htable, hcount, hsize⟩ := hheader.header rfl rfl
  exact ⟨hsignature, congrArg (· * 2 ^ k) htable, hcount, hsize⟩

/-- The first two entries of the table. -/
theorem entries (h : Tables c bytes) (hp : Planned c (2 ^ k) a efiBlocks kernelBlocks)
    (hfits : imageLBA (2 ^ k) a efiBlocks kernelBlocks * 2 ^ k < 2 ^ 32) :
    Gpt.entry bytes (2 ^ k) 0 = ⟨efiSystemPartitionGUID.bytes,
        (efiSystemPartitionEntry c).startingLBA.toNat,
        (efiSystemPartitionEntry c).endingLBA.toNat⟩ ∧
      Gpt.entry bytes (2 ^ k) 1 = ⟨flosBasicDataGUID.bytes,
        (dataPartitionEntry c).startingLBA.toNat, (dataPartitionEntry c).endingLBA.toNat⟩ := by
  obtain ⟨-, htable⟩ := h.primary hp hfits
  obtain ⟨-, haddress, -, hsize⟩ := h.header hp hfits
  have hlength : (efiSystemPartitionEntry c).bytes.length = 128 := rfl
  rw [partitionEntries, holdsAt_append, holdsAt_append, hlength] at htable
  obtain ⟨⟨hefi, hdata⟩, -⟩ := htable
  rw [Gpt.entry, Gpt.entry, haddress, hsize, Nat.zero_mul, Nat.add_zero, Nat.one_mul]
  exact ⟨hefi.entry rfl rfl, hdata.entry rfl rfl⟩

/-- Firmware finds the EFI system partition. -/
theorem find_efi (h : Tables c bytes) (hp : Planned c (2 ^ k) a efiBlocks kernelBlocks)
    (hfits : imageLBA (2 ^ k) a efiBlocks kernelBlocks * 2 ^ k < 2 ^ 32) :
    Gpt.find bytes (2 ^ k) efiSystemPartitionGUID.bytes = some ⟨efiSystemPartitionGUID.bytes,
      (efiSystemPartitionEntry c).startingLBA.toNat,
      (efiSystemPartitionEntry c).endingLBA.toNat⟩ := by
  obtain ⟨hsignature, -, hcount, -⟩ := h.header hp hfits
  obtain ⟨hefi, -⟩ := h.entries hp hfits
  rw [← hefi]
  exact Gpt.find_of_entry hsignature (by rw [hcount]; norm_num) (by rw [hefi]) (by omega)

/-- Firmware finds the data partition. -/
theorem find_data (h : Tables c bytes) (hp : Planned c (2 ^ k) a efiBlocks kernelBlocks)
    (hfits : imageLBA (2 ^ k) a efiBlocks kernelBlocks * 2 ^ k < 2 ^ 32) :
    Gpt.find bytes (2 ^ k) flosBasicDataGUID.bytes = some ⟨flosBasicDataGUID.bytes,
      (dataPartitionEntry c).startingLBA.toNat, (dataPartitionEntry c).endingLBA.toNat⟩ := by
  obtain ⟨hsignature, -, hcount, -⟩ := h.header hp hfits
  obtain ⟨hefi, hdata⟩ := h.entries hp hfits
  rw [← hdata]
  refine Gpt.find_of_entry hsignature (by rw [hcount]; norm_num) (by rw [hdata]) fun j hj => ?_
  obtain rfl : j = 0 := by omega
  rw [hefi]
  exact show efiSystemPartitionGUID.bytes ≠ flosBasicDataGUID.bytes by decide

/-- The other entries of the table are zero. -/
theorem entry_zero (h : Tables c bytes) (hp : Planned c (2 ^ k) a efiBlocks kernelBlocks)
    (hfits : imageLBA (2 ^ k) a efiBlocks kernelBlocks * 2 ^ k < 2 ^ 32) {i : Nat} (hi : i < 126) :
    (Gpt.entry bytes (2 ^ k) (i + 2)).typeGUID = zeros 16 := by
  obtain ⟨-, htable⟩ := h.primary hp hfits
  obtain ⟨-, haddress, -, hsize⟩ := h.header hp hfits
  have hefi : (efiSystemPartitionEntry c).bytes.length = 128 := rfl
  have hdata : (dataPartitionEntry c).bytes.length = 128 := rfl
  have hzeros (n : Nat) (hn : 128 * i + 16 ≤ n) :
      zeros n = zeros (128 * i) ++ (zeros 16 ++ zeros (n - (128 * i + 16))) := by
    simp only [zeros, List.replicate_append_replicate]
    exact congrArg (fun n => List.replicate n (0 : U8)) (by omega)
  rw [partitionEntries, holdsAt_append, List.length_append, hefi, hdata] at htable
  obtain ⟨-, hothers⟩ := htable
  rw [hzeros _ (show _ ≤ (gptPartitionTableEntries - 2) * gptPartitionTableEntrySize by
      rw [gptPartitionTableEntries, gptPartitionTableEntrySize]
      omega), holdsAt_append, holdsAt_append, length_zeros] at hothers
  obtain ⟨-, htype, -⟩ := hothers
  rw [Gpt.entry, haddress, hsize, Gpt.Partition.read]
  have haddress : 2 * 2 ^ k + (i + 2) * 128 = 2 * 2 ^ k + 256 + 128 * i := by ring
  rw [haddress]
  exact htype

/-- Firmware finds no other partitions. -/
theorem partitions_eq (h : Tables c bytes) (hp : Planned c (2 ^ k) a efiBlocks kernelBlocks)
    (hfits : imageLBA (2 ^ k) a efiBlocks kernelBlocks * 2 ^ k < 2 ^ 32) :
    Gpt.partitions bytes (2 ^ k) =
      [⟨efiSystemPartitionGUID.bytes, (efiSystemPartitionEntry c).startingLBA.toNat,
          (efiSystemPartitionEntry c).endingLBA.toNat⟩,
        ⟨flosBasicDataGUID.bytes, (dataPartitionEntry c).startingLBA.toNat,
          (dataPartitionEntry c).endingLBA.toNat⟩] := by
  obtain ⟨hsignature, -, hcount, -⟩ := h.header hp hfits
  obtain ⟨hefi, hdata⟩ := h.entries hp hfits
  have hrange : List.range 128 = 0 :: 1 :: (List.range 126).map (· + 2) := by decide
  have hothers : (((List.range 126).map (· + 2)).map (Gpt.entry bytes (2 ^ k))).filter
      (fun p => p.typeGUID ≠ List.replicate 16 0) = [] := by
    rw [List.filter_eq_nil_iff, List.map_map, List.forall_mem_map]
    intro i hi
    have hzero := h.entry_zero hp hfits (List.mem_range.mp hi)
    exact fun hne => of_decide_eq_true hne hzero
  rw [Gpt.partitions, if_pos hsignature, hcount, hrange, List.map_cons, List.map_cons, hefi, hdata,
    List.filter_cons_of_pos, List.filter_cons_of_pos, hothers]
  · exact show decide (flosBasicDataGUID.bytes ≠ List.replicate 16 0) = true by decide
  · exact show decide (efiSystemPartitionGUID.bytes ≠ List.replicate 16 0) = true by decide

end Tables

end Homegrown.ImageBuilder
