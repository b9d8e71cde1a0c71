import Homegrown.ImageBuilder.Fat

/-!
# The planned geometry and what is written

`calculateEFIPartitionSize` plans the data clusters and the FAT, and
`writeEFISystemPartition` takes clusters one request after the other. The plan counts the
EFI application and the two information files, but neither the root directory nor the
three other directories, and its FAT has no room of its own for the two reserved entries.
Rounding up to a sector of the FAT, to the alignment and to the smallest FAT32 file system
hides this for most sizes.
-/

namespace Homegrown.ImageBuilder

/-! ## The plan as numbers -/

/-- The data clusters for an application of so many blocks, at an alignment in blocks. The
sum is one of 32-bit numbers. -/
def plannedClusters (blocks alignment : Nat) : Nat :=
  roundUp (max 65526 ((blocks + 2) % 2 ^ 32)) alignment

/-- The reserved sectors and two FATs with `entriesPerSector` entries in a sector, before
they are aligned. -/
def reservedAndFATSectors (clusters entriesPerSector : Nat) : Nat :=
  32 + 2 * ((clusters + (entriesPerSector - 1)) / entriesPerSector)

/-- The sectors of one FAT. -/
def plannedFATSectors (clusters entriesPerSector alignment : Nat) : Nat :=
  (roundUp (reservedAndFATSectors clusters entriesPerSector) alignment - 32) / 2

section Plan

variable {LBASizeBytes : U16} {alignmentLBA n : U32} {k e : Nat}

/-- Rounding up to a power of two stays below a larger one exactly when the sum does. -/
theorem roundUp_lt_two_pow_iff {x b : Nat} (hb : e ≤ b) :
    roundUp x (2 ^ e) < 2 ^ b ↔ x + (2 ^ e - 1) < 2 ^ b := by
  have hpos : 0 < 2 ^ e := by positivity
  constructor
  · intro h
    obtain ⟨c, hc⟩ : 2 ^ e ∣ 2 ^ b := pow_dvd_pow 2 hb
    rw [roundUp, hc, Nat.mul_comm (2 ^ e)] at h
    have hquot := Nat.lt_of_mul_lt_mul_right h
    rw [Nat.div_lt_iff_lt_mul hpos, Nat.mul_comm, ← hc] at hquot
    exact hquot
  · intro h
    have hlt := roundUp_lt (x := x) hpos
    omega

theorem requiredDataClusters_eq :
    (maxValue minClustersOfFAT32 (ParameterBlock.sectorsPerCluster.setWidth 32 *
      (n + SectorSize.dataFile.setWidth 32 +
        SectorSize.diskFile.setWidth 32))).toNat =
      max 65526 ((n.toNat + 2) % 2 ^ 32) := by
  have hone : ParameterBlock.sectorsPerCluster.setWidth 32 = 1#32 := rfl
  have hdata : SectorSize.dataFile.setWidth 32 = 1#32 := rfl
  have hdisk : SectorSize.diskFile.setWidth 32 = 1#32 := rfl
  rw [toNat_maxValue, hone, hdata, hdisk, BitVec.one_mul, BitVec.add_assoc, BitVec.toNat_add]
  rfl

/-- The planned clusters, while they are a 32-bit number. -/
theorem toNat_dataClustersCount (ha : IsTwoPow alignmentLBA e)
    (hC : plannedClusters n.toNat (2 ^ e) < 2 ^ 32) :
    (dataClustersCount alignmentLBA n).toNat =
      plannedClusters n.toNat (2 ^ e) := by
  have hsum := (roundUp_lt_two_pow_iff ha.exponent_lt.le).mp hC
  rw [← requiredDataClusters_eq] at hsum
  rw [plannedClusters, ← requiredDataClusters_eq, ← ha]
  exact toNat_alignUpValue ha hsum

/-- Past the 32-bit numbers no clusters are planned. -/
theorem dataClustersCount_wrap (ha : IsTwoPow alignmentLBA e)
    (hC : 2 ^ 32 ≤ plannedClusters n.toNat (2 ^ e)) :
    (dataClustersCount alignmentLBA n).toNat = 0 := by
  have hsum := (roundUp_lt_two_pow_iff ha.exponent_lt.le).not.mp (not_lt.mpr hC)
  rw [← requiredDataClusters_eq] at hsum
  exact alignUpValue_wrap ha (not_lt.mp hsum)

/-- A sector holds a quarter as many entries as bytes. -/
theorem isTwoPow_entriesPerSector (hL : IsTwoPow LBASizeBytes k) (hk : 2 ≤ k) :
    IsTwoPow (LBASizeBytes.setWidth 32 / 4) (k - 2) := by
  have hwide : (LBASizeBytes.setWidth 32).toNat = 2 ^ k := isTwoPow_setWidth hL (by norm_num)
  rw [IsTwoPow, BitVec.toNat_udiv, hwide]
  exact Nat.pow_div hk (by norm_num)

/-- The reserved sectors and the FATs before they are aligned, while their sum fits. -/
theorem toNat_reservedAndFATSectors_of_lt {clusters : U32} (hL : IsTwoPow LBASizeBytes k)
    (hk : 2 ≤ k) (hC : clusters.toNat + 2 ^ (k - 2) ≤ 2 ^ 32)
    (hfits : reservedAndFATSectors clusters.toNat (2 ^ (k - 2)) < 2 ^ 32) :
    (ParameterBlock.reservedSectors.setWidth 32 +
      ceilingDivValue clusters (LBASizeBytes.setWidth 32 / 4) *
        ParameterBlock.FATs.setWidth 32).toNat =
      reservedAndFATSectors clusters.toNat (2 ^ (k - 2)) := by
  have hreq := toNat_ceilingDivValue (isTwoPow_entriesPerSector hL hk) (x := clusters) hC
  rw [reservedAndFATSectors] at hfits
  rw [BitVec.toNat_add, BitVec.toNat_mul, hreq]
  change (32 + _ * 2 % 2 ^ 32) % 2 ^ 32 = _
  rw [reservedAndFATSectors, Nat.mul_comm, Nat.mod_eq_of_lt (by omega), Nat.mod_eq_of_lt (by omega)]

/-- The reserved sectors and the FATs before they are aligned, when the clusters are few
enough for the sum to fit. -/
theorem toNat_reservedAndFATSectors {clusters : U32} (hL : IsTwoPow LBASizeBytes k)
    (hk : 2 ≤ k) (hk' : k ≤ 15) (hC : clusters.toNat < 2 ^ 30) :
    (ParameterBlock.reservedSectors.setWidth 32 +
      ceilingDivValue clusters (LBASizeBytes.setWidth 32 / 4) *
        ParameterBlock.FATs.setWidth 32).toNat =
      reservedAndFATSectors clusters.toNat (2 ^ (k - 2)) ∧
    reservedAndFATSectors clusters.toNat (2 ^ (k - 2)) < 2 ^ 31 + 2 ^ 20 := by
  have hqle : 2 ^ (k - 2) ≤ 2 ^ 13 := Nat.pow_le_pow_right (by norm_num) (by omega)
  have hreqle := Nat.div_le_self (clusters.toNat + (2 ^ (k - 2) - 1)) (2 ^ (k - 2))
  have hlt : reservedAndFATSectors clusters.toNat (2 ^ (k - 2)) < 2 ^ 31 + 2 ^ 20 := by
    rw [reservedAndFATSectors]
    omega
  exact ⟨toNat_reservedAndFATSectors_of_lt hL hk (by omega) (hlt.trans (by norm_num)), hlt⟩

/-- The reserved sectors and the FATs, when the clusters are few enough for all sums to
fit. -/
theorem toNat_reservedAndFATSizeSectors {clusters : U32} (hL : IsTwoPow LBASizeBytes k)
    (hk : 2 ≤ k) (hk' : k ≤ 15) (ha : IsTwoPow alignmentLBA e) (he : e ≤ 22)
    (hC : clusters.toNat < 2 ^ 30) :
    (reservedAndFATSizeSectors LBASizeBytes alignmentLBA clusters).toNat =
      roundUp (reservedAndFATSectors clusters.toNat (2 ^ (k - 2))) (2 ^ e) := by
  have hale : 2 ^ e ≤ 2 ^ 22 := Nat.pow_le_pow_right (by norm_num) he
  obtain ⟨hsum, hlt⟩ := toNat_reservedAndFATSectors hL hk hk' hC
  have hup := toNat_alignUpValue ha (x := ParameterBlock.reservedSectors.setWidth 32 +
    ceilingDivValue clusters (LBASizeBytes.setWidth 32 / 4) * ParameterBlock.FATs.setWidth 32) (by
      rw [hsum]
      omega)
  rwa [hsum, ha] at hup

/-- The sectors of one FAT. -/
theorem toNat_FATSize32Sectors (hL : IsTwoPow LBASizeBytes k) (hk : 2 ≤ k) (hk' : k ≤ 15)
    (ha : IsTwoPow alignmentLBA e) (he : e ≤ 22)
    (hC : plannedClusters n.toNat (2 ^ e) < 2 ^ 30) :
    (calculateEFIPartitionSize LBASizeBytes alignmentLBA
      n).FATSize32Sectors.toNat =
        plannedFATSectors (plannedClusters n.toNat (2 ^ e)) (2 ^ (k - 2))
          (2 ^ e) := by
  have hcount := toNat_dataClustersCount ha (hC.trans (by norm_num))
  have hup := toNat_reservedAndFATSizeSectors hL hk hk' ha he (hcount.trans_lt hC)
  rw [hcount] at hup
  set C := plannedClusters n.toNat (2 ^ e)
  have hle := le_roundUp (x := reservedAndFATSectors C (2 ^ (k - 2))) (a := 2 ^ e) (by positivity)
  have h32 : 32 ≤ reservedAndFATSectors C (2 ^ (k - 2)) := Nat.le_add_right _ _
  change ((reservedAndFATSizeSectors LBASizeBytes alignmentLBA
    (dataClustersCount alignmentLBA n) -
      ParameterBlock.reservedSectors.setWidth 32) / ParameterBlock.FATs.setWidth 32).toNat = _
  rw [BitVec.toNat_udiv, BitVec.toNat_sub_of_le, hup]
  · rfl
  · rw [BitVec.le_def, hup]
    exact h32.trans hle

/-- A FAT has at most half the alignment more sectors than its entries need. -/
theorem plannedFATSectors_mul_le {C q a : Nat} (hq : 0 < q) (ha : 0 < a) :
    plannedFATSectors C q a * q ≤ C + q + a * q / 2 := by
  have hup := roundUp_lt (x := reservedAndFATSectors C q) ha
  have hle := le_roundUp (x := reservedAndFATSectors C q) ha
  have hdiv := Nat.div_mul_le_self (C + (q - 1)) q
  have hsectors : plannedFATSectors C q a ≤ (C + (q - 1)) / q + a / 2 := by
    unfold plannedFATSectors
    simp only [reservedAndFATSectors] at hup hle ⊢
    omega
  have hhalf : a / 2 * q ≤ a * q / 2 := by
    rw [Nat.le_div_iff_mul_le (by norm_num), Nat.mul_right_comm]
    exact Nat.mul_le_mul_right q (Nat.div_mul_le_self a 2)
  have hmul := Nat.mul_le_mul_right q hsectors
  rw [Nat.add_mul] at hmul
  omega

/-- How far the last of the rounded-up parts is filled. -/
theorem ceil_mul_cases {C q : Nat} (hq : 0 < q) :
    (C + (q - 1)) / q * q = C ∧ C % q = 0 ∨
      (C + (q - 1)) / q * q + C % q = C + q ∧ 0 < C % q := by
  obtain ⟨c, r, hr, rfl⟩ : ∃ c r, r < q ∧ C = q * c + r :=
    ⟨C / q, C % q, Nat.mod_lt C hq, (Nat.div_add_mod C q).symm⟩
  rw [Nat.add_assoc, Nat.mul_add_div hq, Nat.mul_add_mod, Nat.mod_eq_of_lt hr]
  rcases Nat.eq_zero_or_pos r with rfl | hpos
  · left
    rw [Nat.div_eq_of_lt (by omega), Nat.add_zero, Nat.mul_comm]
    exact ⟨rfl, rfl⟩
  · right
    rw [Nat.div_eq_of_lt_le (k := 1) (by omega) (by omega), Nat.add_mul, Nat.mul_comm c]
    omega

/-- A FAT has entries for all clusters and the two reserved ones, unless its sectors are
not rounded up at all and their last one is full but for one entry at most. -/
theorem clusters_fit_iff {C q : Nat} (hq : 2 < q) :
    C + 2 ≤ plannedFATSectors C q (2 ^ e) * q ↔
      ¬ (2 ^ e ∣ reservedAndFATSectors C q ∧ (C % q = 0 ∨ C % q = q - 1)) := by
  have hpos : 0 < 2 ^ e := by positivity
  have hmod := Nat.mod_lt C (by omega : 0 < q)
  have hsectors := ceil_mul_cases (C := C) (by omega : 0 < q)
  obtain ⟨t, ht⟩ : ∃ t, t = (C + (q - 1)) / q := ⟨_, rfl⟩
  rw [← ht] at hsectors
  unfold plannedFATSectors
  by_cases hdvd : 2 ^ e ∣ reservedAndFATSectors C q
  · rw [roundUp_of_dvd hpos hdvd]
    have hS : (reservedAndFATSectors C q - 32) / 2 = t := by
      rw [reservedAndFATSectors, ht]
      omega
    rw [hS]
    simp only [hdvd, true_and]
    omega
  · simp only [hdvd, false_and, not_false_iff, iff_true]
    -- Both sums are even, so rounding up adds a sector to each FAT.
    have heven : 2 ∣ roundUp (reservedAndFATSectors C q) (2 ^ e) := by
      cases e with
      | zero => exact absurd (one_dvd _) hdvd
      | succ e => exact (Dvd.intro_left (2 ^ e) rfl).trans dvd_roundUp
    have hle := le_roundUp (x := reservedAndFATSectors C q) hpos
    have hne : roundUp (reservedAndFATSectors C q) (2 ^ e) ≠ reservedAndFATSectors C q :=
      fun h => hdvd (h ▸ dvd_roundUp)
    have hS : t + 1 ≤ (roundUp (reservedAndFATSectors C q) (2 ^ e) - 32) / 2 := by
      rw [reservedAndFATSectors, ← ht] at hle hne heven ⊢
      omega
    have hmul := Nat.mul_le_mul_right q hS
    rw [Nat.add_mul] at hmul
    omega

/-- `FAT_SIZE_BYTES` is a product of 32-bit numbers. -/
theorem toNat_FATSizeBytes (hL : IsTwoPow LBASizeBytes k) (hk : 2 ≤ k) (hk' : k ≤ 15)
    (ha : IsTwoPow alignmentLBA e) (he : e ≤ 22)
    (hC : plannedClusters n.toNat (2 ^ e) < 2 ^ 30) :
    (calculateEFIPartitionSize LBASizeBytes alignmentLBA n).FATSizeBytes.toNat =
      plannedFATSectors (plannedClusters n.toNat (2 ^ e)) (2 ^ (k - 2)) (2 ^ e) *
        2 ^ k % 2 ^ 32 := by
  have hsectors := toNat_FATSize32Sectors hL hk hk' ha he hC
  have hwide : (LBASizeBytes.setWidth 32).toNat = 2 ^ k := isTwoPow_setWidth hL (by norm_num)
  change ((calculateEFIPartitionSize LBASizeBytes alignmentLBA
    n).FATSize32Sectors * LBASizeBytes.setWidth 32).toNat = _
  rw [BitVec.toNat_mul, hsectors, hwide]

/-- A block holds four times as many bytes as entries. -/
theorem two_pow_eq_entries (hk : 2 ≤ k) : 2 ^ k = 2 ^ (k - 2) * 4 := by
  rw [show 4 = 2 ^ 2 by rfl, ← pow_add, Nat.sub_add_cancel hk]

/-- The alignment times the entries in a sector, as long as its bytes are a 32-bit
number. -/
theorem alignment_mul_entries_le (hk : 2 ≤ k) (hek : e + k ≤ 31) :
    2 ^ e * 2 ^ (k - 2) ≤ 2 ^ 29 := by
  rw [← pow_add]
  exact Nat.pow_le_pow_right (by norm_num) (by omega)

/-- The entries of one FAT suffice, as far as its size in bytes is a 32-bit number. -/
theorem FATSizeBytes_suffices_iff (hL : IsTwoPow LBASizeBytes k) (hk : 9 ≤ k) (hk' : k ≤ 15)
    (ha : IsTwoPow alignmentLBA e) (hek : e + k ≤ 31)
    (hC : plannedClusters n.toNat (2 ^ e) < 2 ^ 30) :
    2 + plannedClusters n.toNat (2 ^ e) ≤
        (calculateEFIPartitionSize LBASizeBytes alignmentLBA
          n).FATSizeBytes.toNat / 4 ↔
      plannedFATSectors (plannedClusters n.toNat (2 ^ e)) (2 ^ (k - 2))
          (2 ^ e) * 2 ^ k < 2 ^ 32 ∧
        plannedClusters n.toNat (2 ^ e) + 2 ≤
          plannedFATSectors (plannedClusters n.toNat (2 ^ e)) (2 ^ (k - 2))
            (2 ^ e) * 2 ^ (k - 2) := by
  have hbytes := toNat_FATSizeBytes hL (by omega) hk' ha (by omega) hC
  set C := plannedClusters n.toNat (2 ^ e)
  have hpow := two_pow_eq_entries (k := k) (by omega)
  have hq : 2 ^ (k - 2) ≤ 2 ^ 13 := Nat.pow_le_pow_right (by norm_num) (by omega)
  have haq := alignment_mul_entries_le (e := e) (k := k) (by omega) hek
  have hle := plannedFATSectors_mul_le (C := C) (q := 2 ^ (k - 2)) (a := 2 ^ e)
    (by positivity) (by positivity)
  rw [hbytes, hpow, ← Nat.mul_assoc]
  set x := plannedFATSectors C (2 ^ (k - 2)) (2 ^ e) * 2 ^ (k - 2)
  -- Past 32 bits what is left of the size is too small for the clusters.
  omega

end Plan

/-! ## The clusters that are taken -/

/-- The bytes for which `writeEFISystemPartition` takes clusters, one request after the
other: the directories `EFI`, `BOOT` and `FLOS`, the EFI application, `KERNEL.INF` and
`DISKDATA.INF`. -/
def clusterRequests (c : Configuration) (efiSizeBytes kernelSizeBytes : U64) : List U64 :=
  [BitVec.ofNat 64 dirEntrySize, BitVec.ofNat 64 dirEntrySize, BitVec.ofNat 64 dirEntrySize,
    (efiSizeBytes.setWidth 32).setWidth 64,
    (BitVec.ofNat 32 (kernelInf c kernelSizeBytes).length).setWidth 64,
    (BitVec.ofNat 32 (diskDataInf c).length).setWidth 64]

/-- The clusters that `createContiguousSpaceForNewEntry` takes for requests, from a value
of `CURRENT_FREE_DATA_CLUSTER_INDEX` on. -/
def takenClusters (bytesPerSector : U16) : U32 → List U64 → List U32
  | _, [] => []
  | free, bytes :: requests =>
    let exclusiveLastCluster := free + requiredNewClusters bytesPerSector bytes
    (List.range (exclusiveLastCluster.toNat - free.toNat)).map (free + BitVec.ofNat 32 ·) ++
      takenClusters bytesPerSector exclusiveLastCluster requests

/-- All clusters that `writeEFISystemPartition` takes, the root directory first. -/
def allocatedClusters (c : Configuration) (efiSizeBytes kernelSizeBytes : U64) : List U32 :=
  rootClusterFATIndex ::
    takenClusters c.efi.bytesPerSector 3 (clusterRequests c efiSizeBytes kernelSizeBytes)

section Taken

variable {bytesPerSector : U16} {free : U32} {requests : List U64} {k : Nat}

/-- The clusters taken are those from the first free one on, as many as are required. -/
theorem mem_takenClusters (hfits : free.toNat +
      (requests.map fun bytes => (requiredNewClusters bytesPerSector bytes).toNat).sum < 2 ^ 32)
    (i : U32) : i ∈ takenClusters bytesPerSector free requests ↔
      free.toNat ≤ i.toNat ∧ i.toNat < free.toNat +
        (requests.map fun bytes => (requiredNewClusters bytesPerSector bytes).toNat).sum := by
  induction requests generalizing free with
  | nil => simp [takenClusters]
  | cons bytes requests ih =>
    rw [List.map_cons, List.sum_cons] at hfits ⊢
    have hnext : (free + requiredNewClusters bytesPerSector bytes).toNat =
        free.toNat + (requiredNewClusters bytesPerSector bytes).toNat := by
      rw [BitVec.toNat_add]
      exact Nat.mod_eq_of_lt (by omega)
    rw [takenClusters, List.mem_append, ih (by omega), hnext, Nat.add_sub_cancel_left, List.mem_map]
    have hfirst : (∃ x ∈ List.range (requiredNewClusters bytesPerSector bytes).toNat,
        free + BitVec.ofNat 32 x = i) ↔ free.toNat ≤ i.toNat ∧
          i.toNat < free.toNat + (requiredNewClusters bytesPerSector bytes).toNat := by
      constructor
      · rintro ⟨x, hx, rfl⟩
        rw [List.mem_range] at hx
        rw [BitVec.toNat_add, BitVec.toNat_ofNat, Nat.mod_eq_of_lt (a := x) (by omega),
          Nat.mod_eq_of_lt (by omega)]
        omega
      · rintro ⟨hle, hlt⟩
        refine ⟨i.toNat - free.toNat, List.mem_range.mpr (by omega), ?_⟩
        apply BitVec.eq_of_toNat_eq
        rw [BitVec.toNat_add, BitVec.toNat_ofNat, Nat.mod_eq_of_lt (a := i.toNat - free.toNat)
          (by omega), Nat.mod_eq_of_lt (by omega)]
        omega
    rw [hfirst]
    omega

/-- The clusters required for a 32-bit number of bytes. -/
theorem toNat_requiredNewClusters (hb : IsTwoPow bytesPerSector k) (size : U32) :
    (requiredNewClusters bytesPerSector (size.setWidth 64)).toNat =
      (size.toNat + (2 ^ k - 1)) / 2 ^ k := by
  have hk : 2 ^ k < 2 ^ 16 := Nat.pow_lt_pow_right (by norm_num) hb.exponent_lt
  have hsize : (size.setWidth 64).toNat = size.toNat := BitVec.toNat_setWidth_of_le (by norm_num)
  have hlt := size.isLt
  have hdiv : (size.toNat + (2 ^ k - 1)) / 2 ^ k < 2 ^ 32 := by
    rw [Nat.div_lt_iff_lt_mul (by positivity)]
    have hpos := Nat.one_le_two_pow (n := k)
    omega
  rw [requiredNewClusters, BitVec.toNat_setWidth,
    toNat_ceilingDivValue (isTwoPow_setWidth hb (by norm_num)) (by omega), hsize,
    Nat.mod_eq_of_lt hdiv]

/-- A request of some bytes that fit in a sector takes one cluster. -/
theorem toNat_requiredNewClusters_one (hb : IsTwoPow bytesPerSector k) {n : Nat} (hpos : 0 < n)
    (hn : n ≤ 2 ^ k) :
    (requiredNewClusters bytesPerSector ((BitVec.ofNat 32 n).setWidth 64)).toNat = 1 := by
  have hk : 2 ^ k < 2 ^ 16 := Nat.pow_lt_pow_right (by norm_num) hb.exponent_lt
  rw [toNat_requiredNewClusters hb, BitVec.toNat_ofNat, Nat.mod_eq_of_lt (by omega)]
  exact Nat.div_eq_of_lt_le (by omega) (by omega)

theorem length_diskDataInf (c : Configuration) :
    0 < (diskDataInf c).length ∧ (diskDataInf c).length ≤ 72 := by
  have hbytes := length_U64ToString c.totalImageSizeBytes
  have hblocks := length_U64ToString (c.totalImageSizeLBA.setWidth 64)
  have hnewline : (text "\n").length = 1 := rfl
  have hfirst : (text "DISK_SIZE_BYTES=").length = 16 := rfl
  have hsecond : (text "DISK_SIZE_LBA=").length = 14 := rfl
  simp only [diskDataInf, List.length_append]
  omega

/-- The clusters of an EFI application are few enough for a 32-bit index. -/
theorem taken_le (hk : 9 ≤ k) (efiSizeBytes : U64) :
    (efiSizeBytes.toNat % 2 ^ 32 + (2 ^ k - 1)) / 2 ^ k ≤ 2 ^ 23 + 1 := by
  have hpow : 2 ^ 9 ≤ 2 ^ k := Nat.pow_le_pow_right (by norm_num) hk
  have hmod := Nat.mod_lt efiSizeBytes.toNat (by norm_num : 0 < 2 ^ 32)
  rw [Nat.div_le_iff_le_mul_add_pred (by positivity)]
  omega

/-- The clusters that are taken: six besides those of the EFI application, from the root
directory's on. -/
theorem mem_allocatedClusters {c : Configuration} (hb : IsTwoPow c.efi.bytesPerSector k)
    (hk : 9 ≤ k) (efiSizeBytes kernelSizeBytes : U64) (i : U32) :
    i ∈ allocatedClusters c efiSizeBytes kernelSizeBytes ↔ 2 ≤ i.toNat ∧
      i.toNat < 8 + (efiSizeBytes.toNat % 2 ^ 32 + (2 ^ k - 1)) / 2 ^ k := by
  have hpow : 2 ^ 9 ≤ 2 ^ k := Nat.pow_le_pow_right (by norm_num) hk
  have hkernel := length_kernelInf c kernelSizeBytes
  have hdisk := length_diskDataInf c
  have hdir := toNat_requiredNewClusters_one hb (n := dirEntrySize) (by decide)
    (le_trans (by decide) hpow)
  have hinf := toNat_requiredNewClusters_one hb hkernel.1 (by omega)
  have hinf' := toNat_requiredNewClusters_one hb hdisk.1 (by omega)
  have happ := toNat_requiredNewClusters hb (efiSizeBytes.setWidth 32)
  rw [BitVec.toNat_setWidth] at happ
  have hlt := taken_le hk efiSizeBytes
  have hsum : ((clusterRequests c efiSizeBytes kernelSizeBytes).map fun bytes =>
      (requiredNewClusters c.efi.bytesPerSector bytes).toNat).sum =
      5 + (efiSizeBytes.toNat % 2 ^ 32 + (2 ^ k - 1)) / 2 ^ k := by
    have hentry : BitVec.ofNat 64 dirEntrySize = (BitVec.ofNat 32 dirEntrySize).setWidth 64 := rfl
    simp only [clusterRequests, hentry, List.map_cons, List.map_nil, List.sum_cons, List.sum_nil,
      hdir, hinf, hinf', happ]
    omega
  have hthree : (3 : U32).toNat = 3 := rfl
  have hroot : i = rootClusterFATIndex ↔ i.toNat = 2 := BitVec.toNat_inj.symm
  rw [allocatedClusters, List.mem_cons, mem_takenClusters (by rw [hsum, hthree]; omega), hsum,
    hthree, hroot]
  omega

end Taken

/-! ## When the plan suffices -/

/-- For an application of so many bytes, blocks of `L` bytes and an alignment in blocks:
the clusters that are taken fit into the planned ones, the planned ones and the FAT are
32-bit numbers of bytes, and the sectors of the FATs are rounded up to the alignment or
leave two entries. -/
def GeometrySuffices (bytes L alignment : Nat) : Prop :=
  let blocks := (bytes + (L - 1)) % 2 ^ 64 / L % 2 ^ 32
  let taken := (bytes % 2 ^ 32 + (L - 1)) / L
  let clusters := plannedClusters blocks alignment
  taken + 6 ≤ clusters ∧ clusters < 2 ^ 30 ∧
    plannedFATSectors clusters (L / 4) alignment * L < 2 ^ 32 ∧
    ¬ (alignment ∣ reservedAndFATSectors clusters (L / 4) ∧
      (clusters % (L / 4) = 0 ∨ clusters % (L / 4) = L / 4 - 1))

section Geometry

variable {LBASizeBytes : U16} {alignmentSizeBytes : U32} {k j : Nat}

/-- All clusters that are taken lie among the planned ones when there are as many. -/
theorem allocatedClusters_lt_iff {c : Configuration} (hb : IsTwoPow c.efi.bytesPerSector k)
    (hk : 9 ≤ k) (efiSizeBytes kernelSizeBytes : U64) {n : Nat} :
    (∀ i ∈ allocatedClusters c efiSizeBytes kernelSizeBytes, i.toNat < 2 + n) ↔
      (efiSizeBytes.toNat % 2 ^ 32 + (2 ^ k - 1)) / 2 ^ k + 6 ≤ n := by
  have hlt := taken_le hk efiSizeBytes
  simp only [mem_allocatedClusters hb hk]
  constructor
  · intro h
    have hlast := h (BitVec.ofNat 32 (7 + (efiSizeBytes.toNat % 2 ^ 32 + (2 ^ k - 1)) / 2 ^ k))
    rw [BitVec.toNat_ofNat, Nat.mod_eq_of_lt (by omega)] at hlast
    omega
  · intro h i hi
    omega

/-- All clusters that are taken lie among the planned ones and the FAT has an entry for
each exactly when the plan suffices. -/
theorem plannedGeometry_suffices_iff (efiSizeBytes kernelSizeBytes : U64)
    (hL : IsTwoPow LBASizeBytes k) (hk : 9 ≤ k) (hk' : k ≤ 12)
    (ha : IsTwoPow alignmentSizeBytes j) :
    let c := setConfiguration LBASizeBytes efiSizeBytes kernelSizeBytes alignmentSizeBytes
    (∀ i ∈ allocatedClusters c efiSizeBytes kernelSizeBytes,
        i.toNat < reservedClusterIndices.toNat + c.efi.dataClustersCount.toNat) ∧
      reservedClusterIndices.toNat + c.efi.dataClustersCount.toNat ≤
        c.efi.FATSizeBytes.toNat / 4 ↔
    GeometrySuffices efiSizeBytes.toNat (2 ^ k) (2 ^ (j - k)) := by
  intro c
  have halign := isTwoPow_alignmentInLBA hL ha
  have hj := ha.exponent_lt
  have hblocks := toNat_sizeInLBA hL efiSizeBytes
  have hq : 2 ^ k / 4 = 2 ^ (k - 2) := by
    rw [show 4 = 2 ^ 2 by rfl, Nat.pow_div (by omega) (by norm_num)]
  have hqlt : 2 ^ 1 < 2 ^ (k - 2) := Nat.pow_lt_pow_right (by norm_num) (by omega)
  have htaken : (∀ i ∈ allocatedClusters c efiSizeBytes kernelSizeBytes,
      i.toNat < reservedClusterIndices.toNat + c.efi.dataClustersCount.toNat) ↔
        (efiSizeBytes.toNat % 2 ^ 32 + (2 ^ k - 1)) / 2 ^ k + 6 ≤ c.efi.dataClustersCount.toNat :=
    allocatedClusters_lt_iff hL hk efiSizeBytes kernelSizeBytes
  have hcount : c.efi.dataClustersCount = dataClustersCount
    (alignmentInLBA LBASizeBytes alignmentSizeBytes) (sizeInLBA LBASizeBytes efiSizeBytes) := rfl
  have hfour := c.efi.FATSizeBytes.isLt
  rw [htaken, GeometrySuffices, ← hblocks, hq, ← clusters_fit_iff hqlt]
  change _ + 6 ≤ _ ∧ 2 + _ ≤ _ ↔ _
  generalize (efiSizeBytes.toNat % 2 ^ 32 + (2 ^ k - 1)) / 2 ^ k = taken
  by_cases hC : plannedClusters (sizeInLBA LBASizeBytes efiSizeBytes).toNat (2 ^ (j - k)) < 2 ^ 32
  · rw [hcount, toNat_dataClustersCount halign hC]
    by_cases hC' :
        plannedClusters (sizeInLBA LBASizeBytes efiSizeBytes).toNat (2 ^ (j - k)) < 2 ^ 30
    · have hfits := FATSizeBytes_suffices_iff hL hk (by omega) halign (by omega) hC'
      rw [show c.efi = calculateEFIPartitionSize LBASizeBytes _ _ from rfl, hfits]
      tauto
    · omega
  · rw [hcount, dataClustersCount_wrap halign (not_lt.mp hC)]
    omega

end Geometry

/-- An application of a million bytes, with blocks of 512 bytes aligned to 1 MiB. -/
theorem plannedGeometry_suffices_million :
    let c := setConfiguration 512 1000000 5000000 0x100000
    (∀ i ∈ allocatedClusters c 1000000 5000000,
        i.toNat < reservedClusterIndices.toNat + c.efi.dataClustersCount.toNat) ∧
      reservedClusterIndices.toNat + c.efi.dataClustersCount.toNat ≤
        c.efi.FATSizeBytes.toNat / 4 :=
  (plannedGeometry_suffices_iff (k := 9) (j := 20) 1000000 5000000 (by decide) (by decide)
    (by decide) (by decide)).mpr
      ⟨by decide +kernel, by decide +kernel, by decide +kernel, by decide +kernel⟩

/-- An application of 65524 blocks of 512 bytes, without alignment: 65526 data clusters are
planned, for the application and two more, and the last file gets cluster 65531. -/
theorem plannedGeometry_insufficient :
    ¬ ∀ (LBASizeBytes : U16) (efiSizeBytes kernelSizeBytes : U64) (alignmentSizeBytes : U32)
        (k j : Nat), 1 ≤ efiSizeBytes.toNat → IsTwoPow LBASizeBytes k → 9 ≤ k → k ≤ 12 →
      IsTwoPow alignmentSizeBytes j →
      let c := setConfiguration LBASizeBytes efiSizeBytes kernelSizeBytes alignmentSizeBytes
      (∀ i ∈ allocatedClusters c efiSizeBytes kernelSizeBytes,
          i.toNat < reservedClusterIndices.toNat + c.efi.dataClustersCount.toNat) ∧
        reservedClusterIndices.toNat + c.efi.dataClustersCount.toNat ≤
          c.efi.FATSizeBytes.toNat / 4 := by
  intro h
  have hfits := (h 512 33548288 5000000 512 9 9 (by decide) (by decide) (by decide) (by decide)
    (by decide)).1
  have hcount :
    (setConfiguration 512 33548288 5000000 512).efi.dataClustersCount.toNat = 65526 := by
    decide +kernel
  rw [hcount] at hfits
  have htaken :=
    (allocatedClusters_lt_iff (k := 9) (by decide) (by decide) 33548288 5000000).mp hfits
  revert htaken
  decide

end Homegrown.ImageBuilder
