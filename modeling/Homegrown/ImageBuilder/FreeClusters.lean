import Homegrown.ImageBuilder.Stored
import Mathlib.Order.Bounds.Basic

/-!
# The free clusters

The first free cluster is a cursor: the entries of the first FAT below it are taken, and those
from it on are zero. `FSInfo` gives it as the next free cluster. The count of the free clusters
is the number of data clusters less the cursor, which also counts the two reserved entries: it
is always two too small.
-/

namespace Homegrown.ImageBuilder

/-- A 32-bit number in memory. -/
def loadU32 (bytes : Nat → U8) (address : Nat) : U32 :=
  bytes (address + 3) ++ bytes (address + 2) ++ bytes (address + 1) ++ bytes address

/-- `FSInfo.freeCount`, in a sector. -/
def freeCountAt (bytes : Nat → U8) (sector : Nat) : U32 := loadU32 bytes (sector + 488)

/-- `FSInfo.nextFree`, in a sector. -/
def nextFreeAt (bytes : Nat → U8) (sector : Nat) : U32 := loadU32 bytes (sector + 492)

/-- Where the primary copy of `FSInfo` is. -/
def Layout.primaryFSInfo (l : Layout) : Nat := l.reservedSectors + l.bytesPerSector.toNat

/-- Where the backup copy of `FSInfo` is. -/
def Layout.backupFSInfo (l : Layout) : Nat := l.reservedSectors + l.bytesPerSector.toNat * 7

/-- The data clusters, of so many, whose entry in the first FAT is zero. -/
def IsFreeCluster (l : Layout) (bytes : Nat → U8) (n i : Nat) : Prop :=
  reservedClusterIndices.toNat ≤ i ∧ i < reservedClusterIndices.toNat + n ∧
    fatEntry l bytes (BitVec.ofNat 32 i) = 0

instance (l : Layout) (bytes : Nat → U8) (n i : Nat) : Decidable (IsFreeCluster l bytes n i) :=
  inferInstanceAs (Decidable (_ ∧ _ ∧ _))

/-- How many of the data clusters are free. -/
def freeClusters (l : Layout) (bytes : Nat → U8) (n : Nat) : Nat :=
  (List.range (reservedClusterIndices.toNat + n)).countP fun i => IsFreeCluster l bytes n i

/-- A copy of `FSInfo` describes the first FAT. -/
structure DescribesFAT (l : Layout) (bytes : Nat → U8) (n sector : Nat) : Prop where
  freeCount : (freeCountAt bytes sector).toNat = freeClusters l bytes n
  nextFree : IsLeast {i | IsFreeCluster l bytes n i} (nextFreeAt bytes sector).toNat

/-! ## The cursor -/

/-- The entries below the first free cluster are taken, and the others are zero, as long as they
lie within the FATs. -/
structure FATCursor (l : Layout) (image : Image) : Prop where
  free : 3 ≤ image.currentFreeDataClusterIndex.toNat
  free_lt : image.currentFreeDataClusterIndex.toNat < 2 ^ 30
  taken : l.primaryFAT + 4 * image.currentFreeDataClusterIndex.toNat ≤ l.dataClusters →
    ∀ i : U32, i.toNat < image.currentFreeDataClusterIndex.toNat → fatEntry l image.bytes i ≠ 0
  empty : ∀ a, l.primaryFAT + 4 * image.currentFreeDataClusterIndex.toNat ≤ a →
    a < l.dataClusters → image.bytes a = 0

section Cursor

variable {l : Layout} {image image' : Image}

/-- What lies behind the FATs makes no difference. -/
theorem FATCursor.congr (h : FATCursor l image)
    (hfree : image'.currentFreeDataClusterIndex = image.currentFreeDataClusterIndex)
    (hbytes : ∀ a, l.primaryFAT ≤ a → a < l.dataClusters → image'.bytes a = image.bytes a) :
    FATCursor l image' := by
  refine ⟨hfree ▸ h.free, hfree ▸ h.free_lt, fun hfits i hi => ?_, fun a ha hlt => ?_⟩
  · rw [hfree] at hfits hi
    have hsame : fatEntry l image'.bytes i = fatEntry l image.bytes i :=
      fatEntry_congr fun j hj => hbytes _ (by omega) (by omega)
    rw [hsame]
    exact h.taken hfits i hi
  · rw [hfree] at ha
    rw [hbytes a (by omega) hlt]
    exact h.empty a ha hlt

/-- New clusters are taken in order. -/
theorem FATCursor.createContiguousSpaceForNewEntry (hl : l.Spread) (h : FATCursor l image)
    {size result : U32}
    (hrun : createContiguousSpaceForNewEntry l (size.setWidth 64) image = .ok result image') :
    FATCursor l image' := by
  obtain ⟨rfl, hnext, -, hframe, hlt, hlinked⟩ :=
    createContiguousSpaceForNewEntry_eq_ok hl h.free_lt hrun
  have hfree := h.free
  refine ⟨by omega, hlt, fun hfits i hi => ?_, fun a ha hlt => ?_⟩
  · rcases Nat.lt_or_ge i.toNat image.currentFreeDataClusterIndex.toNat with hold | hnew
    · have hsame : fatEntry l image'.bytes i = fatEntry l image.bytes i :=
        fatEntry_congr fun j hj => hframe _ (.inl (by omega))
      rw [hsame]
      exact h.taken (by omega) i hold
    · obtain ⟨j, hj⟩ : ∃ j, i.toNat = image.currentFreeDataClusterIndex.toNat + j :=
        ⟨_, (Nat.add_sub_cancel' hnew).symm⟩
      have hi' : i = image.currentFreeDataClusterIndex + BitVec.ofNat 32 j :=
        BitVec.eq_of_toNat_eq (by rw [toNat_add_ofNat (by omega), hj])
      rw [hi', hlinked j (by omega)]
      split
      · decide
      · intro hzero
        have hnat := congrArg BitVec.toNat hzero
        rw [toNat_add_ofNat (by omega)] at hnat
        change _ = 0 at hnat
        omega
  · rw [hframe a (.inr (by omega))]
    exact h.empty a (by omega) hlt

theorem keeps_fatCursor (hl : l.Spread) : l.Keeps (FATCursor l) where
  data ha := by
    intro image _ image' h hrun
    obtain ⟨-, rfl⟩ := write_eq_ok.mp hrun
    exact h.congr rfl fun a _ hlt => overwrite_of_notMem (.inl (by omega))
  taken size := by
    intro image result image' h hrun
    exact h.createContiguousSpaceForNewEntry hl hrun
  files _ h := h.congr rfl fun _ _ _ => rfl

/-- An assignment to an entry changes that entry. -/
theorem setPrimaryFAT_eq_ok {i value : U32} {u : Unit}
    (hrun : setPrimaryFAT l i value image = .ok u image') :
    fatEntry l image'.bytes i = value ∧
      (∀ j, j ≠ i → fatEntry l image'.bytes j = fatEntry l image.bytes j) ∧
      ∀ a, l.primaryFAT + 4 * i.toNat + 4 ≤ a → image'.bytes a = image.bytes a := by
  rw [setPrimaryFAT, write_eq_ok] at hrun
  obtain ⟨-, rfl⟩ := hrun
  refine ⟨fatEntry_of_bytesAt (bytesAt_overwrite_self (length_le32 _)),
    fun j hj => fatEntry_congr fun k hk => overwrite_of_notMem ?_,
    fun a ha => overwrite_of_notMem (.inr ha)⟩
  have hne : j.toNat ≠ i.toNat := fun h => hj (BitVec.eq_of_toNat_eq h)
  rw [length_le32]
  omega

/-- The reserved entries and the root directory are taken first. -/
theorem fatCursor_writeReservedEntries
    (hempty : ∀ a, l.primaryFAT ≤ a → a < l.dataClusters → image.bytes a = 0)
    (hrun : writeReservedEntries l image = .ok () image') : FATCursor l image' := by
  simp only [writeReservedEntries, bind_eq_ok, modify_eq_ok] at hrun
  obtain ⟨_, image₁, hset₁, _, image₂, hset₂, _, image₃, hset₃, rfl⟩ := hrun
  obtain ⟨hself₁, -, hframe₁⟩ := setPrimaryFAT_eq_ok hset₁
  obtain ⟨hself₂, hother₂, hframe₂⟩ := setPrimaryFAT_eq_ok hset₂
  obtain ⟨hself₃, hother₃, hframe₃⟩ := setPrimaryFAT_eq_ok hset₃
  have hzero : (0 : U32).toNat = 0 := rfl
  have hone : (1 : U32).toNat = 1 := rfl
  have htwo : (2 : U32).toNat = 2 := rfl
  refine ⟨(le_rfl : 3 ≤ 3), (by norm_num : 3 < 2 ^ 30), fun _ i hi => ?_, fun a ha hlt => ?_⟩
  · have hi : i.toNat < 3 := hi
    have hcases : i = 0 ∨ i = 1 ∨ i = 2 := by
      simp only [← BitVec.toNat_inj, hzero, hone, htwo]
      omega
    change fatEntry l image₃.bytes i ≠ 0
    rcases hcases with rfl | rfl | rfl
    · rw [hother₃ 0 (by decide), hother₂ 0 (by decide), hself₁]
      decide
    · rw [hother₃ 1 (by decide), hself₂]
      decide
    · rw [hself₃]
      decide
  · have ha : l.primaryFAT + 4 * 3 ≤ a := ha
    change image₃.bytes a = 0
    rw [hframe₃ a (by omega), hframe₂ a (by omega), hframe₁ a (by omega)]
    exact hempty a (by omega) hlt

/-- The copies of the first FAT land behind the second one. -/
theorem ensures_writeMirrors_fatCursor (copies : Nat) {mirrorLocation : Nat}
    (hm : l.dataClusters ≤ mirrorLocation) :
    Ensures (FATCursor l) (writeMirrors l copies mirrorLocation) fun _ => FATCursor l := by
  induction copies generalizing mirrorLocation with
  | zero => exact Ensures.pure fun _ h => h
  | succ copies ih =>
    refine Ensures.bind (m := fun _ => FATCursor l) ?_ fun _ => ih (by omega)
    intro image _ image' h hrun
    unfold memcpy at hrun
    split at hrun
    · obtain rfl := modify_eq_ok.mp hrun
      exact h.congr rfl fun a _ hlt => if_neg (by omega)
    · exact (throw_eq_ok.mp hrun).elim

/-! ## What the cursor counts -/

theorem countP_range_ge {t n : Nat} {p : Nat → Bool} (hp : ∀ i < n, p i = decide (t ≤ i)) :
    (List.range n).countP p = n - t := by
  induction n with
  | zero => simp
  | succ n ih =>
    rw [List.range_succ, List.countP_append, ih fun i hi => hp i (by omega),
      List.countP_singleton, hp n (Nat.lt_succ_self n)]
    by_cases hle : t ≤ n
    · simp [hle]
      omega
    · simp [hle]
      omega

/-- The free clusters are those from the cursor on. -/
theorem FATCursor.isFreeCluster_iff (h : FATCursor l image) {n i : Nat}
    (hfits : image.currentFreeDataClusterIndex.toNat ≤ reservedClusterIndices.toNat + n)
    (hn : l.primaryFAT + 4 * (reservedClusterIndices.toNat + n) ≤ l.dataClusters)
    (hwidth : reservedClusterIndices.toNat + n < 2 ^ 32) :
    IsFreeCluster l image.bytes n i ↔ image.currentFreeDataClusterIndex.toNat ≤ i ∧
      i < reservedClusterIndices.toNat + n := by
  have hfree := h.free
  have hreserved : reservedClusterIndices.toNat = 2 := rfl
  constructor
  · rintro ⟨-, hlt, hentry⟩
    refine ⟨not_lt.mp fun hbelow => ?_, hlt⟩
    refine h.taken (by omega) (BitVec.ofNat 32 i) ?_ hentry
    rw [BitVec.toNat_ofNat]
    omega
  · rintro ⟨hle, hlt⟩
    refine ⟨by omega, hlt, ?_⟩
    have hi : (BitVec.ofNat 32 i).toNat = i := by
      rw [BitVec.toNat_ofNat]
      omega
    refine fatEntry_of_bytesAt ((bytesAt_zeros fun j hj => ?_).trans rfl)
    rw [hi]
    exact h.empty _ (by omega) (by omega)

theorem FATCursor.freeClusters_eq (h : FATCursor l image) {n : Nat}
    (hfits : image.currentFreeDataClusterIndex.toNat ≤ reservedClusterIndices.toNat + n)
    (hn : l.primaryFAT + 4 * (reservedClusterIndices.toNat + n) ≤ l.dataClusters)
    (hwidth : reservedClusterIndices.toNat + n < 2 ^ 32) :
    freeClusters l image.bytes n =
      reservedClusterIndices.toNat + n - image.currentFreeDataClusterIndex.toNat := by
  refine countP_range_ge fun i hi => decide_eq_decide.mpr ?_
  rw [h.isFreeCluster_iff hfits hn hwidth, and_iff_left hi]

/-! ## `FSInfo` -/

theorem loadU32_of_bytesAt {bytes : Nat → U8} {address : Nat} {v : U32}
    (h : bytesAt bytes address 4 = le32 v) : loadU32 bytes address = v := by
  simp only [bytesAt, le32, show List.range 4 = [0, 1, 2, 3] from rfl, List.map_cons, List.map_nil,
    List.cons.injEq, and_true, Nat.add_zero] at h
  obtain ⟨h0, h1, h2, h3⟩ := h
  simp only [loadU32, h0, h1, h2, h3]
  exact join_le32 v

/-- Between other bytes. -/
theorem bytesAt_middle {bytes : Nat → U8} {address : Nat} {before middle after : List U8}
    (h : bytesAt bytes address (before ++ middle ++ after).length = before ++ middle ++ after) :
    bytesAt bytes (address + before.length) middle.length = middle := by
  have hpiece := bytesAt_piece (k := before.length) (m := middle.length) h
  have hdrop : ((before ++ middle ++ after).drop before.length).take middle.length = middle := by
    rw [List.append_assoc, List.drop_left, List.take_left]
  rwa [hdrop] at hpiece

theorem fields_of_fileSystemInformation {bytes : Nat → U8} {sector : Nat} {freeCount nextFree : U32}
    (h : bytesAt bytes sector 512 = fileSystemInformation freeCount nextFree) :
    freeCountAt bytes sector = freeCount ∧ nextFreeAt bytes sector = nextFree := by
  rw [← length_fileSystemInformation freeCount nextFree] at h
  have hcount : fileSystemInformation freeCount nextFree =
      (le32 0x41615252 ++ zeros 480 ++ le32 0x61417272) ++ le32 freeCount ++
        (le32 nextFree ++ zeros 12 ++ le32 0xAA550000) := by
    simp only [fileSystemInformation, List.append_assoc]
  have hnext : fileSystemInformation freeCount nextFree =
      (le32 0x41615252 ++ zeros 480 ++ le32 0x61417272 ++ le32 freeCount) ++ le32 nextFree ++
        (zeros 12 ++ le32 0xAA550000) := by
    simp only [fileSystemInformation, List.append_assoc]
  have hfirst : (le32 0x41615252 ++ zeros 480 ++ le32 0x61417272).length = 488 := by simp
  have hsecond : (le32 0x41615252 ++ zeros 480 ++ le32 0x61417272 ++ le32 freeCount).length =
      492 := by simp
  constructor
  · rw [hcount] at h
    have hpiece := bytesAt_middle h
    rw [hfirst] at hpiece
    exact loadU32_of_bytesAt hpiece
  · rw [hnext] at h
    have hpiece := bytesAt_middle h
    rw [hsecond] at hpiece
    exact loadU32_of_bytesAt hpiece

/-- The reserved sectors are written last, and hold the cursor. -/
theorem writeReservedSectors_eq_ok {c : Configuration} (hl : l.Spread)
    (hrun : writeReservedSectors c l image = .ok () image') :
    image'.currentFreeDataClusterIndex = image.currentFreeDataClusterIndex ∧
      (∀ a, l.primaryFAT ≤ a → image'.bytes a = image.bytes a) ∧
      ∀ sector, sector = l.primaryFSInfo ∨ sector = l.backupFSInfo →
        freeCountAt image'.bytes sector =
          c.efi.dataClustersCount - image.currentFreeDataClusterIndex ∧
        nextFreeAt image'.bytes sector = image.currentFreeDataClusterIndex := by
  have hfat := hl.primaryFAT
  have hsector := hl.sector_bounds.1
  simp only [writeReservedSectors, bind_eq_ok, get_eq_ok, write_eq_ok] at hrun
  obtain ⟨_, _, ⟨rfl, rfl⟩, _, _, ⟨-, rfl⟩, _, _, ⟨-, rfl⟩, _, _, ⟨-, rfl⟩, -, rfl⟩ := hrun
  refine ⟨rfl, fun a ha => ?_, fun sector hat => fields_of_fileSystemInformation ?_⟩
  · refine (overwrite_of_notMem (.inr ?_)).trans ((overwrite_of_notMem (.inr ?_)).trans
      ((overwrite_of_notMem (.inr ?_)).trans (overwrite_of_notMem (.inr ?_))))
    all_goals
      simp only [length_fileSystemInformation, length_biosParameterBlock]
      omega
  · rcases hat with rfl | rfl
    · refine (bytesAt_overwrite_of_apart (.inl ?_)).trans
        ((bytesAt_overwrite_of_apart (.inl ?_)).trans
          (bytesAt_overwrite_self (length_fileSystemInformation _ _)))
      · rw [Layout.primaryFSInfo]
        omega
      · rw [Layout.primaryFSInfo]
        omega
    · exact bytesAt_overwrite_self (length_fileSystemInformation _ _)

end Cursor

/-! ## The image that is produced -/

/-- The clusters that were taken are data clusters. -/
def DataClustersFit (c : Configuration) (image : Image) : Prop :=
  image.currentFreeDataClusterIndex.toNat ≤
    reservedClusterIndices.toNat + c.efi.dataClustersCount.toNat

instance (c : Configuration) (image : Image) : Decidable (DataClustersFit c image) :=
  inferInstanceAs (Decidable (_ ≤ _))

/-- Both copies of `FSInfo` describe the first FAT. -/
def FSInfoDescribesFAT (c : Configuration) (image : Image) : Prop :=
  DescribesFAT c.layout image.bytes c.efi.dataClustersCount.toNat c.layout.primaryFSInfo ∧
    DescribesFAT c.layout image.bytes c.efi.dataClustersCount.toNat c.layout.backupFSInfo

section Written

variable {LBASizeBytes : U16} {alignmentSizeBytes : U32} {efiSizeBytes : U64} {k j : Nat}

/-- The number of free clusters in `FSInfo` is two too small, and the next free cluster is the
first one. -/
theorem fsInfo_of_written {reads : List (Option (List U8))} {kernelSizeBytes : U64}
    {image image' : Image} (hL : IsTwoPow LBASizeBytes k) (hk : 9 ≤ k)
    (ha : IsTwoPow alignmentSizeBytes j) :
    let c := setConfiguration LBASizeBytes efiSizeBytes kernelSizeBytes alignmentSizeBytes
    let n := c.efi.dataClustersCount.toNat
    FreshPartition c image →
      writeEFISystemPartition c reads efiSizeBytes kernelSizeBytes image = .ok true image' →
        DataClustersFit c image' →
          ∀ sector, sector = c.layout.primaryFSInfo ∨ sector = c.layout.backupFSInfo →
            freeCountAt image'.bytes sector + 2 =
              BitVec.ofNat 32 (freeClusters c.layout image'.bytes n) ∧
            (0 < freeClusters c.layout image'.bytes n →
              IsLeast {i | IsFreeCluster c.layout image'.bytes n i}
                (nextFreeAt image'.bytes sector).toNat) := by
  intro c n hfresh hrun hfits sector hat
  obtain ⟨hl, hinside, hentries⟩ : c.layout.Spread ∧ c.layout.dataClusters <
      c.layout.reservedSectors + c.EFISystemPartitionSizeLBA.toNat * LBASizeBytes.toNat ∧
        4 * n ≤ c.layout.FATSizeBytes.toNat :=
    spread_setConfiguration kernelSizeBytes hL hk ha (efiSizeBytes_lt size_setConfiguration hrun)
  have hprimary := hl.primaryFAT
  have hdata := hl.dataClusters
  have hFAT := c.layout.FATSizeBytes.isLt
  have hpos := hl.pos
  obtain ⟨m, hm⟩ := hl.dvd
  have hreserved : reservedClusterIndices.toNat = 2 := rfl
  obtain ⟨image₁, hcursor, hsectors⟩ := (keeps_fatCursor hl).writeEFISystemPartition
    (fun image₁ => fatCursor_writeReservedEntries fun a hge hlt =>
      hfresh a (by omega) (lt_trans hlt hinside))
    (ensures_writeMirrors_fatCursor _ (by omega)) hrun
  obtain ⟨hfree, hframe, hinfo⟩ := writeReservedSectors_eq_ok hl hsectors
  obtain ⟨hcount, hnext⟩ := hinfo sector hat
  have hcursor' : FATCursor c.layout image' := hcursor.congr hfree fun a hge _ => hframe a hge
  have hn : c.layout.primaryFAT + 4 * (reservedClusterIndices.toNat + n) ≤
      c.layout.dataClusters := by
    omega
  have heq := hcursor'.freeClusters_eq hfits hn (by omega)
  rw [hcount, hnext, heq, ← hfree]
  refine ⟨?_, fun hfree => ⟨?_, fun i hi => ?_⟩⟩
  · apply BitVec.eq_of_toNat_eq
    have htwo : (2 : U32).toNat = 2 := rfl
    have hD : c.efi.dataClustersCount.toNat = n := rfl
    have hfits : image'.currentFreeDataClusterIndex.toNat ≤ reservedClusterIndices.toNat + n :=
      hfits
    rw [BitVec.toNat_add, BitVec.toNat_sub, BitVec.toNat_ofNat, htwo, hD]
    omega
  · exact (hcursor'.isFreeCluster_iff hfits hn (by omega)).mpr ⟨le_rfl, by omega⟩
  · exact ((hcursor'.isFreeCluster_iff hfits hn (by omega)).mp hi).1

theorem not_describes_of_count {c : Configuration} {image : Image}
    (hcount : freeCountAt image.bytes c.layout.primaryFSInfo + 2 =
      BitVec.ofNat 32 (freeClusters c.layout image.bytes c.efi.dataClustersCount.toNat)) :
    ¬ FSInfoDescribesFAT c image := by
  intro hdescribes
  rw [← hdescribes.1.freeCount, BitVec.ofNat_toNat, BitVec.setWidth_eq] at hcount
  have hzero : (2 : U32) = 0 := BitVec.add_right_eq_self.mp hcount
  exact absurd hzero (by decide)

/-- No image that is produced has a right count of the free clusters. -/
theorem writeEFISystemPartition_never_counts (reads : List (Option (List U8)))
    (kernelSizeBytes : U64) (image image' : Image) (hL : IsTwoPow LBASizeBytes k) (hk : 9 ≤ k)
    (ha : IsTwoPow alignmentSizeBytes j) :
    let c := setConfiguration LBASizeBytes efiSizeBytes kernelSizeBytes alignmentSizeBytes
    let n := c.efi.dataClustersCount.toNat
    FreshPartition c image →
      writeEFISystemPartition c reads efiSizeBytes kernelSizeBytes image = .ok true image' →
        DataClustersFit c image' →
          ¬ FSInfoDescribesFAT c image' ∧
          ∀ sector, sector = c.layout.primaryFSInfo ∨ sector = c.layout.backupFSInfo →
            freeCountAt image'.bytes sector + 2 =
              BitVec.ofNat 32 (freeClusters c.layout image'.bytes n) ∧
            (0 < freeClusters c.layout image'.bytes n →
              IsLeast {i | IsFreeCluster c.layout image'.bytes n i}
                (nextFreeAt image'.bytes sector).toNat) := by
  intro c n hfresh hrun hfits
  have hinfo := fsInfo_of_written hL hk ha hfresh hrun hfits
  exact ⟨not_describes_of_count (hinfo _ (.inl rfl)).1, hinfo⟩

end Written

/-- An application of three bytes, whose clusters fit. -/
theorem writeEFISystemPartition_fits :
    ReturnsWith (writeEFISystemPartition (setConfiguration 512 3 4096 512) [some [1, 2, 3]] 3 4096
      ⟨fun _ => 0, 0, []⟩) fun written image =>
        written = true ∧ DataClustersFit (setConfiguration 512 3 4096 512) image := by
  decide +kernel

/-- Its free clusters are two more than the count. -/
theorem writeEFISystemPartition_never_counts_three :
    let c := setConfiguration 512 3 4096 512
    ∃ image', writeEFISystemPartition c [some [1, 2, 3]] 3 4096 ⟨fun _ => 0, 0, []⟩ =
        .ok true image' ∧ ¬ FSInfoDescribesFAT c image' := by
  obtain ⟨_, image', hrun, rfl, hfits⟩ := writeEFISystemPartition_fits
  exact ⟨image', hrun, (writeEFISystemPartition_never_counts (k := 9) (j := 9) _ _ _ _ (by decide)
    (by decide) (by decide) (fun _ _ _ => rfl) hrun hfits).1⟩

/-- `FSInfo` does not always describe the first FAT. -/
theorem writeEFISystemPartition_miscounts :
    ¬ ∀ (LBASizeBytes : U16) (efiSizeBytes kernelSizeBytes : U64) (alignmentSizeBytes : U32)
        (k j : Nat) (reads : List (Option (List U8))) (image image' : Image),
      IsTwoPow LBASizeBytes k → 9 ≤ k → IsTwoPow alignmentSizeBytes j →
      let c := setConfiguration LBASizeBytes efiSizeBytes kernelSizeBytes alignmentSizeBytes
      FreshPartition c image →
      writeEFISystemPartition c reads efiSizeBytes kernelSizeBytes image = .ok true image' →
      DataClustersFit c image' → FSInfoDescribesFAT c image' := by
  intro hclaim
  obtain ⟨_, image', hrun, rfl, hfits⟩ := writeEFISystemPartition_fits
  have hdescribes := hclaim 512 3 4096 512 9 9 _ _ _ (by decide) (by decide) (by decide)
    (fun _ _ _ => rfl) hrun hfits
  have hinfo := fsInfo_of_written (k := 9) (j := 9) (by decide) (by decide) (by decide)
    (fun _ _ _ => rfl) hrun hfits
  exact not_describes_of_count (hinfo _ (.inl rfl)).1 hdescribes

end Homegrown.ImageBuilder
