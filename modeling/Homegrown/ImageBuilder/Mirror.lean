import Homegrown.ImageBuilder.Geometry

/-!
# The second FAT

`writeEFISystemPartition` copies the first FAT to `PRIMARY_FAT + FAT_SIZE_BYTES`, a sum of
a pointer to 32-bit entries and a number of bytes: the copy lies four FAT sizes after the
first FAT, among the data clusters, and the second FAT stays as it was. The first byte of
the first FAT holds the media value, and no write ever puts that value where the second
FAT starts.
-/

namespace Homegrown.ImageBuilder

/-! ## What an image should be like -/

/-- An entry of `PRIMARY_FAT`. -/
def fatEntry (l : Layout) (bytes : Nat → U8) (i : U32) : U32 :=
  let address := l.primaryFAT + 4 * i.toNat
  bytes (address + 3) ++ bytes (address + 2) ++ bytes (address + 1) ++ bytes address

/-- The clusters of a chain, for so many steps at most. -/
def chain (l : Layout) (bytes : Nat → U8) : Nat → U32 → List U32
  | 0, _ => []
  | steps + 1, cluster =>
    let next := fatEntry l bytes cluster
    cluster :: if next = endOfChainMarker then [] else chain l bytes steps next

/-- What is read back for a file, cluster by cluster. -/
def readBack (l : Layout) (bytes : Nat → U8) (file : CreatedFile) : List U8 :=
  ((chain l bytes l.size file.cluster).flatMap fun cluster =>
    bytesAt bytes (getDataCluster l cluster) l.bytesPerSector.toNat).take file.contents.length

/-- The second FAT is a copy of the first. -/
def FATsMirrored (l : Layout) (image : Image) : Prop :=
  ∀ i < l.FATSizeBytes.toNat,
    image.bytes (l.primaryFAT + l.FATSizeBytes.toNat + i) = image.bytes (l.primaryFAT + i)

/-- The chain of every file holds what was written for it. -/
def FilesReadBack (l : Layout) (image : Image) : Prop :=
  ∀ file ∈ image.files, readBack l image.bytes file = file.contents

/-! ## What no write changes -/

/-- The parts of the partition follow each other: 32 sectors, two FATs, the clusters. -/
structure Layout.Spread (l : Layout) : Prop where
  sector : ∃ k, 9 ≤ k ∧ IsTwoPow l.bytesPerSector k
  primaryFAT : l.primaryFAT = l.reservedSectors + l.bytesPerSector.toNat * 32
  pos : 0 < l.FATSizeBytes.toNat
  dvd : 512 ∣ l.FATSizeBytes.toNat
  dataClusters : l.dataClusters = l.primaryFAT + 2 * l.FATSizeBytes.toNat
  size : l.size < 2 ^ 32

/-- The media value is where the first FAT starts and not where the second one does, and
the clusters that are taken have entries within the image. -/
structure Layout.Unmirrored (l : Layout) (image : Image) : Prop where
  first : image.bytes l.primaryFAT = fixedMedia
  second : image.bytes (l.primaryFAT + l.FATSizeBytes.toNat) ≠ fixedMedia
  free : 3 ≤ image.currentFreeDataClusterIndex.toNat
  free_le : image.currentFreeDataClusterIndex.toNat ≤ 2 ^ 30

/-- Other bytes are kept. -/
theorem overwrite_of_notMem {bytes : Nat → U8} {address i : Nat} {data : List U8}
    (h : i < address ∨ address + data.length ≤ i) : overwrite bytes address data i = bytes i := by
  rw [overwrite, if_neg (by omega)]

/-- A store returns when it lies within the image. -/
theorem write_eq_ok {l : Layout} {address : Nat} {data : List U8} {image image' : Image}
    {u : Unit} : write l address data image = .ok u image' ↔
      (data = [] ∨ address + data.length ≤ l.size) ∧
        { image with bytes := overwrite image.bytes address data } = image' := by
  unfold write
  split
  · rename_i h
    simp only [modify_eq_ok, h, true_and]
  · rename_i h
    simp only [throw_eq_ok, h, false_and]

/-- And so does a load. -/
theorem read_eq_ok {l : Layout} {address n : Nat} {data : List U8} {image image' : Image} :
    read l address n image = .ok data image' ↔
      address + n ≤ l.size ∧ bytesAt image.bytes address n = data ∧ image = image' := by
  unfold read
  split
  · rename_i h
    simp only [bind_eq_ok, get_eq_ok, pure_eq_ok, h, true_and]
    constructor
    · rintro ⟨_, _, ⟨rfl, rfl⟩, hdata, himage⟩
      exact ⟨hdata, himage⟩
    · rintro ⟨hdata, himage⟩
      exact ⟨image, image, ⟨rfl, rfl⟩, hdata, himage⟩
  · rename_i h
    simp only [throw_eq_ok, h, false_and]

section Kept

variable {l : Layout}

theorem Layout.Unmirrored.overwrite {image : Image} (h : l.Unmirrored image) {address : Nat}
    {data : List U8} (hfirst : l.primaryFAT < address ∨ address + data.length ≤ l.primaryFAT)
    (hsecond : overwrite image.bytes address data (l.primaryFAT + l.FATSizeBytes.toNat) ≠
      fixedMedia) :
    l.Unmirrored { image with bytes := overwrite image.bytes address data } :=
  ⟨(overwrite_of_notMem hfirst).trans h.first, hsecond, h.free, h.free_le⟩

/-- A write beside the two first bytes. -/
theorem ensures_write {address : Nat} {data : List U8}
    (hfirst : l.primaryFAT < address ∨ address + data.length ≤ l.primaryFAT)
    (hsecond : l.primaryFAT + l.FATSizeBytes.toNat < address ∨
      address + data.length ≤ l.primaryFAT + l.FATSizeBytes.toNat) :
    Ensures l.Unmirrored (write l address data) fun _ => l.Unmirrored := by
  intro image _ image' h hrun
  obtain ⟨-, rfl⟩ := write_eq_ok.mp hrun
  exact h.overwrite hfirst (by rw [overwrite_of_notMem hsecond]; exact h.second)

theorem ensures_read {P : Image → Prop} {address n : Nat} :
    Ensures P (read l address n) fun _ => P := by
  intro image _ image' h hrun
  obtain ⟨-, -, rfl⟩ := read_eq_ok.mp hrun
  exact h

/-- Linking a chain: an entry where the second FAT starts gets an odd number. -/
theorem ensures_linkClusters (hl : l.Spread) (last : U32) (left : Nat) (i : U32)
    (hi : 1 ≤ i.toNat) (hfits : i.toNat + left < 2 ^ 32) :
    Ensures l.Unmirrored (linkClusters l last left i) fun _ image =>
      l.Unmirrored image ∧ (0 < left → i.toNat + left ≤ 2 ^ 30) := by
  induction left generalizing i with
  | zero =>
    exact Ensures.pure fun image h => ⟨h, fun h0 => absurd h0 (lt_irrefl 0)⟩
  | succ left ih =>
    have hnext : (i + 1).toNat = i.toNat + 1 := by
      rw [BitVec.toNat_add]
      exact Nat.mod_eq_of_lt (by change _ + 1 < _; omega)
    intro image _ image' h hrun
    rw [linkClusters, bind_eq_ok] at hrun
    obtain ⟨_, image₁, hset, hrest⟩ := hrun
    rw [setPrimaryFAT, write_eq_ok] at hset
    obtain ⟨hbounds, rfl⟩ := hset
    have hlen : ∀ v : U32, (le32 v).length = 4 := fun _ => rfl
    have hle := hbounds.resolve_left (by simp [le32])
    rw [hlen] at hle
    have hsize := hl.size
    obtain ⟨c, hc⟩ := hl.dvd
    have hsecond : overwrite image.bytes (l.primaryFAT + 4 * i.toNat)
        (le32 (if i = last then endOfChainMarker else i + 1))
          (l.primaryFAT + l.FATSizeBytes.toNat) ≠ fixedMedia := by
      by_cases hat : 4 * i.toNat = l.FATSizeBytes.toNat
      · rw [overwrite, if_pos (by rw [hlen]; omega), hat, Nat.sub_self]
        change (if i = last then endOfChainMarker else i + 1).setWidth 8 ≠ _
        split
        · decide
        · intro heq
          have hnat := congrArg BitVec.toNat heq
          rw [BitVec.toNat_setWidth, hnext] at hnat
          change _ % 256 = 248 at hnat
          omega
      · rw [overwrite_of_notMem (by rw [hlen]; omega)]
        exact h.second
    have hkept := h.overwrite (.inl (by omega)) hsecond
    obtain ⟨hrestKept, hbound⟩ := ih (i + 1) (by omega) (by omega) _ _ _ hkept hrest
    refine ⟨hrestKept, fun _ => ?_⟩
    rcases Nat.eq_zero_or_pos left with h0 | hpos
    · omega
    · have hb := hbound hpos
      omega

/-- The clusters required for bytes of a 32-bit number are few. -/
theorem Layout.Spread.required_le (hl : l.Spread) (size : U32) :
    (requiredNewClusters l.bytesPerSector (size.setWidth 64)).toNat ≤ 2 ^ 24 := by
  obtain ⟨k, hk, hsector⟩ := hl.sector
  have hpow : 2 ^ 9 ≤ 2 ^ k := Nat.pow_le_pow_right (by norm_num) hk
  have hlt := size.isLt
  rw [toNat_requiredNewClusters hsector, Nat.div_le_iff_le_mul_add_pred (by positivity)]
  omega

theorem ensures_createContiguousSpaceForNewEntry (hl : l.Spread) (size : U32) :
    Ensures l.Unmirrored (createContiguousSpaceForNewEntry l (size.setWidth 64))
      fun _ => l.Unmirrored := by
  intro image result image' h hrun
  have hreq := hl.required_le size
  have hfree := h.free
  have hfree' := h.free_le
  simp only [createContiguousSpaceForNewEntry, bind_eq_ok, get_eq_ok, modify_eq_ok,
    pure_eq_ok] at hrun
  obtain ⟨_, _, ⟨rfl, rfl⟩, _, image₁, hlink, _, _, rfl, -, rfl⟩ := hrun
  have hnext : (image.currentFreeDataClusterIndex +
      requiredNewClusters l.bytesPerSector (size.setWidth 64)).toNat =
      image.currentFreeDataClusterIndex.toNat +
        (requiredNewClusters l.bytesPerSector (size.setWidth 64)).toNat := by
    rw [BitVec.toNat_add]
    exact Nat.mod_eq_of_lt (by omega)
  obtain ⟨hkept, hbound⟩ := ensures_linkClusters hl _ _ _ (by omega) (by omega) _ _ _ h hlink
  refine ⟨hkept.first, hkept.second, ?_, ?_⟩
  · change 3 ≤ (_ + _ : U32).toNat
    omega
  · change (_ + _ : U32).toNat ≤ _
    omega

/-- What the writes of directories and files keep. -/
structure Layout.Keeps (l : Layout) (P : Image → Prop) : Prop where
  data : ∀ {address : Nat} {data : List U8}, l.dataClusters ≤ address →
    Ensures P (write l address data) fun _ => P
  taken : ∀ size : U32,
    Ensures P (createContiguousSpaceForNewEntry l (size.setWidth 64)) fun _ => P
  files : ∀ {image : Image} (files : List CreatedFile), P image → P { image with files }

/-- The clusters lie behind the FATs. -/
theorem dataClusters_le_getDataCluster (cluster : U32) :
    l.dataClusters ≤ getDataCluster l cluster := Nat.le_add_right _ _

namespace Layout.Keeps

variable {P : Image → Prop}

/-- A directory is written to the clusters, and takes one. -/
theorem createOrGetDirectoryFrom (hP : l.Keeps P) (name : List U8) (parentCluster : U32)
    (left : Nat) {entry : Nat} (hentry : l.dataClusters ≤ entry) :
    Ensures P (createOrGetDirectoryFrom l name parentCluster left entry) fun _ => P := by
  induction left generalizing entry with
  | zero => exact Ensures.throw
  | succ left ih =>
    refine ensures_read.bind fun found => ?_
    split
    · exact Ensures.pure fun _ h => h
    · split
      · refine (hP.taken (BitVec.ofNat 32 dirEntrySize)).bind fun created =>
          (hP.data hentry).bind fun _ => Ensures.bind ?_ fun _ => Ensures.pure fun _ h => h
        have hcluster := dataClusters_le_getDataCluster (l := l) created
        exact (hP.data hcluster).bind fun _ => hP.data (hcluster.trans (Nat.le_add_right _ _))
      · exact ih (hentry.trans (Nat.le_add_right _ _))

/-- So is each of a path. -/
theorem createPath (hP : l.Keeps P) (names : List (List U8)) (start : U32) :
    Ensures P (createPath l names start) fun _ => P := by
  induction names generalizing start with
  | nil => exact Ensures.pure fun _ h => h
  | cons name names ih =>
    exact (hP.createOrGetDirectoryFrom name start _ (dataClusters_le_getDataCluster start)).bind
      fun cluster => ih cluster

/-- The place for an entry lies in the clusters. -/
theorem getNewFileEntryLocationFrom (left : Nat) {entry : Nat} (hentry : l.dataClusters ≤ entry) :
    Ensures P (getNewFileEntryLocationFrom l left entry)
      fun location image => P image ∧ l.dataClusters ≤ location := by
  induction left generalizing entry with
  | zero => exact Ensures.throw
  | succ left ih =>
    refine ensures_read.bind fun name => ?_
    split
    · exact Ensures.pure fun _ h => ⟨h, hentry⟩
    · exact ih (hentry.trans (Nat.le_add_right _ _))

/-- An entry is written there, and clusters are taken. -/
theorem createFileEntryAfterWritingData (hP : l.Keeps P) (name : List U8) (parentCluster : U32)
    (contents : List U8) :
    Ensures P (createFileEntryAfterWritingData l name parentCluster contents) fun _ => P := by
  refine (getNewFileEntryLocationFrom _ (dataClusters_le_getDataCluster _)).bind
    fun location => Ensures.bind (m := fun _ => P) ?_ fun _ =>
      (hP.taken _).bind fun _ => Ensures.modify fun _ h => hP.files _ h
  rintro image u image' ⟨h, hlocation⟩ hrun
  simp only [writeFileEntry, bind_eq_ok, get_eq_ok] at hrun
  obtain ⟨_, _, ⟨rfl, rfl⟩, hwrite⟩ := hrun
  exact hP.data hlocation _ _ _ h hwrite

/-- A file with its contents is written to the clusters. -/
theorem createFAT32File (hP : l.Keeps P) (name : List U8) (parentCluster : U32)
    (contents : List U8) :
    Ensures P (createFAT32File l name parentCluster contents) fun _ => P := by
  refine (Ensures.get (q := fun _ => P) fun _ h => h).bind fun image =>
    (hP.data (dataClusters_le_getDataCluster _)).bind fun _ =>
      hP.createFileEntryAfterWritingData name parentCluster contents

/-- And so is the application. -/
theorem readEFIApplication (hP : l.Keeps P) (reads : List (Option (List U8)))
    {buffer : Nat} (hbuffer : l.dataClusters ≤ buffer) (left : Nat) :
    Ensures P (readEFIApplication l reads buffer left) fun _ => P := by
  induction reads generalizing buffer left with
  | nil =>
    unfold ImageBuilder.readEFIApplication
    split
    · exact Ensures.pure fun _ h => h
    · exact Ensures.throw
  | cons data reads ih =>
    unfold ImageBuilder.readEFIApplication
    split
    · exact Ensures.pure fun _ h => h
    · cases data with
      | none => exact Ensures.pure fun _ h => h
      | some data =>
        exact (hP.data hbuffer).bind fun _ =>
          (ih (hbuffer.trans (Nat.le_add_right _ _)) _).bind fun _ => Ensures.pure fun _ h => h

/-- What is kept holds until the reserved sectors are written. -/
theorem writeEFISystemPartition {c : Configuration} (hP : c.layout.Keeps P) {image image' : Image}
    {reads : List (Option (List U8))} {efiSizeBytes kernelSizeBytes : U64}
    (hreserved : ∀ image₁, writeReservedEntries c.layout image = .ok () image₁ → P image₁)
    (hmirrors : Ensures P (writeMirrors c.layout (ParameterBlock.FATs.toNat - 1)
      (c.layout.primaryFAT + 4 * c.layout.FATSizeBytes.toNat)) fun _ => P)
    (hrun : writeEFISystemPartition c reads efiSizeBytes kernelSizeBytes image =
      .ok true image') :
    ∃ image₁, P image₁ ∧ writeReservedSectors c c.layout image₁ = .ok () image' := by
  simp only [ImageBuilder.writeEFISystemPartition, bind_eq_ok, get_eq_ok] at hrun
  obtain ⟨_, image₁, hentries, d₁, image₂, hpath₁, d₂, image₃, hpath₂, d₃, image₄, hpath₃, _, _,
    ⟨rfl, rfl⟩, application, image₅, hread, hrun⟩ := hrun
  have h₁ := hreserved image₁ hentries
  have h₂ := hP.createPath _ _ _ _ _ h₁ hpath₁
  have h₃ := hP.createPath _ _ _ _ _ h₂ hpath₂
  have h₄ := hP.createPath _ _ _ _ _ h₃ hpath₃
  have h₅ := hP.readEFIApplication reads (dataClusters_le_getDataCluster _) _ _ _ _ h₄ hread
  cases application with
  | none => simp at hrun
  | some application =>
    simp only [bind_eq_ok, pure_eq_ok] at hrun
    obtain ⟨_, image₆, hfile₁, _, image₇, hfile₂, _, image₈, hfile₃, _, image₉, hcopies, _, _,
      hsectors, -, rfl⟩ := hrun
    have h₆ := hP.createFileEntryAfterWritingData _ _ _ _ _ _ h₅ hfile₁
    have h₇ := hP.createFAT32File _ _ _ _ _ _ h₆ hfile₂
    have h₈ := hP.createFAT32File _ _ _ _ _ _ h₇ hfile₃
    exact ⟨image₉, hmirrors _ _ _ h₈ hcopies, hsectors⟩

end Layout.Keeps

/-- No directory or file changes how the FATs start. -/
theorem keeps_unmirrored (hl : l.Spread) : l.Keeps l.Unmirrored where
  data ha := by
    have hpos := hl.pos
    have hdata := hl.dataClusters
    exact ensures_write (by omega) (by omega)
  taken := ensures_createContiguousSpaceForNewEntry hl
  files _ h := ⟨h.first, h.second, h.free, h.free_le⟩

/-- The copy of the first FAT lands past the second one. -/
theorem ensures_writeMirrors (hl : l.Spread) (copies : Nat) {mirrorLocation : Nat}
    (hm : l.primaryFAT + 4 * l.FATSizeBytes.toNat ≤ mirrorLocation) :
    Ensures l.Unmirrored (writeMirrors l copies mirrorLocation) fun _ => l.Unmirrored := by
  have hpos := hl.pos
  induction copies generalizing mirrorLocation with
  | zero => exact Ensures.pure fun _ h => h
  | succ copies ih =>
    refine Ensures.bind (m := fun _ => l.Unmirrored) ?_ fun _ => ih (by omega)
    intro image _ image' h hrun
    unfold memcpy at hrun
    split at hrun
    · obtain rfl := modify_eq_ok.mp hrun
      refine ⟨?_, ?_, h.free, h.free_le⟩
      · change (if _ then _ else _) = _
        rw [if_neg (by omega)]
        exact h.first
      · change (if _ then _ else _) ≠ _
        rw [if_neg (by omega)]
        exact h.second
    · exact (throw_eq_ok.mp hrun).elim

theorem length_biosParameterBlock (c : Configuration) : (biosParameterBlock c).length = 512 := by
  have hoem : (text "THISDISK").length = 8 := rfl
  have hlabel : (text "NO NAME    ").length = 11 := rfl
  have htype : (text "FAT32   ").length = 8 := rfl
  unfold biosParameterBlock
  simp only [List.length_append, length_zeros, hoem, hlabel, htype]
  simp only [le16, le32, List.length_cons, List.length_nil]

theorem length_fileSystemInformation (freeCount nextFree : U32) :
    (fileSystemInformation freeCount nextFree).length = 512 := by
  simp only [fileSystemInformation, le32, List.length_append, length_zeros, List.length_cons,
    List.length_nil]

/-- The reserved sectors lie before the FATs. -/
theorem ensures_writeReservedSectors (hl : l.Spread) (c : Configuration) :
    Ensures l.Unmirrored (writeReservedSectors c l) fun _ => l.Unmirrored := by
  have hfat := hl.primaryFAT
  have hsector : 512 ≤ l.bytesPerSector.toNat := by
    obtain ⟨k, hk, hpow⟩ := hl.sector
    rw [hpow]
    exact Nat.pow_le_pow_right (by norm_num : 0 < 2) hk
  have hbefore : ∀ {address : Nat} {data : List U8}, address + 512 ≤ l.primaryFAT →
      data.length = 512 → Ensures l.Unmirrored (write l address data) fun _ => l.Unmirrored :=
    fun ha hlen => ensures_write (.inr (by omega)) (.inr (by omega))
  refine (Ensures.get (q := fun _ => l.Unmirrored) fun _ h => h).bind fun image => ?_
  refine (hbefore (by omega) (length_biosParameterBlock c)).bind fun _ =>
    (hbefore (by omega) (length_fileSystemInformation _ _)).bind fun _ =>
      (hbefore (by omega) (length_biosParameterBlock c)).bind fun _ =>
        hbefore (by omega) (length_fileSystemInformation _ _)

/-- The reserved entries put the media value at the start of the first FAT. -/
theorem ensures_writeReservedEntries (hl : l.Spread) :
    Ensures (fun image => image.bytes (l.primaryFAT + l.FATSizeBytes.toNat) = 0)
      (writeReservedEntries l) fun _ => l.Unmirrored := by
  intro image _ image' h hrun
  have hpos := hl.pos
  obtain ⟨c, hc⟩ := hl.dvd
  simp only [writeReservedEntries, setPrimaryFAT, bind_eq_ok, write_eq_ok, modify_eq_ok] at hrun
  obtain ⟨_, _, ⟨-, rfl⟩, _, _, ⟨-, rfl⟩, _, _, ⟨-, rfl⟩, rfl⟩ := hrun
  have hlen : ∀ v : U32, (le32 v).length = 4 := fun _ => rfl
  have hone : (1 : U32).toNat = 1 := rfl
  have htwo : (2 : U32).toNat = 2 := rfl
  refine ⟨?_, ?_, (le_rfl : 3 ≤ 3), (by norm_num : 3 ≤ 2 ^ 30)⟩
  · change overwrite (overwrite (overwrite _ _ _) _ _) _ _ _ = _
    rw [overwrite_of_notMem (by rw [htwo]; omega), overwrite_of_notMem (by rw [hone]; omega),
      overwrite, if_pos (by rw [hlen]; exact ⟨le_rfl, by omega⟩)]
    change (le32 (0xFFFFFF00 ||| fixedMedia.setWidth 32)).getD (l.primaryFAT - l.primaryFAT) 0 = _
    rw [Nat.sub_self]
    rfl
  · change overwrite (overwrite (overwrite _ _ _) _ _) _ _ _ ≠ _
    rw [overwrite_of_notMem (by rw [hlen, htwo]; omega),
      overwrite_of_notMem (by rw [hlen, hone]; omega), overwrite_of_notMem (by
        rw [hlen]
        change _ ∨ l.primaryFAT + 4 * 0 + 4 ≤ _
        omega), h]
    decide

/-- When the partition was written, the second FAT does not start with the media value. -/
theorem unmirrored_of_ok {c : Configuration} (hl : c.layout.Spread)
    {reads : List (Option (List U8))} {efiSizeBytes kernelSizeBytes : U64} {image image' : Image}
    (hzero : image.bytes (c.layout.primaryFAT + c.layout.FATSizeBytes.toNat) = 0)
    (hrun : writeEFISystemPartition c reads efiSizeBytes kernelSizeBytes image =
      .ok true image') : c.layout.Unmirrored image' := by
  obtain ⟨image₁, h₁, hsectors⟩ := (keeps_unmirrored hl).writeEFISystemPartition
    (fun image₁ => ensures_writeReservedEntries hl _ _ _ hzero)
    (ensures_writeMirrors hl _ le_rfl) hrun
  exact ensures_writeReservedSectors hl c _ _ _ h₁ hsectors

end Kept

/-! ## The planned layout -/

/-- An application that was read lies within the image. -/
theorem readEFIApplication_le {l : Layout} {reads : List (Option (List U8))} {buffer left : Nat}
    {image image' : Image} {application : List U8}
    (h : readEFIApplication l reads buffer left image = .ok (some application) image') :
    left = 0 ∨ buffer + left ≤ l.size := by
  induction reads generalizing buffer left image image' application with
  | nil =>
    unfold readEFIApplication at h
    split at h
    · exact .inl ‹_›
    · exact (throw_eq_ok.mp h).elim
  | cons data reads ih =>
    unfold readEFIApplication at h
    split at h
    · exact .inl ‹_›
    · rename_i hleft
      cases data with
      | none => simp at h
      | some data =>
        simp only [bind_eq_ok, pure_eq_ok] at h
        obtain ⟨_, _, hwrite, rest, _, hrest, hmap, -⟩ := h
        obtain ⟨rest, rfl, -⟩ := Option.map_eq_some_iff.mp hmap
        have hle := List.length_take_le left data
        have hfits := (write_eq_ok.mp hwrite).1
        rcases ih hrest with hdone | hmore
        · rcases hfits with hnil | hfits
          · rw [hnil, List.length_nil] at hdone
            omega
          · omega
        · omega

/-- When the partition was written, the application is smaller than the image. -/
theorem efiSizeBytes_lt {c : Configuration} {reads : List (Option (List U8))}
    {efiSizeBytes kernelSizeBytes : U64} {image image' : Image}
    (hsize : c.layout.size < 2 ^ 32)
    (h : writeEFISystemPartition c reads efiSizeBytes kernelSizeBytes image = .ok true image') :
    efiSizeBytes.toNat < 2 ^ 32 := by
  simp only [writeEFISystemPartition, bind_eq_ok] at h
  obtain ⟨_, _, -, _, _, -, _, _, -, _, _, -, _, _, -, application, _, hread, hrest⟩ := h
  cases application with
  | none => simp at hrest
  | some application =>
    have hle := readEFIApplication_le hread
    omega

section Planned

variable {LBASizeBytes : U16} {alignmentSizeBytes : U32} {efiSizeBytes : U64} {k j : Nat}

/-- An application of fewer than 2^32 bytes takes few clusters. -/
theorem plannedClusters_lt (hL : IsTwoPow LBASizeBytes k) (hk : 9 ≤ k)
    (ha : IsTwoPow alignmentSizeBytes j) (hsize : efiSizeBytes.toNat < 2 ^ 32) :
    plannedClusters (sizeInLBA LBASizeBytes efiSizeBytes).toNat (2 ^ (j - k)) < 2 ^ 24 := by
  have hj := ha.exponent_lt
  have hpow : 2 ^ 9 ≤ 2 ^ k := Nat.pow_le_pow_right (by norm_num) hk
  have hkle : 2 ^ k ≤ 2 ^ 15 := Nat.pow_le_pow_right (by norm_num) (by
    have := hL.exponent_lt
    omega)
  have hale : 2 ^ (j - k) ≤ 2 ^ 22 := Nat.pow_le_pow_right (by norm_num) (by omega)
  have hblocks : (sizeInLBA LBASizeBytes efiSizeBytes).toNat ≤ 2 ^ 23 := by
    have hsum := Nat.mod_eq_of_lt (a := efiSizeBytes.toNat + (2 ^ k - 1)) (b := 2 ^ 64) (by omega)
    rw [toNat_sizeInLBA hL, hsum]
    refine (Nat.mod_le _ _).trans ?_
    rw [Nat.div_le_iff_le_mul_add_pred (by positivity)]
    omega
  refine (roundUp_lt (by positivity)).trans_le ?_
  rw [Nat.mod_eq_of_lt (by omega)]
  omega

/-- The size of the image is a product of 32-bit numbers. -/
theorem size_setConfiguration {kernelSizeBytes : U64} :
    (setConfiguration LBASizeBytes efiSizeBytes kernelSizeBytes
      alignmentSizeBytes).layout.size < 2 ^ 32 := by
  have himage := ((setConfiguration LBASizeBytes efiSizeBytes kernelSizeBytes
    alignmentSizeBytes).totalImageSizeLBA * LBASizeBytes.setWidth 32).isLt
  rwa [← BitVec.toNat_setWidth_of_le (by norm_num : 32 ≤ 64)] at himage

/-- The FATs and the partition as numbers of blocks. -/
theorem sizes_setConfiguration (kernelSizeBytes : U64) (hL : IsTwoPow LBASizeBytes k)
    (hk : 9 ≤ k) (ha : IsTwoPow alignmentSizeBytes j) (hsize : efiSizeBytes.toNat < 2 ^ 32)
    {C R : Nat}
    (hC : C = plannedClusters (sizeInLBA LBASizeBytes efiSizeBytes).toNat (2 ^ (j - k)))
    (hR : R = roundUp (reservedAndFATSectors C (2 ^ (k - 2))) (2 ^ (j - k))) :
    let c := setConfiguration LBASizeBytes efiSizeBytes kernelSizeBytes alignmentSizeBytes
    c.efi.dataClustersCount.toNat = C ∧
      c.layout.FATSizeBytes.toNat = (R - 32) / 2 * 2 ^ k ∧
      c.layout.FATSizeBytes.toNat < 2 ^ 31 ∧
      R + C ≤ c.EFISystemPartitionSizeLBA.toNat := by
  intro c
  have hk' := hL.exponent_lt
  have hj := ha.exponent_lt
  have halign := isTwoPow_alignmentInLBA hL ha
  have hClt := plannedClusters_lt hL hk ha hsize
  have hcount := toNat_dataClustersCount halign (hClt.trans (by norm_num))
  have hbytes := toNat_FATSizeBytes hL (by omega) (by omega) halign (by omega)
    (hClt.trans (by norm_num))
  have hsectors := toNat_reservedAndFATSizeSectors hL (by omega) (by omega) halign (by omega)
    (hcount.trans_lt (hClt.trans (by norm_num)))
  rw [hcount, ← hC, ← hR] at hsectors
  rw [← hC] at hClt hcount hbytes
  set q := 2 ^ (k - 2)
  have hpow : 2 ^ k = q * 4 := two_pow_eq_entries (by omega)
  have haq : 2 ^ (j - k) * q ≤ 2 ^ 29 := alignment_mul_entries_le (by omega) (by omega)
  have hale : 2 ^ (j - k) ≤ 2 ^ 22 := Nat.pow_le_pow_right (by norm_num) (by omega)
  have hqle : q ≤ 2 ^ 13 := Nat.pow_le_pow_right (by norm_num) (by omega)
  have hmul := plannedFATSectors_mul_le (C := C) (q := q) (a := 2 ^ (j - k)) (by positivity)
    (by positivity)
  have hfat : plannedFATSectors C q (2 ^ (j - k)) = (R - 32) / 2 := by
    rw [hR]
    rfl
  have hup : R < reservedAndFATSectors C q + 2 ^ (j - k) := hR ▸ roundUp_lt (by positivity)
  have hreserved : reservedAndFATSectors C q = 32 + 2 * ((C + (q - 1)) / q) := rfl
  have hceil' := Nat.div_le_self (C + (q - 1)) q
  have hF : c.layout.FATSizeBytes.toNat = (R - 32) / 2 * 2 ^ k := by
    rw [← hfat]
    refine hbytes.trans (Nat.mod_eq_of_lt ?_)
    rw [hpow, ← Nat.mul_assoc]
    omega
  have htotal : (c.efi.totalSectors32Bit).toNat = R + C := by
    change (reservedAndFATSizeSectors LBASizeBytes (alignmentInLBA LBASizeBytes alignmentSizeBytes)
      (dataClustersCount (alignmentInLBA LBASizeBytes alignmentSizeBytes) _) +
        dataClustersCount (alignmentInLBA LBASizeBytes alignmentSizeBytes) _).toNat = _
    rw [BitVec.toNat_add, hsectors, hcount, Nat.mod_eq_of_lt (by omega)]
  refine ⟨hcount, hF, ?_, ?_⟩
  · rw [hF, hpow, ← Nat.mul_assoc, ← hfat]
    omega
  · have halignUp := toNat_alignUpValue halign (x := c.efi.totalSectors32Bit) (by omega)
    rw [htotal, halign] at halignUp
    exact (le_roundUp (by positivity)).trans halignUp.ge

/-- The FATs and the clusters follow each other, and all lie in the partition. -/
theorem spread_setConfiguration (kernelSizeBytes : U64) (hL : IsTwoPow LBASizeBytes k)
    (hk : 9 ≤ k) (ha : IsTwoPow alignmentSizeBytes j) (hsize : efiSizeBytes.toNat < 2 ^ 32) :
    let c := setConfiguration LBASizeBytes efiSizeBytes kernelSizeBytes alignmentSizeBytes
    c.layout.Spread ∧ c.layout.dataClusters <
      c.layout.reservedSectors + c.EFISystemPartitionSizeLBA.toNat * LBASizeBytes.toNat ∧
      4 * c.efi.dataClustersCount.toNat ≤ c.layout.FATSizeBytes.toNat := by
  intro c
  obtain ⟨hcount, hF, hFlt, hpartition⟩ :=
    sizes_setConfiguration kernelSizeBytes hL hk ha hsize rfl rfl
  change c.efi.dataClustersCount.toNat = _ at hcount
  change c.layout.FATSizeBytes.toNat = _ at hF
  change c.layout.FATSizeBytes.toNat < _ at hFlt
  change _ ≤ c.EFISystemPartitionSizeLBA.toNat at hpartition
  set C := plannedClusters (sizeInLBA LBASizeBytes efiSizeBytes).toNat (2 ^ (j - k))
  set q := 2 ^ (k - 2)
  set R := roundUp (reservedAndFATSectors C q) (2 ^ (j - k))
  have hk' := hL.exponent_lt
  have hqle : q ≤ 2 ^ 13 := Nat.pow_le_pow_right (by norm_num) (by omega)
  have hpow : 2 ^ k = q * 4 := two_pow_eq_entries (by omega)
  have hCpos : 65526 ≤ C := (le_max_left _ _).trans (le_roundUp (by positivity))
  have hceil : 1 ≤ (C + (q - 1)) / q := (Nat.le_div_iff_mul_le (by positivity)).mpr (by omega)
  have hreserved : reservedAndFATSectors C q = 32 + 2 * ((C + (q - 1)) / q) := rfl
  have hup : reservedAndFATSectors C q ≤ R := le_roundUp (by positivity)
  have hFATs : (c.layout.FATSizeBytes * 2).toNat = 2 * c.layout.FATSizeBytes.toNat := by
    rw [BitVec.toNat_mul, Nat.mul_comm]
    exact Nat.mod_eq_of_lt (by
      change 2 * _ < _
      omega)
  refine ⟨⟨⟨k, hk, hL⟩, rfl, ?_, ?_, ?_, ?_⟩, ?_, ?_⟩
  · rw [hF]
    exact Nat.mul_pos (by omega) (by positivity)
  · rw [hF]
    exact Dvd.dvd.mul_left (pow_dvd_pow 2 hk) _
  · exact congrArg (c.layout.primaryFAT + ·) hFATs
  · exact size_setConfiguration
  · change c.layout.reservedSectors + LBASizeBytes.toNat * 32 +
      (c.layout.FATSizeBytes * 2).toNat < _
    have hmul := Nat.mul_le_mul_right LBASizeBytes.toNat hpartition
    have hinside : (32 + 2 * ((R - 32) / 2)) * LBASizeBytes.toNat <
        (R + C) * LBASizeBytes.toNat :=
      Nat.mul_lt_mul_of_pos_right (by omega) hL.pos
    rw [Nat.add_mul, Nat.mul_assoc, hL, ← hF] at hinside
    rw [hFATs, hL]
    rw [hL] at hmul
    omega
  · have hcover : C ≤ (C + (q - 1)) / q * q := by
      have hmod := Nat.div_add_mod (C + (q - 1)) q
      have hlt := Nat.mod_lt (C + (q - 1)) (show 0 < q by positivity)
      rw [Nat.mul_comm]
      omega
    have hsectorsLe : (C + (q - 1)) / q ≤ (R - 32) / 2 := by omega
    have hentries := Nat.mul_le_mul_right q hsectorsLe
    rw [hcount, hF, hpow, ← Nat.mul_assoc]
    omega

/-! ## The image that is produced -/

/-- Nothing was written to the EFI system partition yet. -/
def FreshPartition (c : Configuration) (image : Image) : Prop :=
  ∀ i, c.layout.reservedSectors ≤ i →
    i < c.layout.reservedSectors + c.EFISystemPartitionSizeLBA.toNat * c.LBASizeBytes.toNat →
      image.bytes i = 0

/-- In every image that is produced, the second FAT starts with another byte than the
first. -/
theorem unmirrored_of_written {reads : List (Option (List U8))} {kernelSizeBytes : U64}
    {image image' : Image} (hL : IsTwoPow LBASizeBytes k) (hk : 9 ≤ k)
    (ha : IsTwoPow alignmentSizeBytes j) :
    let c := setConfiguration LBASizeBytes efiSizeBytes kernelSizeBytes alignmentSizeBytes
    FreshPartition c image →
      writeEFISystemPartition c reads efiSizeBytes kernelSizeBytes image = .ok true image' →
        c.layout.Unmirrored image' ∧ 0 < c.layout.FATSizeBytes.toNat := by
  intro c hfresh hrun
  obtain ⟨hl, hinside, -⟩ : c.layout.Spread ∧ c.layout.dataClusters <
      c.layout.reservedSectors + c.EFISystemPartitionSizeLBA.toNat * LBASizeBytes.toNat ∧ _ :=
    spread_setConfiguration kernelSizeBytes hL hk ha (efiSizeBytes_lt size_setConfiguration hrun)
  have hdata := hl.dataClusters
  have hafter := hl.primaryFAT
  have hzero : image.bytes (c.layout.primaryFAT + c.layout.FATSizeBytes.toNat) = 0 := by
    apply hfresh
    · omega
    · have hpos := hl.pos
      exact lt_trans (by omega) hinside
  exact ⟨unmirrored_of_ok hl hzero hrun, hl.pos⟩

/-- FATs that start differently are not mirrored. -/
theorem Layout.Unmirrored.not_mirrored {l : Layout} {image : Image} (h : l.Unmirrored image)
    (hpos : 0 < l.FATSizeBytes.toNat) : ¬ FATsMirrored l image := by
  intro hmirrored
  have hfirst := hmirrored 0 hpos
  rw [Nat.add_zero, Nat.add_zero, h.first] at hfirst
  exact h.second hfirst

/-- No image that is produced has a second FAT like the first and files that read back. -/
theorem writeEFISystemPartition_never_mirrors (reads : List (Option (List U8)))
    (kernelSizeBytes : U64) (image image' : Image) (hL : IsTwoPow LBASizeBytes k) (hk : 9 ≤ k)
    (ha : IsTwoPow alignmentSizeBytes j) :
    let c := setConfiguration LBASizeBytes efiSizeBytes kernelSizeBytes alignmentSizeBytes
    FreshPartition c image →
      writeEFISystemPartition c reads efiSizeBytes kernelSizeBytes image = .ok true image' →
        ¬ (FATsMirrored c.layout image' ∧ FilesReadBack c.layout image') := by
  intro c hfresh hrun hclaim
  obtain ⟨hunmirrored, hpos⟩ := unmirrored_of_written hL hk ha hfresh hrun
  exact hunmirrored.not_mirrored hpos hclaim.1

end Planned

/-- An application of three bytes, with blocks of 512 bytes. -/
theorem writeEFISystemPartition_returns :
    ReturnsWith (writeEFISystemPartition (setConfiguration 512 3 4096 512) [some [1, 2, 3]] 3 4096
      ⟨fun _ => 0, 0, []⟩) fun written _ => written = true := by
  decide +kernel

/-- Its image is produced, and its second FAT is no copy. -/
theorem writeEFISystemPartition_never_mirrors_three :
    let c := setConfiguration 512 3 4096 512
    ∃ image', writeEFISystemPartition c [some [1, 2, 3]] 3 4096 ⟨fun _ => 0, 0, []⟩ =
        .ok true image' ∧ ¬ (FATsMirrored c.layout image' ∧ FilesReadBack c.layout image') := by
  obtain ⟨_, image', hrun, rfl⟩ := writeEFISystemPartition_returns
  exact ⟨image', hrun, writeEFISystemPartition_never_mirrors (k := 9) (j := 9) _ _ _ _ (by decide)
    (by decide) (by decide) (fun _ _ _ => rfl) hrun⟩

/-- The second FAT is not always a copy of the first, with files that read back. -/
theorem writeEFISystemPartition_not_mirrored :
    ¬ ∀ (LBASizeBytes : U16) (efiSizeBytes kernelSizeBytes : U64) (alignmentSizeBytes : U32)
        (k j : Nat) (reads : List (Option (List U8))) (image image' : Image),
      IsTwoPow LBASizeBytes k → 9 ≤ k → IsTwoPow alignmentSizeBytes j →
      let c := setConfiguration LBASizeBytes efiSizeBytes kernelSizeBytes alignmentSizeBytes
      FreshPartition c image → image.files = [] →
      writeEFISystemPartition c reads efiSizeBytes kernelSizeBytes image = .ok true image' →
        FATsMirrored c.layout image' ∧ FilesReadBack c.layout image' := by
  intro hclaim
  obtain ⟨_, image', hrun, rfl⟩ := writeEFISystemPartition_returns
  obtain ⟨hmirrored, -⟩ := hclaim 512 3 4096 512 9 9 _ _ _ (by decide) (by decide) (by decide)
    (fun _ _ _ => rfl) rfl hrun
  obtain ⟨hunmirrored, hpos⟩ := unmirrored_of_written (k := 9) (j := 9) (by decide)
    (by decide) (by decide) (fun _ _ _ => rfl) hrun
  exact hunmirrored.not_mirrored hpos hmirrored

end Homegrown.ImageBuilder
