import Homegrown.ImageBuilder.Directory

/-!
# Where the EFI system partition is written

With room in the image for the clusters of the application, every step of
`writeEFISystemPartition` returns, up to the copy of the first FAT: that one is four times as far
away as it should be, and alone decides whether the writer stays within the image
(`writeEFISystemPartition_cases`).
-/

namespace Homegrown.ImageBuilder

/-- The image has room for an application of so many clusters, with the directories before it and
the two files behind it, and the entries of these clusters lie within the FATs. -/
structure Layout.Roomy (l : Layout) (blocks : Nat) : Prop where
  spread : l.Spread
  links : 2 * (blocks + 8) ≤ l.FATSizeBytes.toNat
  room : l.dataAddress (blocks + 8) ≤ l.size

/-- The entries of a directory, and none behind them. -/
def Lists (l : Layout) (bytes : Nat → U8) (d : U32) (rest : List DirEntry) : Prop :=
  ∀ i < entriesInCluster l, entryAt l bytes d i = slot rest[i]?

/-- The clusters below the first free one are taken, and of those up to the fifth the entries are
known. -/
structure Progress (l : Layout) (free : Nat) (listing : U32 → List DirEntry) (image : Image) :
    Prop where
  free : image.currentFreeDataClusterIndex.toNat = free
  lists : ∀ d : U32, 2 ≤ d.toNat → d.toNat ≤ 5 → Lists l image.bytes d (listing d)
  short : ∀ d, ∀ e ∈ listing d, IsShortName e.name

section Steps

variable {l : Layout} {blocks free : Nat} {listing : U32 → List DirEntry} {image image' : Image}
  {bytes bytes' : Nat → U8} {d c : U32} {rest : List DirEntry} {name : List U8} {e : DirEntry}

/-- A cluster of the application, or one before or right behind it. -/
theorem Layout.Roomy.address (h : l.Roomy blocks) (hc : 2 ≤ c.toNat) (hle : c.toNat ≤ blocks + 8) :
    getDataCluster l c = l.dataAddress c.toNat := by
  have hmono := l.dataAddress_mono hc hle
  have hsize := h.spread.size
  have hroom := h.room
  refine getDataCluster_eq hc ?_
  rw [Layout.dataAddress] at hmono
  omega

theorem Layout.Roomy.blocks_lt (h : l.Roomy blocks) : blocks + 8 < 2 ^ 24 := by
  have hsector := Nat.mul_le_mul_right (blocks + 6) h.spread.sector_bounds.1
  have hsize := h.spread.size
  have hroom := h.room
  rw [Layout.dataAddress, show blocks + 8 - 2 = blocks + 6 by omega] at hroom
  omega

/-- Entries depend on the bytes of their cluster only. -/
theorem Lists.congr (h : Lists l bytes d rest) (hsame : ∀ a, getDataCluster l d ≤ a →
    a < getDataCluster l d + l.bytesPerSector.toNat → bytes' a = bytes a) :
    Lists l bytes' d rest := by
  intro i hi
  have hle := entry_le hi
  rw [← h i hi]
  refine bytesAt_congr fun j hj => hsame _ (by omega) (by omega)

/-- An entry is written behind the last one. -/
theorem Lists.append (h : Lists l bytes d rest) (he : IsShortName e.name) :
    Lists l (overwrite bytes (getDataCluster l d + dirEntrySize * rest.length) e.bytes) d
      (rest ++ [e]) := by
  have hlength : e.bytes.length = dirEntrySize := DirEntry.length_bytes he
  intro i hi
  rcases Nat.lt_trichotomy i rest.length with hlt | rfl | hgt
  · have hstep := Nat.mul_le_mul_left dirEntrySize (Nat.succ_le_of_lt hlt)
    rw [Nat.mul_succ] at hstep
    rw [List.getElem?_append_left hlt, ← h i hi]
    exact bytesAt_overwrite_of_apart (Or.inl (by omega))
  · rw [List.getElem?_concat_length]
    exact bytesAt_overwrite_self hlength
  · have hstep := Nat.mul_le_mul_left dirEntrySize (Nat.succ_le_of_lt hgt)
    rw [Nat.mul_succ] at hstep
    rw [List.getElem?_eq_none (by simp; omega)]
    have hnone := h i hi
    rw [List.getElem?_eq_none (by omega)] at hnone
    rw [← hnone]
    exact bytesAt_overwrite_of_apart (Or.inr (by omega))

/-- What is written behind the directories leaves them as they are. -/
theorem Progress.write_behind (h : Progress l free listing image) (hl : l.Roomy blocks)
    {address : Nat} (haddress : l.dataAddress 6 ≤ address) (data : List U8) :
    Progress l free listing { image with bytes := overwrite image.bytes address data } := by
  refine ⟨h.free, fun d hd hd' => (h.lists d hd hd').congr fun a ha hlt => ?_, h.short⟩
  rw [hl.address hd (by omega)] at hlt
  have hle := l.dataAddress_add_le hd (show d.toNat + 1 ≤ 6 by omega)
  rw [Nat.mul_one] at hle
  exact overwrite_of_notMem (Or.inl (by omega))

/-- What is written before the clusters leaves the directories as they are. -/
theorem Progress.congr (h : Progress l free listing image)
    (hsame : ∀ a, l.dataClusters ≤ a → image'.bytes a = image.bytes a) :
    Progress l image'.currentFreeDataClusterIndex.toNat listing image' :=
  ⟨rfl, fun d hd hd' => (h.lists d hd hd').congr fun a ha _ =>
    hsame a ((dataClusters_le_getDataCluster d).trans ha), h.short⟩

theorem Progress.files (h : Progress l free listing image) (files : List CreatedFile) :
    Progress l free listing { image with files } := ⟨h.free, h.lists, h.short⟩

/-- An entry is added to a directory. -/
theorem Progress.append (h : Progress l free listing image) (hl : l.Roomy blocks)
    (hd : 2 ≤ d.toNat) (hd' : d.toNat ≤ 5) (he : IsShortName e.name)
    (hplace : (listing d).length < entriesInCluster l) :
    Progress l free (Function.update listing d (listing d ++ [e]))
      { image with
        bytes := overwrite image.bytes (getDataCluster l d + dirEntrySize * (listing d).length)
          e.bytes } := by
  have hlength : e.bytes.length = dirEntrySize := DirEntry.length_bytes he
  have hentry := entry_le hplace
  refine ⟨h.free, fun d' h2 h5 => ?_, fun d' e' he' => ?_⟩
  · by_cases heq : d' = d
    · subst heq
      rw [Function.update_self]
      exact (h.lists d' h2 h5).append he
    · rw [Function.update_of_ne heq]
      refine (h.lists d' h2 h5).congr fun a ha hlt => overwrite_of_notMem ?_
      have hne : d'.toNat ≠ d.toNat := fun hsame => heq (BitVec.eq_of_toNat_eq hsame)
      rw [hl.address h2 (by omega)] at ha hlt
      rw [hl.address hd (by omega), hlength]
      rcases Nat.lt_or_gt_of_ne hne with hbefore | hafter
      · have hle := l.dataAddress_add_le h2 (show d'.toNat + 1 ≤ d.toNat by omega)
        rw [Nat.mul_one] at hle
        omega
      · have hle := l.dataAddress_add_le hd (show d.toNat + 1 ≤ d'.toNat by omega)
        rw [Nat.mul_one] at hle
        omega
  · by_cases heq : d' = d
    · subst heq
      rw [Function.update_self, List.mem_append, List.mem_singleton] at he'
      rcases he' with he' | rfl
      · exact h.short d' e' he'
      · exact he
    · rw [Function.update_of_ne heq] at he'
      exact h.short d' e' he'

/-! ## Steps that return -/

/-- A store within the image. -/
theorem write_returns {address : Nat} {data : List U8} (h : address + data.length ≤ l.size) :
    write l address data image =
      .ok () { image with bytes := overwrite image.bytes address data } :=
  write_eq_ok.mpr ⟨Or.inr h, rfl⟩

/-- Entries within the image are linked. -/
theorem linkClusters_returns (last : U32) {i : U32} (left : Nat) (hfits : i.toNat + left < 2 ^ 32)
    (hsize : l.primaryFAT + 4 * (i.toNat + left) ≤ l.size) :
    ∃ image', linkClusters l last left i image = .ok () image' := by
  induction left generalizing i image with
  | zero => exact ⟨image, rfl⟩
  | succ left ih =>
    have hnext : (i + 1).toNat = i.toNat + 1 := toNat_add_ofNat (j := 1) (by omega)
    rw [linkClusters, setPrimaryFAT, bind_of_ok (write_returns (by rw [length_le32]; omega))]
    exact ih (by omega) (by omega)

/-- The next clusters are taken. -/
theorem createContiguousSpaceForNewEntry_returns (hl : l.Roomy blocks)
    (h : Progress l free listing image) {size : U32} {n : Nat}
    (hn : (requiredNewClusters l.bytesPerSector (size.setWidth 64)).toNat = n)
    (hfits : free + n ≤ blocks + 8) :
    ReturnsWith (createContiguousSpaceForNewEntry l (size.setWidth 64) image)
      fun result image' => result = image.currentFreeDataClusterIndex ∧
        Progress l (free + n) listing image' := by
  have hlinks := hl.links
  have hFAT := l.FATSizeBytes.isLt
  have hfree := h.free
  have hdata := hl.spread.dataClusters
  have hdataLe := l.dataAddress_mono (le_refl 2) (show 2 ≤ blocks + 8 by omega)
  have hroom := hl.room
  have hbase : l.dataAddress 2 = l.dataClusters := Nat.add_zero _
  have hblocks := hl.blocks_lt
  have hsum : (image.currentFreeDataClusterIndex + requiredNewClusters l.bytesPerSector
      (size.setWidth 64)).toNat = free + n := by
    rw [BitVec.toNat_add, hn, hfree, Nat.mod_eq_of_lt (by omega)]
  obtain ⟨linked, hlinked⟩ := @linkClusters_returns l image
    (image.currentFreeDataClusterIndex + requiredNewClusters l.bytesPerSector
      (size.setWidth 64) - 1) image.currentFreeDataClusterIndex
    ((image.currentFreeDataClusterIndex + requiredNewClusters l.bytesPerSector
      (size.setWidth 64)).toNat - image.currentFreeDataClusterIndex.toNat)
    (by omega) (by omega)
  have hrun : createContiguousSpaceForNewEntry l (size.setWidth 64) image =
      .ok image.currentFreeDataClusterIndex { linked with
        currentFreeDataClusterIndex := image.currentFreeDataClusterIndex +
          requiredNewClusters l.bytesPerSector (size.setWidth 64) } := by
    rw [createContiguousSpaceForNewEntry, get_bind, bind_of_ok hlinked]
    rfl
  obtain ⟨-, -, -, hframe, -⟩ :=
    createContiguousSpaceForNewEntry_eq_ok hl.spread (by omega) hrun
  refine ⟨_, _, hrun, rfl, ?_⟩
  have hkept : Progress l (image.currentFreeDataClusterIndex + requiredNewClusters l.bytesPerSector
      (size.setWidth 64)).toNat listing { linked with
        currentFreeDataClusterIndex := image.currentFreeDataClusterIndex +
          requiredNewClusters l.bytesPerSector (size.setWidth 64) } :=
    h.congr fun a ha => hframe a (Or.inr (by rw [hn]; omega))
  rw [hsum] at hkept
  exact hkept

/-- An entry of a directory lies in the image. -/
theorem Layout.Roomy.entry_inside (hl : l.Roomy blocks) (hd : 2 ≤ d.toNat) (hd' : d.toNat ≤ 5)
    {i : Nat} (hi : i < entriesInCluster l) :
    getDataCluster l d + dirEntrySize * i + dirEntrySize ≤ l.size := by
  have hentry := entry_le hi
  have hle := l.dataAddress_add_le hd (show d.toNat + 1 ≤ blocks + 8 by omega)
  have hroom := hl.room
  rw [Nat.mul_one] at hle
  rw [hl.address hd (by omega)]
  omega

/-- A directory without the name gets it behind its last entry. -/
theorem createOrGetDirectoryFrom_creates {entry left : Nat} {parentCluster : U32}
    (hname : IsShortName name) (hshort : ∀ e ∈ rest, IsShortName e.name)
    (hslots : ∀ j < left, bytesAt image.bytes (entry + dirEntrySize * j) dirEntrySize =
      slot rest[j]?)
    (hlength : rest.length < left)
    (hinside : ∀ j < left, entry + dirEntrySize * j + dirEntrySize ≤ l.size)
    (hnew : ∀ e ∈ rest, e.name ≠ name) :
    createOrGetDirectoryFrom l name parentCluster left entry image =
      createDirectoryAt l name parentCluster (entry + dirEntrySize * rest.length) image := by
  induction rest generalizing entry left with
  | nil =>
    obtain ⟨left, rfl⟩ := Nat.exists_eq_succ_of_ne_zero (show left ≠ 0 by
      rw [List.length_nil] at hlength
      omega)
    have hin := hinside 0 (Nat.succ_pos _)
    have hfirst := hslots 0 (Nat.succ_pos _)
    rw [Nat.mul_zero, Nat.add_zero] at hin hfirst
    rw [createOrGetDirectoryFrom, bind_of_ok (read_eq_ok.mpr ⟨hin, hfirst, rfl⟩)]
    change (if zeroName = name then _ else if zeroName = zeroName then _ else _ : Writer U32)
      image = _
    rw [if_neg fun h => hname.ne_zero h.symm, if_pos rfl]
    rfl
  | cons e rest ih =>
    obtain ⟨left, rfl⟩ := Nat.exists_eq_succ_of_ne_zero (show left ≠ 0 by omega)
    have he := hshort e (List.mem_cons_self ..)
    have hin := hinside 0 (Nat.succ_pos _)
    have hfirst := hslots 0 (Nat.succ_pos _)
    rw [Nat.mul_zero, Nat.add_zero] at hin hfirst
    have htake : e.bytes.take fat32ShortNameLen = e.name := DirEntry.take_bytes he
    rw [createOrGetDirectoryFrom, bind_of_ok (read_eq_ok.mpr ⟨hin, hfirst, rfl⟩)]
    change (if e.bytes.take fat32ShortNameLen = name then _
      else if e.bytes.take fat32ShortNameLen = zeroName then _ else _ : Writer U32) image = _
    rw [htake, if_neg (hnew e (List.mem_cons_self ..)), if_neg he.ne_zero]
    have hrest := ih
      (fun e he => hshort e (List.mem_cons_of_mem _ he)) (slots_tail hslots)
      (by simpa using hlength) (fun j hj => by
        have hnext := hinside (j + 1) (by omega)
        rw [Nat.mul_add, Nat.mul_one] at hnext
        omega)
      (fun e he => hnew e (List.mem_cons_of_mem _ he))
    rw [hrest, List.length_cons, Nat.mul_add, Nat.mul_one, Nat.add_assoc,
      Nat.add_comm dirEntrySize]

/-- The place for a new file is behind the last entry. -/
theorem getNewFileEntryLocationFrom_returns {entry left : Nat}
    (hshort : ∀ e ∈ rest, IsShortName e.name)
    (hslots : ∀ j < left, bytesAt image.bytes (entry + dirEntrySize * j) dirEntrySize =
      slot rest[j]?)
    (hlength : rest.length < left)
    (hinside : ∀ j < left, entry + dirEntrySize * j + dirEntrySize ≤ l.size) :
    getNewFileEntryLocationFrom l left entry image =
      .ok (entry + dirEntrySize * rest.length) image := by
  induction left generalizing entry rest with
  | zero => exact absurd hlength (Nat.not_lt_zero _)
  | succ left ih =>
    have hin := hinside 0 (Nat.succ_pos _)
    have hfirst := hslots 0 (Nat.succ_pos _)
    rw [Nat.mul_zero, Nat.add_zero] at hin hfirst
    have hread : bytesAt image.bytes entry fat32ShortNameLen =
        (rest[0]?.map DirEntry.name).getD zeroName := by
      rw [← slot_take hshort 0, ← hfirst, bytesAt, bytesAt, ← List.map_take, List.take_range]
      rfl
    have hle : entry + fat32ShortNameLen ≤ l.size :=
      le_trans (Nat.add_le_add_left (by decide) _) hin
    rw [getNewFileEntryLocationFrom, bind_of_ok (read_eq_ok.mpr ⟨hle, hread, rfl⟩)]
    cases rest with
    | nil => rfl
    | cons e rest =>
      have he := hshort e (List.mem_cons_self ..)
      change (if e.name = zeroName then _ else _ : Writer Nat) image = _
      rw [if_neg he.ne_zero, ih
        (fun e he => hshort e (List.mem_cons_of_mem _ he)) (slots_tail hslots)
        (by simpa using hlength) (fun j hj => by
          have hnext := hinside (j + 1) (by omega)
          rw [Nat.mul_add, Nat.mul_one] at hnext
          omega), List.length_cons, Nat.mul_add, Nat.mul_one, Nat.add_assoc,
        Nat.add_comm dirEntrySize]

/-- An entry is written within the image. -/
theorem writeDirectoryEntry_returns {address : Nat} (hname : IsShortName name)
    (h : address + dirEntrySize ≤ l.size) : writeDirectoryEntry l address c name image =
      .ok ()
        { image with bytes := overwrite image.bytes address (directoryEntry name c).bytes } := by
  have hlength : (directoryEntry name c).bytes.length = dirEntrySize := DirEntry.length_bytes hname
  exact write_returns (hlength ▸ h)

/-- The two entries that a directory starts with are written within the image. -/
theorem writeDOTEntries_returns {address : Nat} (h : address + dirEntrySize ≤ l.size)
    (h' : address + dirEntrySize * 1 + dirEntrySize ≤ l.size) :
    writeDOTEntries l address c d image =
      .ok () { image with
        bytes := overwrite (overwrite image.bytes address
          (directoryEntry (text ".          ") c).bytes) (address + dirEntrySize)
            (directoryEntry (text "..         ") d).bytes } := by
  rw [Nat.mul_one] at h'
  rw [writeDOTEntries, bind_of_ok (writeDirectoryEntry_returns ⟨rfl, by decide⟩ h)]
  exact writeDirectoryEntry_returns ⟨rfl, by decide⟩ h'

/-- A name that is not in a directory yet is created there, in the next cluster. -/
theorem createOrGetDirectory_returns (hl : l.Roomy blocks) (h : Progress l free listing image)
    (hd : 2 ≤ d.toNat) (hdc : d.toNat < c.toNat) (hc : c.toNat = free) (hc' : free ≤ 5)
    (hempty : listing c = []) (hname : IsShortName name) (hnew : ∀ e ∈ listing d, e.name ≠ name)
    (hplace : (listing d).length < 16) :
    ReturnsWith (createOrGetDirectory l name d image) fun result image' => result = c ∧
      Progress l (free + 1) (Function.update (Function.update listing d
        (listing d ++ [directoryEntry name c])) c [directoryEntry (text ".          ") c,
          directoryEntry (text "..         ") d]) image' := by
  have hsector := hl.spread.sector_bounds
  obtain ⟨k, hk, hpow⟩ := hl.spread.sector
  have hone : (requiredNewClusters l.bytesPerSector
      ((BitVec.ofNat 32 dirEntrySize).setWidth 64)).toNat = 1 :=
    toNat_requiredNewClusters_one hpow (by decide)
      (by rw [← hpow]; exact le_trans (by decide) hsector.1)
  have hcursor : image.currentFreeDataClusterIndex = c :=
    BitVec.eq_of_toNat_eq (h.free.trans hc.symm)
  have hdotShort : IsShortName (text ".          ") := ⟨rfl, by decide⟩
  have hdotdotShort : IsShortName (text "..         ") := ⟨rfl, by decide⟩
  have hne : c ≠ d := fun heq => by rw [heq] at hdc; omega
  rw [createOrGetDirectory, createOrGetDirectoryFrom_creates hname (h.short d)
    (h.lists d hd (by omega)) (by omega)
    (fun j hj => hl.entry_inside hd (by omega) hj) hnew, createDirectoryAt]
  -- the cluster, then the entry, then the two links
  refine (createContiguousSpaceForNewEntry_returns hl h hone (by omega)).bind ?_
  rintro _ image₁ ⟨rfl, h₁⟩
  rw [hcursor]
  have hentry : (directoryEntry name c).bytes.length = dirEntrySize := DirEntry.length_bytes hname
  have hdot : (directoryEntry (text ".          ") c).bytes.length = dirEntrySize :=
    DirEntry.length_bytes hdotShort
  have hdotdot : (directoryEntry (text "..         ") d).bytes.length = dirEntrySize :=
    DirEntry.length_bytes hdotdotShort
  have h₂ := h₁.append hl hd (by omega) (e := directoryEntry name c) hname (by omega)
  have h₃ := h₂.append hl (d := c) (by omega) (by omega)
    (e := directoryEntry (text ".          ") c) hdotShort (by
      rw [Function.update_of_ne hne, hempty, List.length_nil]
      omega)
  have h₄ := h₃.append hl (d := c) (by omega) (by omega)
    (e := directoryEntry (text "..         ") d) hdotdotShort (by
      rw [Function.update_self, Function.update_of_ne hne, hempty]
      change 1 < entriesInCluster l
      omega)
  have hinside := hl.entry_inside hd (by omega) (i := (listing d).length) (by omega)
  have hinside₀ := hl.entry_inside (d := c) (by omega) (by omega) (i := 0) (by omega)
  have hinside₁ := hl.entry_inside (d := c) (by omega) (by omega) (i := 1) (by omega)
  rw [Function.update_self, Function.update_of_ne hne, hempty, Function.update_idem] at h₄
  refine ⟨c, _, ?_, rfl, h₄⟩
  rw [Nat.mul_zero, Nat.add_zero] at hinside₀
  rw [bind_of_ok (writeDirectoryEntry_returns hname hinside),
    bind_of_ok (writeDOTEntries_returns hinside₀ hinside₁)]
  rfl

/-- A file is entered into a directory, with the next clusters. -/
theorem createFileEntryAfterWritingData_returns (hl : l.Roomy blocks)
    (h : Progress l free listing image) (hd : 2 ≤ d.toNat) (hd' : d.toNat ≤ 5)
    (hname : IsShortName name) (hplace : (listing d).length < 16) {contents : List U8} {n : Nat}
    (hn : (requiredNewClusters l.bytesPerSector
      ((BitVec.ofNat 32 contents.length).setWidth 64)).toNat = n)
    (hfits : free + n ≤ blocks + 8) :
    ReturnsWith (createFileEntryAfterWritingData l name d contents image) fun _ image' =>
      ∃ e, Progress l (free + n) (Function.update listing d (listing d ++ [e])) image' := by
  have hsector := hl.spread.sector_bounds
  have hlocation := @getNewFileEntryLocationFrom_returns l image _ _ _ (h.short d)
    (h.lists d hd hd') (by omega) fun j hj => hl.entry_inside hd hd' hj
  have hinside := hl.entry_inside hd hd' (i := (listing d).length) (by omega)
  have hentry := h.append hl hd hd' (e := ⟨name, fat32FileAttributes,
    image.currentFreeDataClusterIndex, BitVec.ofNat 32 contents.length⟩) hname (by omega)
  have hlength : (dirEntryShortName name fat32FileAttributes image.currentFreeDataClusterIndex
      (BitVec.ofNat 32 contents.length)).length = dirEntrySize :=
    DirEntry.length_bytes (e := ⟨name, fat32FileAttributes, image.currentFreeDataClusterIndex,
      BitVec.ofNat 32 contents.length⟩) hname
  obtain ⟨cluster, image₁, hrun, -, htaken⟩ :=
    createContiguousSpaceForNewEntry_returns hl hentry hn hfits
  refine ⟨⟨⟩, _, ?_, _, htaken.files (image₁.files ++ [⟨name, cluster, contents⟩])⟩
  rw [createFileEntryAfterWritingData, getNewFileEntryLocation, bind_of_ok hlocation,
    writeFileEntry, bind_of_ok (get_bind.trans (write_returns (hlength ▸ hinside)))]
  exact bind_of_ok hrun

/-- A file that fits is written behind the directories. -/
theorem createFAT32File_returns (hl : l.Roomy blocks) (h : Progress l free listing image)
    (hfree : 6 ≤ free) (hd : 2 ≤ d.toNat) (hd' : d.toNat ≤ 5) (hname : IsShortName name)
    (hplace : (listing d).length < 16) {contents : List U8} (hpos : 0 < contents.length)
    (hle : contents.length ≤ 512) (hfits : free + 1 ≤ blocks + 8) :
    ReturnsWith (createFAT32File l name d contents image) fun _ image' =>
      ∃ e, Progress l (free + 1) (Function.update listing d (listing d ++ [e])) image' := by
  have hsector := hl.spread.sector_bounds
  obtain ⟨k, hk, hpow⟩ := hl.spread.sector
  have hbytes : l.bytesPerSector.toNat = 2 ^ k := hpow
  have hn := toNat_requiredNewClusters_one hpow hpos (by omega)
  have hcursor := h.free
  have haddress : getDataCluster l image.currentFreeDataClusterIndex = l.dataAddress free := by
    rw [hl.address (by omega) (by omega), hcursor]
  have hbehind := l.dataAddress_mono (show 2 ≤ 6 by omega) hfree
  have hend := l.dataAddress_add_le (show 2 ≤ free by omega) hfits
  have hroom := hl.room
  rw [Nat.mul_one] at hend
  rw [createFAT32File, get_bind, haddress, bind_of_ok (write_returns (by omega))]
  exact createFileEntryAfterWritingData_returns hl (h.write_behind hl hbehind contents) hd hd'
    hname hplace hn hfits

/-- Reading fails, goes on without end, or fills the bytes asked for; what no write from the start
on changes is kept. -/
theorem readEFIApplication_cases {P : Image → Prop} {start : Nat}
    (hkeep : ∀ image address data, start ≤ address → P image →
      P { image with bytes := overwrite image.bytes address data })
    (reads : List (Option (List U8))) {buffer left : Nat} (h : P image) (hbuffer : start ≤ buffer)
    (hfits : buffer + left ≤ l.size) :
    (∃ image', readEFIApplication l reads buffer left image = .error .endlessRead image') ∨
      (∃ image', readEFIApplication l reads buffer left image = .ok none image') ∨
      ∃ application image', readEFIApplication l reads buffer left image =
        .ok (some application) image' ∧ application.length = left ∧ P image' := by
  induction reads generalizing buffer left image with
  | nil =>
    rw [readEFIApplication]
    split
    · rename_i hzero
      exact Or.inr (Or.inr ⟨[], image, rfl, hzero.symm, h⟩)
    · exact Or.inl ⟨image, rfl⟩
  | cons read reads ih =>
    unfold readEFIApplication
    split
    · rename_i hzero
      exact Or.inr (Or.inr ⟨[], image, rfl, hzero.symm, h⟩)
    · cases read with
      | none => exact Or.inr (Or.inl ⟨image, rfl⟩)
      | some data =>
        have hle : (data.take left).length ≤ left := List.length_take_le ..
        have hnext := ih (hkeep image buffer (data.take left) hbuffer h)
          (show start ≤ buffer + (data.take left).length by omega)
          (show buffer + (data.take left).length + (left - (data.take left).length) ≤ l.size by
            omega)
        simp only
        rw [bind_of_ok (write_returns (by omega))]
        rcases hnext with ⟨image', hrun⟩ | ⟨image', hrun⟩ | ⟨application, image', hrun, hlen, h'⟩
        · exact Or.inl ⟨image', bind_of_error hrun⟩
        · exact Or.inr (Or.inl ⟨image', bind_of_ok hrun⟩)
        · refine Or.inr (Or.inr ⟨data.take left ++ application, image', bind_of_ok hrun, ?_, h'⟩)
          rw [List.length_append, hlen]
          omega

/-- A single read of all bytes fills them. -/
theorem readEFIApplication_all (image : Image) (buffer left : Nat)
    (hfits : buffer + left ≤ l.size) :
    ReturnsWith (readEFIApplication l [some (zeros left)] buffer left image)
      fun application _ => application.isSome := by
  unfold readEFIApplication
  split
  · exact ⟨_, _, rfl, rfl⟩
  · simp only
    have htake : (zeros left).take left = zeros left := List.take_of_length_le (by simp)
    rw [htake, bind_of_ok (write_returns (by rw [length_zeros]; exact hfits)), length_zeros,
      Nat.sub_self]
    exact ⟨_, _, rfl, rfl⟩

/-! ## The partition -/

/-- The clusters of the directories are empty. -/
def EmptyClusters (l : Layout) (image : Image) : Prop :=
  ∀ a, l.dataClusters ≤ a → a < l.dataAddress 6 → image.bytes a = 0

/-- The first entries of the FAT are written, and no cluster is taken but that of the root. -/
theorem writeReservedEntries_returns (hl : l.Roomy blocks) (hempty : EmptyClusters l image) :
    ReturnsWith (writeReservedEntries l image) fun _ image' =>
      Progress l 3 (fun _ => []) image' := by
  have hdata := hl.spread.dataClusters
  have hlinks := hl.links
  have hroom := hl.room
  have hmono := l.dataAddress_mono (le_refl 2) (show 2 ≤ blocks + 8 by omega)
  have hbase : l.dataAddress 2 = l.dataClusters := Nat.add_zero _
  have hzero : (0 : U32).toNat = 0 := rfl
  have hone : (1 : U32).toNat = 1 := rfl
  have htwo : (2 : U32).toNat = 2 := rfl
  rw [writeReservedEntries, setPrimaryFAT, setPrimaryFAT, setPrimaryFAT, hzero, hone, htwo,
    bind_of_ok (write_returns (by rw [length_le32]; omega)),
    bind_of_ok (write_returns (by rw [length_le32]; omega)),
    bind_of_ok (write_returns (by rw [length_le32]; omega))]
  refine ⟨⟨⟩, _, rfl, rfl, fun d hd hd' i hi => ?_, fun d e he => absurd he List.not_mem_nil⟩
  have hentry := entry_le hi
  have hle := l.dataAddress_add_le hd (show d.toNat + 1 ≤ 6 by omega)
  have hcluster := dataClusters_le_getDataCluster (l := l) d
  have haddress := hl.address hd (show d.toNat ≤ blocks + 8 by omega)
  rw [Nat.mul_one, ← haddress] at hle
  refine bytesAt_zeros fun j hj => ?_
  change overwrite (overwrite (overwrite _ _ _) _ _) _ _ _ = _
  rw [overwrite_of_notMem (by rw [length_le32]; omega),
    overwrite_of_notMem (by rw [length_le32]; omega),
    overwrite_of_notMem (by rw [length_le32]; omega)]
  exact hempty _ (by omega) (by omega)

/-- A path of one name. -/
theorem createPath_singleton : createPath l [name] d = createOrGetDirectory l name d := by
  rw [createPath]
  exact bind_pure _

/-- The three directories are created in the first clusters. -/
theorem createPaths_returns (hl : l.Roomy blocks) (h : Progress l 3 (fun _ => []) image) :
    ReturnsWith (createPath l [text "EFI        "] rootClusterFATIndex image) fun efi image₁ =>
      ReturnsWith (createPath l [text "BOOT       "] efi image₁) fun boot image₂ =>
        ReturnsWith (createPath l [text "FLOS       "] efi image₂) fun flos image₃ =>
          boot = 4 ∧ flos = 5 ∧ ∃ listing, Progress l 6 listing image₃ ∧
            (listing 4).length = 2 ∧ (listing 5).length = 2 := by
  simp only [createPath_singleton]
  obtain ⟨_, image₁, hefi, rfl, h₁⟩ := createOrGetDirectory_returns hl h (d := 2) (c := 3)
    (by decide) (by decide) rfl (by decide) rfl
    (show IsShortName (text "EFI        ") from ⟨rfl, by decide⟩)
    (fun e he => absurd he List.not_mem_nil) (by decide)
  refine ⟨3, image₁, hefi, ?_⟩
  obtain ⟨_, image₂, hboot, rfl, h₂⟩ := createOrGetDirectory_returns hl h₁ (d := 3) (c := 4)
    (by decide) (by decide) rfl (by decide) rfl
    (show IsShortName (text "BOOT       ") from ⟨rfl, by decide⟩)
    (by
      rw [Function.update_self]
      simp only [List.mem_cons, List.not_mem_nil, or_false, forall_eq_or_imp, forall_eq]
      decide) (by
      rw [Function.update_self]
      exact show 2 < 16 by decide)
  refine ⟨4, image₂, hboot, ?_⟩
  obtain ⟨_, image₃, hflos, rfl, h₃⟩ := createOrGetDirectory_returns hl h₂ (d := 3) (c := 5)
    (by decide) (by decide) rfl (by decide) rfl
    (show IsShortName (text "FLOS       ") from ⟨rfl, by decide⟩)
    (by
      rw [Function.update_of_ne (by decide), Function.update_self, Function.update_self]
      simp only [List.cons_append, List.nil_append, List.mem_cons, List.not_mem_nil, or_false,
        forall_eq_or_imp, forall_eq]
      decide) (by
      rw [Function.update_of_ne (by decide), Function.update_self, Function.update_self]
      exact show 3 < 16 by decide)
  exact ⟨5, image₃, hflos, rfl, rfl, _, h₃, rfl, rfl⟩

/-- The copy of the first FAT lies within the image. -/
def MirrorInside (l : Layout) : Prop :=
  l.primaryFAT + 5 * l.FATSizeBytes.toNat ≤ l.size

/-- The second FAT is copied within the image, or the copy fails. -/
theorem writeMirrors_cases (l : Layout) (image : Image) :
    (MirrorInside l ∧ ∃ image', writeMirrors l (ParameterBlock.FATs.toNat - 1)
      (l.primaryFAT + 4 * l.FATSizeBytes.toNat) image = .ok () image') ∨
    (¬ MirrorInside l ∧ writeMirrors l (ParameterBlock.FATs.toNat - 1)
      (l.primaryFAT + 4 * l.FATSizeBytes.toNat) image = .error .segmentationFault image) := by
  rw [show ParameterBlock.FATs.toNat - 1 = 1 from rfl, writeMirrors, memcpy]
  by_cases h : MirrorInside l
  · refine Or.inl ⟨h, ?_⟩
    rw [MirrorInside] at h
    rw [if_pos ⟨by omega, by omega⟩]
    exact ⟨_, rfl⟩
  · refine Or.inr ⟨h, ?_⟩
    rw [MirrorInside] at h
    rw [if_neg fun hfits => h (by omega)]
    rfl

/-- The reserved sectors are written. -/
theorem writeReservedSectors_returns (hl : l.Roomy blocks) (c : Configuration) (image : Image) :
    ∃ image', writeReservedSectors c l image = .ok () image' := by
  have hsector := hl.spread.sector_bounds
  have hprimary := hl.spread.primaryFAT
  have hdata := hl.spread.dataClusters
  have hroom := hl.room
  have hmono := l.dataAddress_mono (le_refl 2) (show 2 ≤ blocks + 8 by omega)
  have hbase : l.dataAddress 2 = l.dataClusters := Nat.add_zero _
  rw [writeReservedSectors, get_bind,
    bind_of_ok (write_returns (by rw [length_biosParameterBlock]; omega)),
    bind_of_ok (write_returns (by rw [length_fileSystemInformation]; omega)),
    bind_of_ok (write_returns (by rw [length_biosParameterBlock]; omega))]
  exact ⟨_, write_returns (by rw [length_fileSystemInformation]; omega)⟩

/-- With room for the application, the writer of the EFI system partition fails to read it, or
gets as far as the copy of the first FAT, which alone may lie outside the image. -/
theorem writeEFISystemPartition_cases {c : Configuration} (hl : c.layout.Roomy blocks)
    (hempty : EmptyClusters c.layout image) {efiSizeBytes : U64} (kernelSizeBytes : U64)
    (hblocks : (requiredNewClusters c.layout.bytesPerSector
      ((BitVec.ofNat 32 efiSizeBytes.toNat).setWidth 64)).toNat = blocks)
    (happlication : c.layout.dataAddress 6 + efiSizeBytes.toNat ≤ c.layout.size)
    (reads : List (Option (List U8))) :
    (reads ≠ [some (zeros efiSizeBytes.toNat)] ∧ ∃ image',
      writeEFISystemPartition c reads efiSizeBytes kernelSizeBytes image =
          .error .endlessRead image' ∨
        writeEFISystemPartition c reads efiSizeBytes kernelSizeBytes image = .ok false image') ∨
    (MirrorInside c.layout ∧ ∃ image',
      writeEFISystemPartition c reads efiSizeBytes kernelSizeBytes image = .ok true image') ∨
    (¬ MirrorInside c.layout ∧ ∃ image',
      writeEFISystemPartition c reads efiSizeBytes kernelSizeBytes image =
        .error .segmentationFault image') := by
  obtain ⟨_, image₁, hreserved, h₁⟩ := writeReservedEntries_returns hl hempty
  obtain ⟨efi, image₂, hefi, boot, image₃, hboot, flos, image₄, hflos, rfl, rfl, listing, h₄,
    hlen, hlen'⟩ := createPaths_returns hl h₁
  have haddress : getDataCluster c.layout image₄.currentFreeDataClusterIndex =
      c.layout.dataAddress 6 := by
    rw [hl.address (by rw [h₄.free]; omega) (by rw [h₄.free]; omega), h₄.free]
  have hall := readEFIApplication_all image₄ _ _ happlication
  simp only [writeEFISystemPartition]
  rw [bind_of_ok hreserved, bind_of_ok hefi, bind_of_ok hboot, bind_of_ok hflos, get_bind, haddress]
  rcases readEFIApplication_cases (P := Progress c.layout 6 listing)
      (fun _ _ data haddress h => h.write_behind hl haddress data) reads h₄ le_rfl happlication with
    ⟨image', hread⟩ | ⟨image', hread⟩ | ⟨application, image₅, hread, hlength, h₅⟩
  · refine Or.inl ⟨?_, image', Or.inl (bind_of_error hread)⟩
    rintro rfl
    obtain ⟨_, _, hrun, -⟩ := hall
    rw [hread] at hrun
    cases hrun
  · refine Or.inl ⟨?_, image', Or.inr (bind_of_ok hread)⟩
    rintro rfl
    obtain ⟨_, _, hrun, hsome⟩ := hall
    rw [hread, EStateM.Result.ok.injEq] at hrun
    rw [← hrun.1] at hsome
    cases hsome
  · obtain ⟨hkernel, hkernelLe⟩ := length_kernelInf c kernelSizeBytes
    obtain ⟨hdisk, hdiskLe⟩ := length_diskDataInf c
    rw [← hlength] at hblocks
    obtain ⟨_, image₆, hfile, _, h₆⟩ := createFileEntryAfterWritingData_returns hl h₅ (d := 4)
      (by decide) (by decide) (show IsShortName (text "BOOTX64 EFI") from ⟨rfl, by decide⟩)
      (by omega) hblocks
      (by omega)
    obtain ⟨_, image₇, hinf, _, h₇⟩ := createFAT32File_returns hl h₆ (by omega) (d := 5)
      (by decide) (by decide) (show IsShortName (text "KERNEL  INF") from ⟨rfl, by decide⟩) (by
        rw [Function.update_of_ne (by decide)]
        omega) hkernel (by omega) (by omega)
    obtain ⟨_, image₈, hdata, _, -⟩ := createFAT32File_returns hl h₇ (by omega) (d := 5)
      (by decide) (by decide) (show IsShortName (text "DISKDATAINF") from ⟨rfl, by decide⟩) (by
        rw [Function.update_self, Function.update_of_ne (by decide), List.length_append,
          List.length_singleton]
        omega) hdisk (by omega) (by omega)
    rw [bind_of_ok hread]
    simp only
    rw [bind_of_ok hfile, bind_of_ok hinf, bind_of_ok hdata]
    rcases writeMirrors_cases c.layout image₈ with ⟨hinside, image₉, hmirrors⟩ |
      ⟨hinside, hmirrors⟩
    · obtain ⟨image', hreservedSectors⟩ := writeReservedSectors_returns hl c image₉
      exact Or.inr (Or.inl ⟨hinside, image', (bind_of_ok hmirrors).trans
        (bind_of_ok hreservedSectors)⟩)
    · exact Or.inr (Or.inr ⟨hinside, image₈, bind_of_error hmirrors⟩)

end Steps

end Homegrown.ImageBuilder
