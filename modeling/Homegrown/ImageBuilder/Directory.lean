import Homegrown.ImageBuilder.Stored

/-!
# Creating directories and files

`createOrGetDirectory` and `createFAT32File` scan a directory and add to the volume that the
image holds; `createPath` leads to the same directory again however much was created since.
-/

namespace Homegrown.ImageBuilder

/-! ## Scanning a directory -/

/-- What `createOrGetDirectory` does at the first free place. -/
def createDirectoryAt (l : Layout) (name : List U8) (parentCluster : U32) (entry : Nat) :
    Writer U32 := do
  let createdCluster ← createContiguousSpaceForNewEntry l (BitVec.ofNat 64 dirEntrySize)
  writeDirectoryEntry l entry createdCluster name
  writeDOTEntries l (getDataCluster l createdCluster) createdCluster parentCluster
  return createdCluster

section Scan

variable {l : Layout} {image image' : Image} {entry left : Nat} {rest : List DirEntry}
  {name : List U8} {parentCluster c : U32}

theorem slot_take (h : ∀ e ∈ rest, IsShortName e.name) (i : Nat) :
    (slot rest[i]?).take fat32ShortNameLen = (rest[i]?.map DirEntry.name).getD zeroName := by
  cases hi : rest[i]? with
  | none => rfl
  | some e => exact DirEntry.take_bytes (h e (List.mem_of_getElem? hi))

/-- The places behind the first one. -/
theorem slots_tail {e : DirEntry}
    (hslots : ∀ j < left + 1, bytesAt image.bytes (entry + dirEntrySize * j) dirEntrySize =
      slot (e :: rest)[j]?) :
    ∀ j < left, bytesAt image.bytes (entry + dirEntrySize + dirEntrySize * j) dirEntrySize =
      slot rest[j]? := by
  intro j hj
  have hnext := hslots (j + 1) (by omega)
  rwa [List.getElem?_cons_succ, Nat.mul_add, Nat.mul_one, Nat.add_comm (dirEntrySize * j),
    ← Nat.add_assoc] at hnext

/-- A scan finds the first entry with the name, or creates one behind the last entry. -/
theorem createOrGetDirectoryFrom_of_ok (hname : IsShortName name)
    (hshort : ∀ e ∈ rest, IsShortName e.name)
    (hslots : ∀ j < left, bytesAt image.bytes (entry + dirEntrySize * j) dirEntrySize =
      slot rest[j]?)
    (h : createOrGetDirectoryFrom l name parentCluster left entry image = .ok c image') :
    (∃ e, rest.find? (fun e => e.name = name) = some e ∧ e.cluster = c ∧ image' = image) ∨
      (rest.find? (fun e => e.name = name) = none ∧ rest.length < left ∧
        createDirectoryAt l name parentCluster (entry + dirEntrySize * rest.length) image =
          .ok c image') := by
  induction left generalizing entry rest with
  | zero => exact (throw_eq_ok.mp h).elim
  | succ left ih =>
    rw [createOrGetDirectoryFrom, bind_eq_ok] at h
    obtain ⟨found, _, hread, h⟩ := h
    obtain ⟨-, hfound, rfl⟩ := read_eq_ok.mp hread
    have hfirst := hslots 0 (by omega)
    rw [Nat.mul_zero, Nat.add_zero, hfound] at hfirst
    have htake := slot_take hshort 0
    rw [← hfirst] at htake
    rw [htake] at h
    cases rest with
    | nil =>
      have hno : zeroName ≠ name := hname.ne_zero.symm
      simp only [List.getElem?_nil, Option.map_none, Option.getD_none, hno, if_false, if_true] at h
      exact .inr ⟨rfl, Nat.succ_pos left, h⟩
    | cons e rest =>
      simp only [List.getElem?_cons_zero, Option.map_some, Option.getD_some] at h hfirst
      have he := hshort e (List.mem_cons_self ..)
      by_cases heq : e.name = name
      · rw [if_pos heq, pure_eq_ok] at h
        refine .inl ⟨e, by simp [heq], ?_, h.2.symm⟩
        rw [← h.1, hfirst]
        exact (DirEntry.clusterOfEntry_bytes he).symm
      · rw [if_neg heq, if_neg he.ne_zero] at h
        have hrest := ih (fun e he => hshort e (List.mem_cons_of_mem _ he)) (slots_tail hslots) h
        rw [List.find?_cons_of_neg (by simpa using heq)]
        rcases hrest with hfind | ⟨hnone, hlt, hcreate⟩
        · exact .inl hfind
        · refine .inr ⟨hnone, by simpa using hlt, ?_⟩
          rwa [List.length_cons, Nat.mul_add, Nat.mul_one, Nat.add_comm (dirEntrySize * _),
            ← Nat.add_assoc]

/-- A name that is listed is found without a change. -/
theorem createOrGetDirectoryFrom_of_find (hshort : ∀ e ∈ rest, IsShortName e.name)
    (hslots : ∀ j < left, bytesAt image.bytes (entry + dirEntrySize * j) dirEntrySize =
      slot rest[j]?)
    (hlength : rest.length ≤ left)
    (hinside : ∀ j < rest.length, entry + dirEntrySize * j + dirEntrySize ≤ l.size) {e : DirEntry}
    (hfind : rest.find? (fun e => e.name = name) = some e) :
    createOrGetDirectoryFrom l name parentCluster left entry image = .ok e.cluster image := by
  induction rest generalizing entry left with
  | nil => cases hfind
  | cons e' rest ih =>
    obtain ⟨left, rfl⟩ := Nat.exists_eq_succ_of_ne_zero (show left ≠ 0 by
      rw [List.length_cons] at hlength
      omega)
    have he := hshort e' (List.mem_cons_self ..)
    have hin := hinside 0 (Nat.succ_pos _)
    rw [Nat.mul_zero, Nat.add_zero] at hin
    have hfirst := hslots 0 (by omega)
    rw [Nat.mul_zero, Nat.add_zero] at hfirst
    have htake : e'.bytes.take fat32ShortNameLen = e'.name := DirEntry.take_bytes he
    rw [createOrGetDirectoryFrom, bind_of_ok (read_eq_ok.mpr ⟨hin, hfirst, rfl⟩)]
    change (if e'.bytes.take fat32ShortNameLen = name then pure (clusterOfEntry e'.bytes)
      else _ : Writer U32) image = _
    rw [htake]
    by_cases heq : e'.name = name
    · rw [List.find?_cons_of_pos (by simpa using heq)] at hfind
      obtain rfl := Option.some.inj hfind
      rw [if_pos heq, DirEntry.clusterOfEntry_bytes he]
      rfl
    · rw [List.find?_cons_of_neg (by simpa using heq)] at hfind
      rw [if_neg heq]
      change (if e'.bytes.take fat32ShortNameLen = zeroName then _ else _ : Writer U32) image = _
      rw [htake, if_neg he.ne_zero]
      refine ih (fun e he => hshort e (List.mem_cons_of_mem _ he)) (slots_tail hslots)
        (by simpa using hlength) (fun j hj => ?_) hfind
      have hnext := hinside (j + 1) (by simpa using hj)
      rw [Nat.mul_add, Nat.mul_one] at hnext
      omega

/-- The place for a new file is the one behind the last entry. -/
theorem getNewFileEntryLocationFrom_of_ok {location : Nat}
    (hshort : ∀ e ∈ rest, IsShortName e.name)
    (hslots : ∀ j < left, bytesAt image.bytes (entry + dirEntrySize * j) dirEntrySize =
      slot rest[j]?)
    (h : getNewFileEntryLocationFrom l left entry image = .ok location image') :
    location = entry + dirEntrySize * rest.length ∧ rest.length < left ∧ image' = image := by
  induction left generalizing entry rest with
  | zero => exact (throw_eq_ok.mp h).elim
  | succ left ih =>
    rw [getNewFileEntryLocationFrom, bind_eq_ok] at h
    obtain ⟨found, _, hread, h⟩ := h
    obtain ⟨-, hfound, rfl⟩ := read_eq_ok.mp hread
    have hfirst := hslots 0 (by omega)
    rw [Nat.mul_zero, Nat.add_zero] at hfirst
    have htake := slot_take hshort 0
    rw [← hfirst] at htake
    have htaken : (bytesAt image.bytes entry dirEntrySize).take fat32ShortNameLen =
        bytesAt image.bytes entry fat32ShortNameLen := by
      rw [bytesAt, bytesAt, ← List.map_take, List.take_range]
      rfl
    rw [← hfound, ← htaken, htake] at h
    cases rest with
    | nil =>
      simp only [List.getElem?_nil, Option.map_none, Option.getD_none, if_true, pure_eq_ok] at h
      exact ⟨h.1.symm, Nat.succ_pos left, h.2.symm⟩
    | cons e rest =>
      have he := hshort e (List.mem_cons_self ..)
      simp only [List.getElem?_cons_zero, Option.map_some, Option.getD_some, he.ne_zero,
        if_false] at h
      obtain ⟨hlocation, hlt, himage⟩ :=
        ih (fun e he => hshort e (List.mem_cons_of_mem _ he)) (slots_tail hslots) h
      refine ⟨?_, by simpa using hlt, himage⟩
      rw [hlocation, List.length_cons, Nat.mul_add, Nat.mul_one]
      omega

end Scan

/-! ## What is created -/

section Create

variable {l : Layout} {v : Volume} {image image' : Image} {d c : U32} {name : List U8}

/-- What lies in the first FAT and the clusters before the data clusters. -/
theorem Layout.Spread.fat_le (hl : l.Spread) {n : Nat} (hn : 4 * n ≤ l.FATSizeBytes.toNat) :
    l.primaryFAT + 4 * n ≤ l.dataClusters ∧ l.bytesPerSector.toNat ≤ l.dataClusters := by
  have hdata := hl.dataClusters
  have hprimary := hl.primaryFAT
  omega

/-- Some bytes written to the clusters that are free next leave room for the later ones. -/
theorem room_of_written (hl : l.Spread) {n m : Nat} {data : Nat}
    (hinside : l.dataAddress n + data ≤ l.size)
    (hm : l.bytesPerSector.toNat * m < data + l.bytesPerSector.toNat) (hn : 2 ≤ n) :
    l.bytesPerSector.toNat * (n + m - 2) < 2 ^ 32 := by
  have hsize := hl.size
  have hdata := hl.dataClusters
  have hprimary := hl.primaryFAT
  rw [Nat.sub_add_comm hn, Nat.mul_add]
  rw [Layout.dataAddress] at hinside
  omega

/-- What is written at a place of a directory, behind the FAT. -/
theorem Stores.nextPlace_bounds (hl : l.Spread) (h : Stores l v image) (hd : d ∈ v.directories)
    (hplace : (v.listing d).length < entriesInCluster l) :
    l.dataClusters ≤ nextPlace l v d ∧
      nextPlace l v d + dirEntrySize ≤ l.dataAddress (v.next l.bytesPerSector.toNat) := by
  have hsector := hl.sector_bounds.1
  obtain ⟨h2, hlt⟩ := h.grown.directory_lt (by omega) hd
  have hentry := entry_le hplace
  have hle := l.dataAddress_add_le (m := 1) h2 (show d.toNat + 1 ≤ v.next _ from hlt)
  have hdata : l.dataClusters ≤ l.dataAddress d.toNat := Nat.le_add_right _ _
  rw [nextPlace, h.address_directory hl hd]
  omega

/-- A directory entry is written within the image. -/
theorem entry_inside {address : Nat} {data : List U8} (hdata : data.length = dirEntrySize)
    (h : data = [] ∨ address + data.length ≤ l.size) : address + dirEntrySize ≤ l.size := by
  rcases h with rfl | h
  · cases hdata
  · rwa [hdata] at h

/-- The first two places of a new directory, and the zeros behind them. -/
theorem entryAt_links {bytes : Nat → U8} {first second : DirEntry}
    (hfirst : bytesAt bytes (getDataCluster l c) dirEntrySize = first.bytes)
    (hsecond : bytesAt bytes (getDataCluster l c + dirEntrySize) dirEntrySize = second.bytes)
    (hzero : ∀ a, getDataCluster l c + 2 * dirEntrySize ≤ a →
      a < getDataCluster l c + l.bytesPerSector.toNat → bytes a = 0) {i : Nat}
    (hi : i < entriesInCluster l) : entryAt l bytes c i = slot [first, second][i]? := by
  have hentry := entry_le hi
  match i with
  | 0 => exact hfirst
  | 1 => exact hsecond
  | i + 2 =>
    refine bytesAt_zeros fun j hj => hzero _ ?_ ?_
    · simp only [dirEntrySize] at *
      omega
    · simp only [dirEntrySize] at *
      omega

/-- The first free cluster, and where its data lies. -/
theorem Stores.firstFree (h : Stores l v image) :
    3 ≤ image.currentFreeDataClusterIndex.toNat ∧
      image.currentFreeDataClusterIndex.toNat < 2 ^ 30 ∧
      getDataCluster l image.currentFreeDataClusterIndex =
        l.dataAddress image.currentFreeDataClusterIndex.toNat := by
  have hfree := h.free
  have h3 : 3 ≤ image.currentFreeDataClusterIndex.toNat := by
    rw [hfree]
    exact Nat.le_add_right 3 _
  refine ⟨h3, ?_, h.address (by omega) hfree.le⟩
  have hFAT := l.FATSizeBytes.isLt
  have hfits := h.fits
  omega

/-- The bytes behind the writes of a new directory: its entry, and its first two places. -/
def withDirectory (l : Layout) (name : List U8) (d c : U32) (place : Nat) (bytes : Nat → U8) :
    Nat → U8 :=
  overwrite (overwrite (overwrite bytes place (directoryEntry name c).bytes) (getDataCluster l c)
    (directoryEntry (text ".          ") c).bytes) (getDataCluster l c + dirEntrySize)
    (directoryEntry (text "..         ") d).bytes

/-- The two places have a length like all others. -/
theorem length_links (c d : U32) :
    (directoryEntry (text ".          ") c).bytes.length = dirEntrySize ∧
      (directoryEntry (text "..         ") d).bytes.length = dirEntrySize :=
  have hdot : IsShortName (text ".          ") := ⟨rfl, by decide⟩
  have hdotdot : IsShortName (text "..         ") := ⟨rfl, by decide⟩
  ⟨DirEntry.length_bytes hdot, DirEntry.length_bytes hdotdot⟩

/-- A new directory takes a cluster, and then there are its three writes. -/
theorem createDirectoryAt_eq_ok (hname : IsShortName name) {place : Nat}
    (hrun : createDirectoryAt l name d place image = .ok c image') :
    ∃ image₁, createContiguousSpaceForNewEntry l ((BitVec.ofNat 32 dirEntrySize).setWidth 64)
        image = .ok c image₁ ∧
      place + dirEntrySize ≤ l.size ∧ getDataCluster l c + 2 * dirEntrySize ≤ l.size ∧
      { image₁ with bytes := withDirectory l name d c place image₁.bytes } = image' := by
  simp only [createDirectoryAt, writeDirectoryEntry, writeDOTEntries, bind_eq_ok, pure_eq_ok,
    write_eq_ok] at hrun
  obtain ⟨c, image₁, hcreate, _, _, ⟨hinside, rfl⟩, _, _, ⟨_, _, ⟨-, rfl⟩, hdots, rfl⟩, rfl,
    rfl⟩ := hrun
  have hdotsInside := entry_inside (length_links c d).2 hdots
  have hplaceInside := entry_inside (DirEntry.length_bytes (e := directoryEntry name c) hname)
    hinside
  exact ⟨image₁, hcreate, hplaceInside, by omega, rfl⟩

section WithDirectory

variable {place a : Nat} {bytes : Nat → U8}

/-- Other bytes stay as they are. -/
theorem withDirectory_of_notMem (hname : IsShortName name)
    (hplace : a < place ∨ place + dirEntrySize ≤ a)
    (hbase : a < getDataCluster l c ∨ getDataCluster l c + 2 * dirEntrySize ≤ a) :
    withDirectory l name d c place bytes a = bytes a := by
  have hlength : (directoryEntry name c).bytes.length = dirEntrySize := DirEntry.length_bytes hname
  obtain ⟨hdot, hdotdot⟩ := length_links c d
  rw [withDirectory, overwrite_of_notMem (by rw [hdotdot]; omega),
    overwrite_of_notMem (by rw [hdot]; omega), overwrite_of_notMem (by rw [hlength]; omega)]

/-- The entry is in its place. -/
theorem bytesAt_withDirectory (hname : IsShortName name)
    (hplace : place + dirEntrySize ≤ getDataCluster l c) :
    bytesAt (withDirectory l name d c place bytes) place dirEntrySize =
      (directoryEntry name c).bytes := by
  have hlength : (directoryEntry name c).bytes.length = dirEntrySize := DirEntry.length_bytes hname
  rw [withDirectory, bytesAt_overwrite_of_apart (by omega), bytesAt_overwrite_of_apart (by omega),
    bytesAt_overwrite_self hlength]

/-- The directory has two places, where the rest of its cluster was clear. -/
theorem entryAt_withDirectory (hname : IsShortName name)
    (hplace : place + dirEntrySize ≤ getDataCluster l c)
    (hzero : ∀ a, getDataCluster l c + 2 * dirEntrySize ≤ a →
      a < getDataCluster l c + l.bytesPerSector.toNat → bytes a = 0) {i : Nat}
    (hi : i < entriesInCluster l) : entryAt l (withDirectory l name d c place bytes) c i =
      slot [directoryEntry (text ".          ") c, directoryEntry (text "..         ") d][i]? := by
  obtain ⟨hdot, hdotdot⟩ := length_links c d
  refine entryAt_links ?_ (bytesAt_overwrite_self hdotdot) (fun a hge hlt => ?_) hi
  · exact (bytesAt_overwrite_of_apart (.inl le_rfl)).trans (bytesAt_overwrite_self hdot)
  · exact (withDirectory_of_notMem hname (.inr (by omega)) (.inr hge)).trans (hzero a hge hlt)

end WithDirectory

/-- A new directory is added to the volume. -/
theorem createDirectoryAt_adds (hl : l.Spread) (h : Stores l v image) (hd : d ∈ v.directories)
    (hname : IsShortName name) (hplace : (v.listing d).length < entriesInCluster l)
    (hrun : createDirectoryAt l name d (nextPlace l v d) image = .ok c image')
    (hfits : 4 * image'.currentFreeDataClusterIndex.toNat ≤ l.FATSizeBytes.toNat) :
    Adds l v ⟨d, name, none, c⟩ image image' := by
  have hsector := hl.sector_bounds
  obtain ⟨k, hk, hpow⟩ := hl.sector
  have hfree := h.free
  obtain ⟨h3, hlt30, haddress⟩ := h.firstFree
  have hone : (requiredNewClusters l.bytesPerSector
      ((BitVec.ofNat 32 dirEntrySize).setWidth 64)).toNat = 1 :=
    toNat_requiredNewClusters_one hpow (by decide)
      (by rw [← hpow]; exact le_trans (by decide) hsector.1)
  obtain ⟨image₁, hcreate, hplaceInside, hdotsInside, rfl⟩ := createDirectoryAt_eq_ok hname hrun
  obtain ⟨rfl, hcursor, hfiles, hframe, -, hlinked⟩ :=
    createContiguousSpaceForNewEntry_eq_ok hl hlt30 hcreate
  rw [hone] at hcursor hframe hlinked
  set c := image.currentFreeDataClusterIndex with hc
  obtain ⟨hplaceGe, hplaceLe⟩ := h.nextPlace_bounds hl hd hplace
  rw [← hfree, ← haddress] at hplaceLe
  have hnext : image₁.currentFreeDataClusterIndex.toNat =
      Volume.next l.bytesPerSector.toNat (v ++ [⟨d, name, none, c⟩]) := by
    rw [Volume.next_append, hcursor, hfree]
    rfl
  change 4 * image₁.currentFreeDataClusterIndex.toNat ≤ _ at hfits
  obtain ⟨hFAT, -⟩ := hl.fat_le hfits
  have hbase := l.dataAddress_add_le (show 2 ≤ c.toNat by omega) (le_refl (c.toNat + 1))
  rw [Nat.mul_one] at hbase
  have hdata : l.dataClusters ≤ l.dataAddress c.toNat := Nat.le_add_right _ _
  have hdirSize : dirEntrySize = 32 := rfl
  refine ⟨hfree, hnext, by rwa [← hnext], ?_, hplace, hplaceInside,
    bytesAt_withDirectory hname hplaceLe, fun a ha => ?_, fun j hj => ?_, ?_,
    fun _ => ⟨fun i hi => ?_, hdotsInside⟩, fun data hdata => by cases hdata⟩
  · rw [← hnext, hcursor]
    have hlt : l.bytesPerSector.toNat * 1 < 2 * dirEntrySize + l.bytesPerSector.toNat := by
      rw [Nat.mul_one]
      exact Nat.lt_add_of_pos_left (by decide)
    exact room_of_written hl (by omega) hlt (by omega)
  · have hone : Created.clusters l.bytesPerSector.toNat ⟨d, name, none, c⟩ = 1 := rfl
    rw [hone] at ha
    dsimp only at ha
    exact (withDirectory_of_notMem hname (by omega) (by omega)).trans (hframe a (by omega))
  · have hj0 : j < 1 := hj
    have htwo : (c + BitVec.ofNat 32 j).toNat = c.toNat + j := toNat_add_ofNat (by omega)
    refine Eq.trans ?_ (hlinked j hj)
    change fatEntry l (withDirectory _ _ _ _ _ _) (c + BitVec.ofNat 32 j) = _
    exact fatEntry_congr fun m hm =>
      withDirectory_of_notMem hname (.inl (by omega)) (.inl (by omega))
  · exact hfiles.trans (List.append_nil _).symm
  · refine entryAt_withDirectory hname hplaceLe (fun a hge hlt => ?_) hi
    refine (hframe a (by omega)).trans (h.zero a (by rw [← hfree]; omega) ?_)
    have hlast := l.dataAddress_mono (n := c.toNat + 1) (k := l.FATSizeBytes.toNat / 4)
      (by omega) (by omega)
    omega

/-- Directories lie before the first free cluster, so that contents there leave them alone. -/
theorem Stores.slots_overwrite (hl : l.Spread) (h : Stores l v image) (hd : d ∈ v.directories)
    (contents : List U8) {j : Nat} (hj : j < entriesInCluster l) :
    bytesAt (overwrite image.bytes (l.dataAddress image.currentFreeDataClusterIndex.toNat) contents)
      (getDataCluster l d + dirEntrySize * j) dirEntrySize = slot (v.listing d)[j]? := by
  rw [← h.entries d hd j hj]
  refine bytesAt_overwrite_of_apart (.inl ?_)
  have hsector := hl.sector_bounds
  have hfree := h.free
  have hentry := entry_le hj
  obtain ⟨h2, hlt⟩ := h.grown.directory_lt (by omega) hd
  have hle := l.dataAddress_add_le (m := 1) h2
    (show d.toNat + 1 ≤ image.currentFreeDataClusterIndex.toNat by omega)
  rw [h.address_directory hl hd]
  omega

/-- The bytes behind the writes of a new file: its contents, and its entry. -/
def withFile (l : Layout) (v : Volume) (x : Created) (contents : List U8) (bytes : Nat → U8) :
    Nat → U8 :=
  overwrite (overwrite bytes (l.dataAddress x.cluster.toNat) contents) (nextPlace l v x.parent)
    x.entry.bytes

/-- Other bytes stay as they are. -/
theorem withFile_of_notMem {x : Created} {contents : List U8} {bytes : Nat → U8} {a : Nat}
    (hname : IsShortName x.name)
    (hplace : a < nextPlace l v x.parent ∨ nextPlace l v x.parent + dirEntrySize ≤ a)
    (hbase : a < l.dataAddress x.cluster.toNat ∨
      l.dataAddress x.cluster.toNat + contents.length ≤ a) :
    withFile l v x contents bytes a = bytes a := by
  have hlength : x.entry.bytes.length = dirEntrySize :=
    DirEntry.length_bytes (by rwa [Created.entry_name])
  rw [withFile, overwrite_of_notMem (by rw [hlength]; exact hplace), overwrite_of_notMem hbase]

/-- The contents of a new file are written where the first free cluster is, its entry to the next
place of its directory, and then its clusters are linked. -/
theorem createFAT32File_eq_ok (hl : l.Spread) (h : Stores l v image) (hd : d ∈ v.directories)
    (hname : IsShortName name) {contents : List U8} (hwritten : contents ≠ []) {u : Unit}
    (hrun : createFAT32File l name d contents image = .ok u image') :
    let x : Created := ⟨d, name, some contents, image.currentFreeDataClusterIndex⟩
    l.dataAddress x.cluster.toNat + contents.length ≤ l.size ∧
      (v.listing d).length < entriesInCluster l ∧ nextPlace l v d + dirEntrySize ≤ l.size ∧
      ∃ image₁, createContiguousSpaceForNewEntry l ((BitVec.ofNat 32 contents.length).setWidth 64)
        { image with bytes := withFile l v x contents image.bytes } = .ok x.cluster image₁ ∧
      { image₁ with files := image₁.files ++ x.file.toList } = image' := by
  intro x
  obtain ⟨-, hlt30, haddress⟩ := h.firstFree
  simp only [createFAT32File, createFileEntryAfterWritingData, writeFileEntry, bind_eq_ok,
    get_eq_ok, modify_eq_ok, write_eq_ok] at hrun
  obtain ⟨_, _, ⟨rfl, rfl⟩, _, _, ⟨hdata, rfl⟩, location, image₁, hlocation, _, _,
    ⟨_, _, ⟨rfl, rfl⟩, hinside, rfl⟩, created, image₂, hcreate, rfl⟩ := hrun
  have hdata := hdata.resolve_left hwritten
  rw [haddress] at hdata hlocation
  obtain ⟨rfl, hplace, rfl⟩ := getNewFileEntryLocationFrom_of_ok
    (fun e he => h.grown.short_listing he) (fun j => h.slots_overwrite hl hd contents) hlocation
  obtain ⟨rfl, -⟩ := createContiguousSpaceForNewEntry_eq_ok hl (by exact hlt30) hcreate
  have hentryLength : x.entry.bytes.length = dirEntrySize := DirEntry.length_bytes hname
  exact ⟨hdata, hplace, entry_inside hentryLength hinside, image₂, hcreate, rfl⟩

/-- A new file is added to the volume. -/
theorem createFAT32File_adds (hl : l.Spread) (h : Stores l v image) (hd : d ∈ v.directories)
    (hname : IsShortName name) {contents : List U8} (hwritten : contents ≠ []) {u : Unit}
    (hrun : createFAT32File l name d contents image = .ok u image')
    (hfits : 4 * image'.currentFreeDataClusterIndex.toNat ≤ l.FATSizeBytes.toNat) :
    ∃ c, Adds l v ⟨d, name, some contents, c⟩ image image' := by
  have hsector := hl.sector_bounds
  obtain ⟨k, hk, hpow⟩ := hl.sector
  have hfree := h.free
  obtain ⟨h3, hlt30, haddress⟩ := h.firstFree
  obtain ⟨hdata, hplace, hplaceInside, image₁, hcreate, rfl⟩ :=
    createFAT32File_eq_ok hl h hd hname hwritten hrun
  obtain ⟨-, hcursor, hfiles, hframe, -, hlinked⟩ :=
    createContiguousSpaceForNewEntry_eq_ok hl (by exact hlt30) hcreate
  set c := image.currentFreeDataClusterIndex with hc
  have hsize : (BitVec.ofNat 32 contents.length).toNat = contents.length :=
    Nat.mod_eq_of_lt (by have hl := hl.size; omega)
  have hclusters : (requiredNewClusters l.bytesPerSector
      ((BitVec.ofNat 32 contents.length).setWidth 64)).toNat =
      Created.clusters l.bytesPerSector.toNat ⟨d, name, some contents, c⟩ := by
    rw [toNat_requiredNewClusters hpow, hsize, ← hpow]
    rfl
  rw [hclusters] at hcursor hframe hlinked
  dsimp only at hcursor hframe hlinked hdata
  set x : Created := ⟨d, name, some contents, c⟩ with hx
  have hentryLength : x.entry.bytes.length = dirEntrySize := DirEntry.length_bytes hname
  have hFATle : l.dataClusters ≤ l.dataAddress c.toNat := Nat.le_add_right _ _
  obtain ⟨hplaceGe, hplaceLe⟩ := h.nextPlace_bounds hl hd hplace
  rw [← hfree] at hplaceLe
  have hnext : image₁.currentFreeDataClusterIndex.toNat =
      Volume.next l.bytesPerSector.toNat (v ++ [x]) := by
    rw [Volume.next_append, hcursor, ← hfree]
  change 4 * image₁.currentFreeDataClusterIndex.toNat ≤ _ at hfits
  obtain ⟨hFAT, -⟩ := hl.fat_le hfits
  have hlength : contents.length ≤ l.bytesPerSector.toNat * x.clusters l.bytesPerSector.toNat :=
    length_le_clusters (by omega) rfl
  have hbase := l.dataAddress_add_le (show 2 ≤ c.toNat by omega)
    (le_refl (c.toNat + x.clusters l.bytesPerSector.toNat))
  -- The linking leaves both writes alone.
  have hbytes (a : Nat) (ha : l.dataClusters ≤ a) :
      image₁.bytes a = withFile l v x contents image.bytes a := hframe a (.inr (by omega))
  refine ⟨c, hfree, hnext, by rwa [← hnext], ?_, hplace, hplaceInside, ?_, fun a ha => ?_,
    hlinked, ?_, fun hno => (Option.some_ne_none _ hno).elim, fun data hsome => ?_⟩
  · rw [← hnext, hcursor]
    refine room_of_written hl hdata ?_ (by omega)
    have hmod := Nat.div_mul_le_self (contents.length + (l.bytesPerSector.toNat - 1))
      l.bytesPerSector.toNat
    rw [Nat.mul_comm] at hmod
    change l.bytesPerSector.toNat * ((contents.length + (l.bytesPerSector.toNat - 1)) /
      l.bytesPerSector.toNat) < _
    omega
  · exact (bytesAt_congr fun i _ => hbytes _ (hplaceGe.trans (Nat.le_add_right _ i))).trans
      (bytesAt_overwrite_self hentryLength)
  · have hdirSize : dirEntrySize = 32 := rfl
    change (l.primaryFAT ≤ a ∧ a < l.primaryFAT + 4 * c.toNat) ∨
      (l.dataClusters ≤ a ∧ a < l.dataAddress c.toNat ∧
        (a < nextPlace l v d ∨ nextPlace l v d + dirEntrySize ≤ a)) ∨
      l.dataAddress (c.toNat + x.clusters l.bytesPerSector.toNat) ≤ a at ha
    exact (hframe a (by omega)).trans (withFile_of_notMem hname (by dsimp only [x]; omega)
      (by dsimp only [x]; omega))
  · rw [hfiles]
  · obtain rfl := Option.some.inj hsome
    refine ⟨by have hl := hl.size; omega, ?_⟩
    rw [haddress]
    refine (bytesAt_congr fun i _ => hbytes _ (by omega)).trans ?_
    rw [withFile, bytesAt_overwrite_of_apart (.inr (by rw [hentryLength]; exact hplaceLe)),
      bytesAt_overwrite_self rfl]

end Create

/-! ## Paths -/

/-- No entry of a directory is a file with the name. -/
def NoFileNamed (l : Layout) (bytes : Nat → U8) (d : U32) (name : List U8) : Prop :=
  ∀ i < entriesInCluster l, (entryAt l bytes d i).take fat32ShortNameLen = name →
    (entryAt l bytes d i).getD 11 0 = fat32DirectoryAttributes

instance (l : Layout) (bytes : Nat → U8) (d : U32) (name : List U8) :
    Decidable (NoFileNamed l bytes d name) :=
  inferInstanceAs (Decidable (∀ i < entriesInCluster l, _))

/-- No name of a path is that of a file where `createPath` looks for it. -/
def NoFileOnPath (l : Layout) : List (List U8) → U32 → Image → Prop
  | [], _, _ => True
  | name :: names, d, image => NoFileNamed l image.bytes d name ∧
      ∀ c image', createOrGetDirectory l name d image = .ok c image' →
        NoFileOnPath l names c image'

section Paths

variable {l : Layout} {v : Volume} {image image' : Image} {d c : U32} {name : List U8}
  {names : List (List U8)}

/-- The first free cluster is a later one, and its entry lies within the image. -/
def FreeFrom (n : Nat) (image : Image) : Prop :=
  n ≤ image.currentFreeDataClusterIndex.toNat ∧ image.currentFreeDataClusterIndex.toNat < 2 ^ 30

theorem keeps_freeFrom (hl : l.Spread) (n : Nat) : l.Keeps (FreeFrom n) where
  data _ := by
    intro image _ image' h hrun
    obtain ⟨-, rfl⟩ := write_eq_ok.mp hrun
    exact h
  taken size := by
    intro image result image' h hrun
    obtain ⟨rfl, hcursor, -, -, hlt, -⟩ := createContiguousSpaceForNewEntry_eq_ok hl h.2 hrun
    exact ⟨h.1.trans (hcursor.ge.trans' (Nat.le_add_right _ _)), hlt⟩
  files _ h := h

/-- What a directory lists is in the image. -/
theorem Stores.entryAt_of_getElem? (h : Stores l v image) (hd : d ∈ v.directories) {i : Nat}
    {e : DirEntry} (he : (v.listing d)[i]? = some e) :
    i < entriesInCluster l ∧ entryAt l image.bytes d i = e.bytes := by
  have hi := (List.getElem?_eq_some_iff.mp he).1.trans_le (h.listed d hd)
  exact ⟨hi, by rw [h.entries d hd i hi, he]; rfl⟩

theorem Stores.attributes_of_noFileNamed (h : Stores l v image) (hd : d ∈ v.directories)
    (hno : NoFileNamed l image.bytes d name) {e : DirEntry} (he : e ∈ v.listing d)
    (hname : e.name = name) : e.attributes = fat32DirectoryAttributes := by
  obtain ⟨i, hi⟩ := List.getElem?_of_mem he
  obtain ⟨hlt, hentry⟩ := h.entryAt_of_getElem? hd hi
  have hshort := h.grown.short_listing he
  have hattributes := hno i hlt
  rw [hentry, DirEntry.take_bytes hshort, DirEntry.attributes_bytes hshort] at hattributes
  exact hattributes hname

/-- `createOrGetDirectory` leads to a directory of that name, an old or a new one. -/
theorem createOrGetDirectory_stores (hl : l.Spread) (h : Stores l v image)
    (hd : d ∈ v.directories) (hname : IsShortName name)
    (hno : NoFileNamed l image.bytes d name)
    (hrun : createOrGetDirectory l name d image = .ok c image')
    (hfits : 4 * image'.currentFreeDataClusterIndex.toNat ≤ l.FATSizeBytes.toNat) :
    ∃ w : Volume, v <+: w ∧ Stores l w image' ∧ w.resolve [name] d = some c := by
  rcases createOrGetDirectoryFrom_of_ok hname (fun e he => h.grown.short_listing he)
    (h.entries d hd) hrun with ⟨e, hfind, rfl, rfl⟩ | ⟨hnone, hplace, hcreate⟩
  · refine ⟨v, List.prefix_rfl, h, ?_⟩
    have hfound := List.find?_some hfind
    have hattributes := h.attributes_of_noFileNamed hd hno (List.mem_of_find?_eq_some hfind)
      (of_decide_eq_true hfound)
    simp [Volume.resolve, hfind, hattributes]
  · have hadds := createDirectoryAt_adds hl h hd hname hplace hcreate hfits
    have hnew : ∀ e ∈ v.listing d, e.name ≠ name := by simpa using hnone
    refine ⟨_, List.prefix_append v [⟨d, name, none, c⟩],
      h.add hl hd hname hnew (by simp) hadds, ?_⟩
    have hentry : Created.entry ⟨d, name, none, c⟩ = directoryEntry name c := rfl
    rw [Volume.resolve, Volume.listing_append hd, List.find?_append, hnone, if_pos rfl, hentry]
    simp [directoryEntry, Volume.resolve]

/-- A directory that a path leads to is found without a change. -/
theorem createOrGetDirectory_of_resolve (h : Stores l v image) (hd : d ∈ v.directories)
    (hr : v.resolve (name :: names) d = some c) :
    ∃ e ∈ v.directories, createOrGetDirectory l name d image = .ok e image ∧
      v.resolve names e = some c := by
  rw [Volume.resolve] at hr
  cases hfind : (v.listing d).find? fun e => e.name = name with
  | none => simp [hfind] at hr
  | some e =>
    simp only [hfind] at hr
    split at hr
    · rename_i hattributes
      exact ⟨e.cluster,
        h.grown.mem_directories_of_entry hd (List.mem_of_find?_eq_some hfind) hattributes,
        createOrGetDirectoryFrom_of_find (fun e he => h.grown.short_listing he) (h.entries d hd)
          (h.listed d hd) (h.inside d hd) hfind, hr⟩
    · cases hr

/-- `createPath` leads to the directory of a path, with the directories it lacked. -/
theorem createPath_stores (hl : l.Spread) (h : Stores l v image) (hd : d ∈ v.directories)
    (hnames : ∀ name ∈ names, IsShortName name) (hno : NoFileOnPath l names d image)
    (hrun : createPath l names d image = .ok c image')
    (hfits : 4 * image'.currentFreeDataClusterIndex.toNat ≤ l.FATSizeBytes.toNat) :
    ∃ w : Volume, v <+: w ∧ Stores l w image' ∧ w.resolve names d = some c := by
  induction names generalizing v d image with
  | nil =>
    obtain ⟨rfl, rfl⟩ := pure_eq_ok.mp hrun
    exact ⟨v, List.prefix_rfl, h, rfl⟩
  | cons name names ih =>
    obtain ⟨hnoFirst, hnoRest⟩ := hno
    rw [createPath, bind_eq_ok] at hrun
    obtain ⟨first, image₁, hfirst, hrest⟩ := hrun
    have hlt30 : image.currentFreeDataClusterIndex.toNat < 2 ^ 30 := by
      have hFAT := l.FATSizeBytes.isLt
      have hfree := h.free
      have hfits := h.fits
      omega
    have hbetween := ((keeps_freeFrom hl _).createOrGetDirectoryFrom name d _
      (dataClusters_le_getDataCluster d) _ _ _ ⟨le_rfl, hlt30⟩ hfirst).2
    have hlater := ((keeps_freeFrom hl _).createPath names first _ _ _ ⟨le_rfl, hbetween⟩ hrest).1
    obtain ⟨v₁, hv₁, h₁, hr₁⟩ := createOrGetDirectory_stores hl h hd
      (hnames name (List.mem_cons_self ..)) hnoFirst hfirst (by omega)
    have hd₁ := Volume.directories_mono hv₁ hd
    have hc₁ := h₁.grown.resolve_mem hd₁ hr₁
    obtain ⟨w, hw, h₂, hr₂⟩ := ih h₁ hc₁ (fun name hn => hnames name (List.mem_cons_of_mem _ hn))
      (hnoRest first image₁ hfirst) hrest
    refine ⟨w, hv₁.trans hw, h₂, ?_⟩
    rw [Volume.resolve_cons (h₂.grown.resolve_prefix hw hd₁ hr₁)]
    exact hr₂

/-- The directory of a path is found again without a change. -/
theorem createPath_of_resolve (h : Stores l v image) (hd : d ∈ v.directories)
    (hr : v.resolve names d = some c) : createPath l names d image = .ok c image := by
  induction names generalizing d with
  | nil =>
    obtain rfl := Option.some.inj hr
    rfl
  | cons name names ih =>
    obtain ⟨e, he, hfirst, hrest⟩ := createOrGetDirectory_of_resolve h hd hr
    rw [createPath, bind_of_ok hfirst]
    exact ih he hrest

/-- `createFAT32File` adds the file. -/
theorem createFAT32File_stores (hl : l.Spread) (h : Stores l v image) (hd : d ∈ v.directories)
    (hname : IsShortName name) (hnew : ∀ e ∈ v.listing d, e.name ≠ name) {contents : List U8}
    (hwritten : contents ≠ []) {u : Unit}
    (hrun : createFAT32File l name d contents image = .ok u image')
    (hfits : 4 * image'.currentFreeDataClusterIndex.toNat ≤ l.FATSizeBytes.toNat) :
    ∃ w : Volume, v <+: w ∧ Stores l w image' := by
  obtain ⟨c, hadds⟩ := createFAT32File_adds hl h hd hname hwritten hrun hfits
  exact ⟨_, List.prefix_append v _, h.add hl hd hname hnew (by simpa using hwritten) hadds⟩

end Paths

end Homegrown.ImageBuilder
