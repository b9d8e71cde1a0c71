import Homegrown.ImageBuilder.Mirror
import Homegrown.ImageBuilder.Volume

/-!
# The file system in the image

How a volume lies in the bytes of an image: each directory in its cluster, one entry after the
other and zeros behind them, the chains in the first FAT, the contents of files in the clusters
of their chains, and zeros in all clusters that are free. Creating a directory or a file adds
it to the volume.
-/

namespace Homegrown.ImageBuilder

/-! ## Bytes -/

section Bytes

variable {bytes bytes' : Nat → U8} {address start n : Nat} {data : List U8}

theorem bytesAt_congr (h : ∀ i < n, bytes' (address + i) = bytes (address + i)) :
    bytesAt bytes' address n = bytesAt bytes address n := by
  rw [bytesAt, bytesAt, List.map_inj_left]
  exact fun i hi => h i (List.mem_range.mp hi)

/-- Bytes beside what is written stay. -/
theorem bytesAt_overwrite_of_apart (h : address + n ≤ start ∨ start + data.length ≤ address) :
    bytesAt (overwrite bytes start data) address n = bytesAt bytes address n :=
  bytesAt_congr fun i hi => overwrite_of_notMem (by omega)

/-- What is written is read. -/
theorem bytesAt_overwrite_self (h : data.length = n) :
    bytesAt (overwrite bytes address data) address n = data := by
  apply List.ext_getElem
  · simp [bytesAt, h]
  · intro i hi hi'
    simp [bytesAt, overwrite, hi']

/-- Where some bytes are, each piece of them is too. -/
theorem bytesAt_piece {k m : Nat} (h : bytesAt bytes address data.length = data) :
    bytesAt bytes (address + k) ((data.drop k).take m).length = (data.drop k).take m := by
  apply List.ext_getElem
  · simp [bytesAt]
  · intro i hi hi'
    have hk : k + i < data.length := by
      simp only [List.length_take, List.length_drop] at hi'
      omega
    have hbyte : (bytesAt bytes address data.length)[k + i]? = data[k + i]? := by rw [h]
    rw [bytesAt, List.getElem?_map, List.getElem?_range hk, List.getElem?_eq_getElem hk,
      Option.map_some, Option.some.injEq] at hbyte
    simp only [bytesAt, List.getElem_map, List.getElem_range, List.getElem_take,
      List.getElem_drop]
    rw [← hbyte, Nat.add_assoc]

theorem bytesAt_zeros (h : ∀ i < n, bytes (address + i) = 0) :
    bytesAt bytes address n = zeros n := by
  rw [bytesAt, zeros, List.eq_replicate_iff]
  refine ⟨by simp, fun x hx => ?_⟩
  obtain ⟨i, hi, rfl⟩ := List.mem_map.mp hx
  exact h i (List.mem_range.mp hi)

/-- Four bytes join to the number they were taken from. -/
theorem join_le32 (v : U32) :
    (v >>> 24).setWidth 8 ++ (v >>> 16).setWidth 8 ++ (v >>> 8).setWidth 8 ++ v.setWidth 8 = v := by
  grind

/-- The four bytes of the halves of a number join to the number. -/
theorem join_halves (v : U32) :
    ((v >>> 16).setWidth 16 >>> 8).setWidth 8 ++ ((v >>> 16).setWidth 16).setWidth 8 ++
      (v.setWidth 16 >>> 8).setWidth 8 ++ (v.setWidth 16).setWidth 8 = v := by
  have h3 : ((v >>> 16).setWidth 16 >>> 8).setWidth 8 = (v >>> 24).setWidth 8 := by grind
  have h2 : ((v >>> 16).setWidth 16).setWidth 8 = (v >>> 16).setWidth 8 := by grind
  have h1 : (v.setWidth 16 >>> 8).setWidth 8 = (v >>> 8).setWidth 8 := by grind
  have h0 : (v.setWidth 16).setWidth 8 = v.setWidth 8 := by grind
  rw [h3, h2, h1, h0]
  exact join_le32 v

/-- An entry of the FAT is the number that was written to it. -/
theorem fatEntry_of_bytesAt {l : Layout} {i v : U32}
    (h : bytesAt bytes (l.primaryFAT + 4 * i.toNat) 4 = le32 v) : fatEntry l bytes i = v := by
  simp only [bytesAt, le32, show List.range 4 = [0, 1, 2, 3] from rfl, List.map_cons, List.map_nil,
    List.cons.injEq, and_true, Nat.add_zero] at h
  obtain ⟨h0, h1, h2, h3⟩ := h
  simp only [fatEntry, h0, h1, h2, h3]
  exact join_le32 v

theorem fatEntry_congr {l : Layout} {i : U32}
    (h : ∀ j < 4,
      bytes' (l.primaryFAT + 4 * i.toNat + j) = bytes (l.primaryFAT + 4 * i.toNat + j)) :
    fatEntry l bytes' i = fatEntry l bytes i := by
  have h0 := h 0 (by norm_num)
  rw [Nat.add_zero] at h0
  simp only [fatEntry, h0, h 1 (by norm_num), h 2 (by norm_num), h 3 (by norm_num)]

end Bytes

/-! ## Directory entries -/

section Entries

variable {e : DirEntry}

theorem DirEntry.length_bytes (h : IsShortName e.name) : e.bytes.length = dirEntrySize := by
  simp [DirEntry.bytes, dirEntryShortName, h.length, fat32ShortNameLen, dirEntrySize]

theorem DirEntry.take_bytes (h : IsShortName e.name) :
    e.bytes.take fat32ShortNameLen = e.name := by
  simp only [DirEntry.bytes, dirEntryShortName, List.append_assoc, ← h.length, List.take_left]

/-- The bytes behind the name. -/
theorem DirEntry.getD_bytes (h : IsShortName e.name) (i : Nat) :
    e.bytes.getD (11 + i) 0 = ([e.attributes] ++ zeros 8 ++
      le16 ((e.cluster >>> 16).setWidth 16) ++ zeros 4 ++ le16 (e.cluster.setWidth 16) ++
        le32 e.fileSize).getD i 0 := by
  have hlen : e.name.length = 11 := h.length
  simp only [DirEntry.bytes, dirEntryShortName, List.append_assoc]
  rw [List.getD_append_right _ _ _ _ (by omega), hlen, Nat.add_sub_cancel_left]

theorem DirEntry.attributes_bytes (h : IsShortName e.name) :
    e.bytes.getD 11 0 = e.attributes :=
  DirEntry.getD_bytes h 0

/-- The two halves of the cluster number are joined again. -/
theorem DirEntry.clusterOfEntry_bytes (h : IsShortName e.name) :
    clusterOfEntry e.bytes = e.cluster := by
  have h9 := DirEntry.getD_bytes h 9
  have h10 := DirEntry.getD_bytes h 10
  have h15 := DirEntry.getD_bytes h 15
  have h16 := DirEntry.getD_bytes h 16
  rw [clusterOfEntry, h9, h10, h15, h16]
  exact join_halves e.cluster

/-- The size in a directory entry. -/
def sizeOfEntry (entry : List U8) : U32 :=
  entry.getD 31 0 ++ entry.getD 30 0 ++ entry.getD 29 0 ++ entry.getD 28 0

theorem DirEntry.sizeOfEntry_bytes (h : IsShortName e.name) :
    sizeOfEntry e.bytes = e.fileSize := by
  have h17 := DirEntry.getD_bytes h 17
  have h18 := DirEntry.getD_bytes h 18
  have h19 := DirEntry.getD_bytes h 19
  have h20 := DirEntry.getD_bytes h 20
  rw [sizeOfEntry, h17, h18, h19, h20]
  exact join_le32 e.fileSize

/-- What a place in a directory holds: an entry, or zeros. -/
def slot : Option DirEntry → List U8
  | some e => e.bytes
  | none => zeros dirEntrySize

end Entries

/-! ## Chains -/

/-- The FAT entries of consecutive clusters form a chain. -/
def Linked (l : Layout) (bytes : Nat → U8) (first : U32) (n : Nat) : Prop :=
  ∀ j < n, fatEntry l bytes (first + BitVec.ofNat 32 j) =
    if j + 1 = n then endOfChainMarker else first + BitVec.ofNat 32 (j + 1)

theorem Layout.Spread.sector_bounds {l : Layout} (hl : l.Spread) :
    512 ≤ l.bytesPerSector.toNat ∧ 16 ≤ entriesInCluster l := by
  obtain ⟨k, hk, hpow⟩ := hl.sector
  have hle : 2 ^ 9 ≤ 2 ^ k := Nat.pow_le_pow_right (by norm_num) hk
  rw [IsTwoPow] at hpow
  refine ⟨by omega, ?_⟩
  rw [entriesInCluster, Nat.le_div_iff_mul_le (by decide)]
  change 16 * 32 ≤ _
  omega

section Chains

variable {l : Layout} {image image' : Image}

theorem add_ofNat_succ (i : U32) (j : Nat) :
    i + 1 + BitVec.ofNat 32 j = i + BitVec.ofNat 32 (j + 1) := by
  rw [BitVec.add_assoc, Nat.add_comm j 1, BitVec.ofNat_add]
  rfl

theorem toNat_add_ofNat {i : U32} {j : Nat} (h : i.toNat + j < 2 ^ 32) :
    (i + BitVec.ofNat 32 j).toNat = i.toNat + j := by
  rw [BitVec.toNat_add, BitVec.toNat_ofNat, Nat.mod_eq_of_lt (a := j) (by omega),
    Nat.mod_eq_of_lt h]

/-- Linking writes the entries of the clusters and nothing else. -/
theorem linkClusters_eq_ok {last i : U32} {left : Nat} {u : Unit}
    (hfits : i.toNat + left < 2 ^ 32) (h : linkClusters l last left i image = .ok u image') :
    image'.currentFreeDataClusterIndex = image.currentFreeDataClusterIndex ∧
      image'.files = image.files ∧
      (∀ a, a < l.primaryFAT + 4 * i.toNat ∨ l.primaryFAT + 4 * (i.toNat + left) ≤ a →
        image'.bytes a = image.bytes a) ∧
      (0 < left → l.primaryFAT + 4 * (i.toNat + left) ≤ l.size) ∧
      ∀ j < left, fatEntry l image'.bytes (i + BitVec.ofNat 32 j) =
        if i + BitVec.ofNat 32 j = last then endOfChainMarker else i + BitVec.ofNat 32 (j + 1) := by
  induction left generalizing i image with
  | zero =>
    obtain ⟨-, rfl⟩ := pure_eq_ok.mp h
    exact ⟨rfl, rfl, fun _ _ => rfl, fun h0 => absurd h0 (lt_irrefl 0),
      fun j hj => absurd hj (Nat.not_lt_zero j)⟩
  | succ left ih =>
    rw [linkClusters, bind_eq_ok] at h
    obtain ⟨_, image₁, hset, hrest⟩ := h
    rw [setPrimaryFAT, write_eq_ok] at hset
    obtain ⟨hinside, rfl⟩ := hset
    have hnext : (i + 1).toNat = i.toNat + 1 := toNat_add_ofNat (j := 1) (by omega)
    obtain ⟨hfree, hfiles, hframe, hbound, hlinked⟩ := ih (by omega) hrest
    have hle := hinside.resolve_left (by simp [le32])
    rw [length_le32] at hle
    refine ⟨hfree, hfiles, fun a ha => ?_, fun _ => by omega, fun j hj => ?_⟩
    · rw [hframe a (by omega)]
      exact overwrite_of_notMem (by rw [length_le32]; omega)
    · cases j with
      | zero =>
        have hzero : i + BitVec.ofNat 32 0 = i := BitVec.add_zero i
        rw [hzero]
        have hfirst : fatEntry l image'.bytes i = fatEntry l (overwrite image.bytes
            (l.primaryFAT + 4 * i.toNat)
            (le32 (if i = last then endOfChainMarker else i + 1))) i :=
          fatEntry_congr fun j hj => hframe _ (by omega)
        exact hfirst.trans (fatEntry_of_bytesAt (bytesAt_overwrite_self (length_le32 _)))
      | succ j =>
        have hj' := hlinked j (by omega)
        rwa [add_ofNat_succ, add_ofNat_succ] at hj'

/-- The clusters for new bytes are the next ones, and linked. -/
theorem createContiguousSpaceForNewEntry_eq_ok (hl : l.Spread) {size result : U32}
    (hfree : image.currentFreeDataClusterIndex.toNat < 2 ^ 30)
    (h : createContiguousSpaceForNewEntry l (size.setWidth 64) image = .ok result image') :
    let n := (requiredNewClusters l.bytesPerSector (size.setWidth 64)).toNat
    result = image.currentFreeDataClusterIndex ∧
      image'.currentFreeDataClusterIndex.toNat = result.toNat + n ∧
      image'.files = image.files ∧
      (∀ a, a < l.primaryFAT + 4 * result.toNat ∨ l.primaryFAT + 4 * (result.toNat + n) ≤ a →
        image'.bytes a = image.bytes a) ∧
      image'.currentFreeDataClusterIndex.toNat < 2 ^ 30 ∧
      Linked l image'.bytes result n := by
  intro n
  have hn : n ≤ 2 ^ 24 := hl.required_le size
  simp only [createContiguousSpaceForNewEntry, bind_eq_ok, get_eq_ok, modify_eq_ok,
    pure_eq_ok] at h
  obtain ⟨_, _, ⟨rfl, rfl⟩, _, image₁, hlink, _, _, rfl, rfl, rfl⟩ := h
  have hnext : (image.currentFreeDataClusterIndex +
      requiredNewClusters l.bytesPerSector (size.setWidth 64)).toNat =
      image.currentFreeDataClusterIndex.toNat + n := by
    rw [BitVec.toNat_add]
    exact Nat.mod_eq_of_lt (by omega)
  rw [hnext, Nat.add_sub_cancel_left] at hlink
  obtain ⟨-, hfiles, hframe, hbound, hlinked⟩ := linkClusters_eq_ok (by omega) hlink
  have hlt : (image.currentFreeDataClusterIndex +
      requiredNewClusters l.bytesPerSector (size.setWidth 64)).toNat < 2 ^ 30 := by
    have hprimary := hl.primaryFAT
    have hsector := hl.sector_bounds.1
    have hsize := hl.size
    rcases Nat.eq_zero_or_pos n with h0 | hpos
    · omega
    · have hle := hbound hpos
      omega
  refine ⟨rfl, hnext, hfiles, hframe, hlt, fun j hj => ?_⟩
  have hlast : image.currentFreeDataClusterIndex + BitVec.ofNat 32 j =
      image.currentFreeDataClusterIndex +
        requiredNewClusters l.bytesPerSector (size.setWidth 64) - 1 ↔ j + 1 = n := by
    rw [← BitVec.toNat_inj, toNat_add_ofNat (by omega), BitVec.toNat_sub_of_le, hnext]
    · change _ = _ - 1 ↔ _
      omega
    · rw [BitVec.le_def, hnext]
      change 1 ≤ _
      omega
  rw [hlinked j hj]
  simp only [hlast]

end Chains

/-! ## Where data lies -/

/-- Where the data of a cluster lies. -/
def Layout.dataAddress (l : Layout) (n : Nat) : Nat :=
  l.dataClusters + l.bytesPerSector.toNat * (n - 2)

/-- An entry of a directory. -/
def entryAt (l : Layout) (bytes : Nat → U8) (d : U32) (i : Nat) : List U8 :=
  bytesAt bytes (getDataCluster l d + dirEntrySize * i) dirEntrySize

section Addresses

variable {l : Layout} {n m k i : Nat} {c : U32}

theorem getDataCluster_eq (hc : 2 ≤ c.toNat)
    (hroom : l.bytesPerSector.toNat * (c.toNat - 2) < 2 ^ 32) :
    getDataCluster l c = l.dataAddress c.toNat := by
  have hwide : (l.bytesPerSector.setWidth 32).toNat = l.bytesPerSector.toNat :=
    BitVec.toNat_setWidth_of_le (by norm_num)
  have hsub : (c - reservedClusterIndices).toNat = c.toNat - 2 :=
    BitVec.toNat_sub_of_le (BitVec.le_def.mpr hc)
  rw [getDataCluster, BitVec.toNat_mul, hwide, hsub, Nat.mod_eq_of_lt hroom]
  rfl

/-- The data of later clusters lies behind that of earlier ones. -/
theorem Layout.dataAddress_add_le (hn : 2 ≤ n) (h : n + m ≤ k) :
    l.dataAddress n + l.bytesPerSector.toNat * m ≤ l.dataAddress k := by
  rw [dataAddress, dataAddress, Nat.add_assoc, ← Nat.mul_add]
  exact Nat.add_le_add_left (Nat.mul_le_mul_left _ (by omega)) _

theorem Layout.dataAddress_mono (hn : 2 ≤ n) (h : n ≤ k) : l.dataAddress n ≤ l.dataAddress k :=
  Layout.dataAddress_add_le (m := 0) hn h

/-- An entry lies in the cluster of its directory. -/
theorem entry_le (hi : i < entriesInCluster l) :
    dirEntrySize * i + dirEntrySize ≤ l.bytesPerSector.toNat := by
  have hdiv := Nat.div_mul_le_self l.bytesPerSector.toNat dirEntrySize
  have hmul := Nat.mul_le_mul_right dirEntrySize (show i + 1 ≤ l.bytesPerSector.toNat /
    dirEntrySize from hi)
  rw [Nat.add_mul, Nat.one_mul, Nat.mul_comm i] at hmul
  exact hmul.trans hdiv

/-- The data of a file lies in its clusters. -/
theorem length_le_clusters {x : Created} {data : List U8} (hb : 0 < m)
    (h : x.contents = some data) : data.length ≤ m * x.clusters m := by
  have hle := le_roundUp (x := data.length) hb
  rw [roundUp, Nat.mul_comm] at hle
  rwa [Created.clusters, h]

end Addresses

/-! ## A volume in an image -/

/-- The record of a file that was created. -/
def Created.file (x : Created) : Option CreatedFile :=
  x.contents.map fun data => ⟨x.name, x.cluster, data⟩

/-- The image holds the volume. -/
structure Stores (l : Layout) (v : Volume) (image : Image) : Prop where
  grown : v.Grown l.bytesPerSector.toNat
  free : image.currentFreeDataClusterIndex.toNat = v.next l.bytesPerSector.toNat
  fits : 4 * v.next l.bytesPerSector.toNat ≤ l.FATSizeBytes.toNat
  room : l.bytesPerSector.toNat * (v.next l.bytesPerSector.toNat - 2) < 2 ^ 32
  entries : ∀ d ∈ v.directories, ∀ i < entriesInCluster l,
    entryAt l image.bytes d i = slot (v.listing d)[i]?
  listed : ∀ d ∈ v.directories, (v.listing d).length ≤ entriesInCluster l
  inside : ∀ d ∈ v.directories, ∀ i < (v.listing d).length,
    getDataCluster l d + dirEntrySize * i + dirEntrySize ≤ l.size
  root : fatEntry l image.bytes rootClusterFATIndex = endOfChainMarker
  linked : ∀ x ∈ v, Linked l image.bytes x.cluster (x.clusters l.bytesPerSector.toNat)
  zero : ∀ a, l.dataAddress (v.next l.bytesPerSector.toNat) ≤ a →
    a < l.dataAddress (l.FATSizeBytes.toNat / 4) → image.bytes a = 0
  files : image.files = v.filterMap Created.file
  contents : ∀ x ∈ v, ∀ data, x.contents = some data → data.length < 2 ^ 32 ∧
    bytesAt image.bytes (getDataCluster l x.cluster) data.length = data

/-- The place for the next entry of a directory. -/
def nextPlace (l : Layout) (v : Volume) (d : U32) : Nat :=
  getDataCluster l d + dirEntrySize * (v.listing d).length

/-- What an image must hold for a new file or directory, beside all that it held before. -/
structure Adds (l : Layout) (v : Volume) (x : Created) (image image' : Image) : Prop where
  cluster : x.cluster.toNat = v.next l.bytesPerSector.toNat
  free : image'.currentFreeDataClusterIndex.toNat = Volume.next l.bytesPerSector.toNat (v ++ [x])
  fits : 4 * Volume.next l.bytesPerSector.toNat (v ++ [x]) ≤ l.FATSizeBytes.toNat
  room : l.bytesPerSector.toNat * (Volume.next l.bytesPerSector.toNat (v ++ [x]) - 2) < 2 ^ 32
  place : (v.listing x.parent).length < entriesInCluster l
  inside : nextPlace l v x.parent + dirEntrySize ≤ l.size
  entry : bytesAt image'.bytes (nextPlace l v x.parent) dirEntrySize = x.entry.bytes
  kept : ∀ a, (l.primaryFAT ≤ a ∧ a < l.primaryFAT + 4 * x.cluster.toNat) ∨
      (l.dataClusters ≤ a ∧ a < l.dataAddress x.cluster.toNat ∧
        (a < nextPlace l v x.parent ∨ nextPlace l v x.parent + dirEntrySize ≤ a)) ∨
      l.dataAddress (x.cluster.toNat + x.clusters l.bytesPerSector.toNat) ≤ a →
    image'.bytes a = image.bytes a
  linked : Linked l image'.bytes x.cluster (x.clusters l.bytesPerSector.toNat)
  files : image'.files = image.files ++ x.file.toList
  directory : x.contents = none → (∀ i < entriesInCluster l, entryAt l image'.bytes x.cluster i =
      slot [directoryEntry (text ".          ") x.cluster,
        directoryEntry (text "..         ") x.parent][i]?) ∧
    getDataCluster l x.cluster + 2 * dirEntrySize ≤ l.size
  contents : ∀ data, x.contents = some data → data.length < 2 ^ 32 ∧
    bytesAt image'.bytes (getDataCluster l x.cluster) data.length = data

section Stores

variable {l : Layout} {v : Volume} {x y : Created} {image image' : Image} {d : U32}

namespace Stores

/-- Where the data of clusters in use lies. -/
theorem address (h : Stores l v image) {c : U32} (hc : 2 ≤ c.toNat)
    (hlt : c.toNat ≤ v.next l.bytesPerSector.toNat) :
    getDataCluster l c = l.dataAddress c.toNat :=
  getDataCluster_eq hc ((Nat.mul_le_mul_left _ (by omega)).trans_lt h.room)

theorem address_directory (hl : l.Spread) (h : Stores l v image) (hd : d ∈ v.directories) :
    getDataCluster l d = l.dataAddress d.toNat := by
  have hsector := hl.sector_bounds.1
  obtain ⟨h2, hlt⟩ := h.grown.directory_lt (by omega) hd
  exact h.address h2 hlt.le

/-- Clusters in use other than that of the directory have no part in the place of its next
entry. -/
theorem apart_nextPlace (hl : l.Spread) (h : Stores l v image) (hd : d ∈ v.directories)
    (hplace : (v.listing d).length < entriesInCluster l) {n m a : Nat} (hn : 2 ≤ n)
    (hapart : n + m ≤ d.toNat ∨ d.toNat + 1 ≤ n) (ha : l.dataAddress n ≤ a)
    (ha' : a < l.dataAddress n + l.bytesPerSector.toNat * m) :
    a < nextPlace l v d ∨ nextPlace l v d + dirEntrySize ≤ a := by
  have hsector := hl.sector_bounds.1
  obtain ⟨h2, -⟩ := h.grown.directory_lt (by omega) hd
  have hentry := entry_le hplace
  rw [nextPlace, h.address_directory hl hd]
  rcases hapart with hapart | hapart
  · have hle := l.dataAddress_add_le hn hapart
    omega
  · have hle := l.dataAddress_add_le h2 hapart
    omega

end Stores

namespace Adds

/-- The data of other clusters than that of the parent is kept. -/
theorem kept_data (hl : l.Spread) (h : Stores l v image) (hparent : x.parent ∈ v.directories)
    (ha : Adds l v x image image') {n m : Nat} (hn : 2 ≤ n) (hm : n + m ≤ x.cluster.toNat)
    (hapart : n + m ≤ x.parent.toNat ∨ x.parent.toNat + 1 ≤ n) {a : Nat}
    (hge : l.dataAddress n ≤ a) (hlt : a < l.dataAddress n + l.bytesPerSector.toNat * m) :
    image'.bytes a = image.bytes a := by
  have hle := l.dataAddress_add_le hn hm
  have hdata : l.dataClusters ≤ l.dataAddress n := Nat.le_add_right _ _
  exact ha.kept a (.inr (.inl ⟨by omega, by omega,
    h.apart_nextPlace hl hparent ha.place hn hapart hge hlt⟩))

/-- The entries of the directories, with the new one. -/
theorem entries_old (hl : l.Spread) (h : Stores l v image) (hparent : x.parent ∈ v.directories)
    (ha : Adds l v x image image') (hd : d ∈ v.directories) {i : Nat}
    (hi : i < entriesInCluster l) :
    entryAt l image'.bytes d i = slot (Volume.listing (v ++ [x]) d)[i]? := by
  have hsector := hl.sector_bounds.1
  obtain ⟨h2, hlt⟩ := h.grown.directory_lt (by omega) hd
  have hentry := entry_le hi
  have hcluster := ha.cluster
  rw [Volume.listing_append hd]
  by_cases hp : x.parent = d
  · rw [if_pos hp]
    by_cases hnew : i = (v.listing d).length
    · rw [hnew, List.getElem?_append_right le_rfl, Nat.sub_self]
      have hadded := ha.entry
      rw [hp] at hadded
      exact hadded
    · have hslot : (v.listing d ++ [x.entry])[i]? = (v.listing d)[i]? := by
        rcases Nat.lt_or_ge i (v.listing d).length with hi' | hi'
        · exact List.getElem?_append_left hi'
        · rw [List.getElem?_eq_none (by simp; omega), List.getElem?_eq_none hi']
      rw [hslot, ← h.entries d hd i hi]
      refine bytesAt_congr fun j hj => ha.kept _ (.inr (.inl ?_))
      have hle := l.dataAddress_add_le (m := 1) h2 (show d.toNat + 1 ≤ x.cluster.toNat by omega)
      have hdata : l.dataClusters ≤ l.dataAddress d.toNat := Nat.le_add_right _ _
      rw [nextPlace, hp, h.address_directory hl hd]
      simp only [dirEntrySize] at hentry hj ⊢
      omega
  · rw [if_neg hp, List.append_nil, ← h.entries d hd i hi]
    refine bytesAt_congr fun j hj => ?_
    rw [h.address_directory hl hd]
    have hne : x.parent.toNat ≠ d.toNat := fun he => hp (BitVec.eq_of_toNat_eq he)
    refine ha.kept_data hl h hparent (m := 1) h2 (by omega) (by omega) (by omega) (by omega)

/-- The entries of a new directory. -/
theorem entries_new (hl : l.Spread) (h : Stores l v image) (hparent : x.parent ∈ v.directories)
    (ha : Adds l v x image image') (hdir : x.contents = none) {i : Nat}
    (hi : i < entriesInCluster l) :
    entryAt l image'.bytes x.cluster i = slot (Volume.listing (v ++ [x]) x.cluster)[i]? := by
  have hsector := hl.sector_bounds.1
  rw [h.grown.listing_new (by omega) hparent ha.cluster hdir]
  exact (ha.directory hdir).1 i hi

/-- The chains that were there are kept. -/
theorem fatEntry_kept (ha : Adds l v x image image') {i : U32} (hi : i.toNat < x.cluster.toNat) :
    fatEntry l image'.bytes i = fatEntry l image.bytes i :=
  fatEntry_congr fun j hj => ha.kept _ (.inl ⟨by omega, by omega⟩)

theorem linked_kept (h : Stores l v image) (ha : Adds l v x image image') (hy : y ∈ v) :
    Linked l image'.bytes y.cluster (y.clusters l.bytesPerSector.toNat) := by
  intro j hj
  obtain ⟨-, hle⟩ := h.grown.bounds hy
  have hcluster := ha.cluster
  have hlt := x.cluster.isLt
  rw [ha.fatEntry_kept (by rw [toNat_add_ofNat (by omega)]; omega)]
  exact h.linked y hy j hj

/-- The contents of the files that were there are kept. -/
theorem contents_kept (hl : l.Spread) (h : Stores l v image) (hparent : x.parent ∈ v.directories)
    (ha : Adds l v x image image') (hy : y ∈ v) {data : List U8} (hdata : y.contents = some data) :
    bytesAt image'.bytes (getDataCluster l y.cluster) data.length = data := by
  have hsector := hl.sector_bounds.1
  obtain ⟨h3, hle⟩ := h.grown.bounds hy
  have hlength := length_le_clusters (m := l.bytesPerSector.toNat) (by omega) hdata
  have hapart := h.grown.directory_apart (by omega) hparent hy (by rw [hdata]; simp)
  conv_rhs => rw [← (h.contents y hy data hdata).2]
  refine bytesAt_congr fun j hj => ?_
  rw [h.address (by omega) (by omega)]
  exact ha.kept_data hl h hparent (by omega) (by rw [ha.cluster]; exact hle) hapart (by omega)
    (by omega)

end Adds

/-- With what is added the image holds the larger volume. -/
theorem Stores.add (hl : l.Spread) (h : Stores l v image) (hparent : x.parent ∈ v.directories)
    (hshort : IsShortName x.name) (hnew : ∀ e ∈ v.listing x.parent, e.name ≠ x.name)
    (hwritten : x.contents ≠ some []) (ha : Adds l v x image image') :
    Stores l (v ++ [x]) image' := by
  have hsector := hl.sector_bounds
  have hgrown : Volume.Grown l.bytesPerSector.toNat (v ++ [x]) :=
    h.grown.snoc hparent hshort hnew hwritten ha.cluster
  have hcluster := ha.cluster
  refine ⟨hgrown, ha.free, ha.fits, ha.room, fun d hd i hi => ?_, fun d hd => ?_,
    fun d hd i hi => ?_, ?_, fun y hy => ?_, fun a hge hlt => ?_, ?_, fun y hy data hdata => ?_⟩
  · rcases Volume.mem_directories_append.mp hd with hd | ⟨hdir, rfl⟩
    · exact ha.entries_old hl h hparent hd hi
    · exact ha.entries_new hl h hparent hdir hi
  · rcases Volume.mem_directories_append.mp hd with hd | ⟨hdir, rfl⟩
    · have hold := h.listed d hd
      have hplace := ha.place
      rw [Volume.listing_append hd]
      split
      · rename_i hp
        rw [hp] at hplace
        rw [List.length_append, List.length_singleton]
        omega
      · rwa [List.append_nil]
    · rw [h.grown.listing_new (by omega) hparent hcluster hdir]
      exact le_trans (show 2 ≤ 16 by norm_num) hsector.2
  · rcases Volume.mem_directories_append.mp hd with hd | ⟨hdir, rfl⟩
    · rw [Volume.listing_append hd] at hi
      by_cases hlt : i < (v.listing d).length
      · exact h.inside d hd i hlt
      · have hinside := ha.inside
        split at hi
        · rename_i hp
          rw [List.length_append, List.length_singleton] at hi
          rw [nextPlace, hp] at hinside
          rwa [show i = (v.listing d).length by omega]
        · rw [List.append_nil] at hi
          exact (hlt hi).elim
    · have hinside := (ha.directory hdir).2
      rw [h.grown.listing_new (by omega) hparent hcluster hdir] at hi
      change i < 2 at hi
      simp only [dirEntrySize] at hinside ⊢
      omega
  · have htwo : rootClusterFATIndex.toNat < x.cluster.toNat := by
      rw [hcluster]
      exact Nat.lt_of_lt_of_le (show 2 < 3 by norm_num) (Nat.le_add_right 3 _)
    rw [ha.fatEntry_kept htwo]
    exact h.root
  · rcases List.mem_append.mp hy with hy | hy
    · exact ha.linked_kept h hy
    · rw [List.mem_singleton.mp hy]
      exact ha.linked
  · rw [Volume.next_append, ← hcluster] at hge
    rw [ha.kept a (.inr (.inr hge))]
    have hmono := l.dataAddress_mono (n := x.cluster.toNat) (k := x.cluster.toNat +
      x.clusters l.bytesPerSector.toNat) (by rw [hcluster, Volume.next]; omega)
      (Nat.le_add_right _ _)
    exact h.zero a (by rw [← hcluster]; omega) hlt
  · rw [List.filterMap_append, ← h.files, ha.files]
    cases hf : x.file <;> simp [hf]
  · rcases List.mem_append.mp hy with hy | hy
    · exact ⟨(h.contents y hy data hdata).1, ha.contents_kept hl h hparent hy hdata⟩
    · rw [List.mem_singleton.mp hy] at hdata ⊢
      exact ha.contents data hdata

end Stores

end Homegrown.ImageBuilder
