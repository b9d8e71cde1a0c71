import Homegrown.ImageBuilder.Directory
import Mathlib.Logic.Relation

/-!
# Integrity of the file system

After any sequence of `createPath` calls and created files, every directory entry leads to a
chain of as many clusters as its size takes, the chains of files and directories share no
cluster, the bytes of a file lie in the clusters of its chain, and a path that was asked for
leads to the same directory without a change. The two entries that a directory starts with name
the directory itself and the one it was created in, and share their chains.
-/

namespace Homegrown.ImageBuilder

/-! ## Reading directories and chains -/

/-- The clusters of directories: the root directory, and what the entries of directories name. -/
inductive IsDirectory (l : Layout) (bytes : Nat → U8) : U32 → Prop where
  | root : IsDirectory l bytes rootClusterFATIndex
  | entry {d : U32} {i : Nat} (directory : IsDirectory l bytes d) (lt : i < entriesInCluster l)
      (used : (entryAt l bytes d i).take fat32ShortNameLen ≠ zeroName)
      (attributes : (entryAt l bytes d i).getD 11 0 = fat32DirectoryAttributes) :
      IsDirectory l bytes (clusterOfEntry (entryAt l bytes d i))

/-- A place in a directory holds an entry. -/
structure IsEntry (l : Layout) (bytes : Nat → U8) (d : U32) (i : Nat) : Prop where
  directory : IsDirectory l bytes d
  lt : i < entriesInCluster l
  used : (entryAt l bytes d i).take fat32ShortNameLen ≠ zeroName

/-- The places of the entries that every directory but the root directory starts with. -/
def IsLink (d : U32) (i : Nat) : Prop := d ≠ rootClusterFATIndex ∧ i < 2

/-- The clusters from one on that follow each other in the FAT, up to the end marker. -/
inductive ChainFrom (l : Layout) (bytes : Nat → U8) : U32 → List U32 → Prop where
  | last {c : U32} (marker : fatEntry l bytes c = endOfChainMarker) : ChainFrom l bytes c [c]
  | next {c : U32} {cs : List U32} (more : fatEntry l bytes c ≠ endOfChainMarker)
      (rest : ChainFrom l bytes (fatEntry l bytes c) cs) : ChainFrom l bytes c (c :: cs)

/-- So many clusters that follow each other. -/
def consecutive (c : U32) (n : Nat) : List U32 :=
  (List.range n).map fun j => c + BitVec.ofNat 32 j

/-- The number of clusters of an entry: one for a directory, and what its size takes for a
file. -/
def clustersOfEntry (l : Layout) (entry : List U8) : Nat :=
  if entry.getD 11 0 = fat32DirectoryAttributes then 1
  else ((sizeOfEntry entry).toNat + (l.bytesPerSector.toNat - 1)) / l.bytesPerSector.toNat

section Chains

variable {l : Layout} {bytes : Nat → U8} {c c' : U32} {n m : Nat} {chain chain' : List U32}

/-- A cluster starts one chain. -/
theorem ChainFrom.unique (h : ChainFrom l bytes c chain) (h' : ChainFrom l bytes c chain') :
    chain = chain' := by
  induction h generalizing chain' with
  | last marker =>
    cases h' with
    | last => rfl
    | next more => exact (more marker).elim
  | next more _ ih =>
    cases h' with
    | last marker => exact (more marker).elim
    | next _ rest => rw [ih rest]

@[simp] theorem length_consecutive : (consecutive c n).length = n := by simp [consecutive]

theorem mem_consecutive (h : c.toNat + n ≤ 2 ^ 32) :
    c' ∈ consecutive c n ↔ c.toNat ≤ c'.toNat ∧ c'.toNat < c.toNat + n := by
  simp only [consecutive, List.mem_map, List.mem_range]
  constructor
  · rintro ⟨j, hj, rfl⟩
    rw [toNat_add_ofNat (by omega)]
    omega
  · rintro ⟨hle, hlt⟩
    refine ⟨c'.toNat - c.toNat, by omega, BitVec.eq_of_toNat_eq ?_⟩
    rw [toNat_add_ofNat (by omega)]
    omega

/-- Clusters that are linked form a chain. -/
theorem Linked.chainFrom (h : Linked l bytes c n) (hpos : 0 < n) (hfits : c.toNat + n < 2 ^ 32) :
    ChainFrom l bytes c (consecutive c n) := by
  induction n generalizing c with
  | zero => exact absurd hpos (lt_irrefl 0)
  | succ n ih =>
    have hfirst := h 0 (Nat.succ_pos n)
    have hzero : c + BitVec.ofNat 32 0 = c := BitVec.add_zero c
    rw [hzero] at hfirst
    have hcons : consecutive c (n + 1) = c :: consecutive (c + 1) n := by
      rw [consecutive, List.range_succ_eq_map, List.map_cons, List.map_map, hzero, consecutive]
      congr 1
      exact List.map_congr_left fun j _ => (add_ofNat_succ c j).symm
    rw [hcons]
    rcases Nat.eq_zero_or_pos n with rfl | hn
    · exact .last hfirst
    · have hnext : fatEntry l bytes c = c + 1 := by
        rw [hfirst, if_neg (by omega)]
        rfl
      have hsucc : (c + 1).toNat = c.toNat + 1 := toNat_add_ofNat (j := 1) (by omega)
      have hmore : fatEntry l bytes c ≠ endOfChainMarker := by
        rw [hnext]
        intro hmarker
        have hnat := congrArg BitVec.toNat hmarker
        rw [hsucc] at hnat
        change _ = 4294967295 at hnat
        omega
      refine .next hmore ?_
      rw [hnext]
      refine ih (fun j hj => ?_) hn (by omega)
      have hj' := h (j + 1) (by omega)
      rw [add_ofNat_succ, add_ofNat_succ, hj']
      simp only [Nat.add_left_inj]

end Chains

/-! ## What holds of the whole file system -/

/-- A directory entry is that of a file. -/
structure IsEntryOf (l : Layout) (bytes : Nat → U8) (d : U32) (i : Nat) (file : CreatedFile) :
    Prop where
  entry : IsEntry l bytes d i
  attributes : (entryAt l bytes d i).getD 11 0 ≠ fat32DirectoryAttributes
  name : (entryAt l bytes d i).take fat32ShortNameLen = file.name
  cluster : clusterOfEntry (entryAt l bytes d i) = file.cluster
  size : (sizeOfEntry (entryAt l bytes d i)).toNat = file.contents.length

/-- The clusters of the contents of a file. -/
def CreatedFile.clusters (l : Layout) (file : CreatedFile) : Nat :=
  (file.contents.length + (l.bytesPerSector.toNat - 1)) / l.bytesPerSector.toNat

/-- The bytes of a file that its cluster with a number holds. -/
def CreatedFile.piece (l : Layout) (file : CreatedFile) (j : Nat) : List U8 :=
  (file.contents.drop (l.bytesPerSector.toNat * j)).take l.bytesPerSector.toNat

/-- Directories and chains agree. -/
structure Integrity (l : Layout) (image : Image) : Prop where
  /-- The chain of every entry has the clusters that the entry asks for. -/
  chained : ∀ d i, IsEntry l image.bytes d i → ∃ chain,
    ChainFrom l image.bytes (clusterOfEntry (entryAt l image.bytes d i)) chain ∧
      chain.length = clustersOfEntry l (entryAt l image.bytes d i) ∧ ∀ c ∈ chain, c ≠ 0 ∧ c ≠ 1
  /-- The chains of two entries share no cluster. -/
  disjoint : ∀ d i d' i', IsEntry l image.bytes d i → IsEntry l image.bytes d' i' →
    ¬ IsLink d i → ¬ IsLink d' i' → (d, i) ≠ (d', i') → ∀ chain chain',
      ChainFrom l image.bytes (clusterOfEntry (entryAt l image.bytes d i)) chain →
      ChainFrom l image.bytes (clusterOfEntry (entryAt l image.bytes d' i')) chain' →
        chain.Disjoint chain'
  /-- The two entries that a directory starts with name it and the directory of its entry. -/
  links : ∀ d, IsDirectory l image.bytes d → d ≠ rootClusterFATIndex →
    clusterOfEntry (entryAt l image.bytes d 0) = d ∧
      ∃ i, IsEntry l image.bytes (clusterOfEntry (entryAt l image.bytes d 1)) i ∧
        ¬ IsLink (clusterOfEntry (entryAt l image.bytes d 1)) i ∧
        clusterOfEntry (entryAt l image.bytes (clusterOfEntry (entryAt l image.bytes d 1)) i) = d
  /-- Every entry of a file is that of a file that was created. -/
  created : ∀ d i, IsEntry l image.bytes d i →
    (entryAt l image.bytes d i).getD 11 0 ≠ fat32DirectoryAttributes →
      ∃ file ∈ image.files, IsEntryOf l image.bytes d i file
  /-- The chain of a file is made of the consecutive clusters that hold its bytes. -/
  written : ∀ file ∈ image.files, (∃ d i, IsEntryOf l image.bytes d i file) ∧
    ChainFrom l image.bytes file.cluster (consecutive file.cluster (file.clusters l)) ∧
    ∀ j < file.clusters l, file.piece l j ≠ [] ∧
      bytesAt image.bytes (getDataCluster l (file.cluster + BitVec.ofNat 32 j))
        (file.piece l j).length = file.piece l j

section Volumes

variable {l : Layout} {v : Volume} {image : Image} {d : U32} {i : Nat} {e : DirEntry}
  {x y : Created}

namespace Volume

theorem isLink_iff : IsLink d i ↔ i < (v.links d).length := by
  unfold IsLink links
  by_cases hroot : d = rootClusterFATIndex <;> simp [hroot]

theorem entry_mem_listing (hx : x ∈ v) : x.entry ∈ v.listing x.parent :=
  List.mem_append_right _ (List.mem_map_of_mem (List.mem_filter.mpr ⟨hx, beq_self_eq_true _⟩))

/-- Behind the links of a directory are the entries of what was created in it. -/
theorem getElem?_listing (hlink : ¬ IsLink d i) (he : (v.listing d)[i]? = some e) :
    ∃ x, (v.createdIn d)[i - (v.links d).length]? = some x ∧ x.entry = e := by
  rw [isLink_iff (v := v), Nat.not_lt] at hlink
  rw [listing, List.getElem?_append_right hlink, List.getElem?_map] at he
  exact Option.map_eq_some_iff.mp he

/-- The place of what was created is none of the links. -/
theorem exists_place (hx : x ∈ v) :
    ∃ i, ¬ IsLink x.parent i ∧ (v.listing x.parent)[i]? = some x.entry := by
  have hmem : x ∈ v.createdIn x.parent := List.mem_filter.mpr ⟨hx, beq_self_eq_true _⟩
  obtain ⟨j, hj⟩ := List.getElem?_of_mem hmem
  refine ⟨(v.links x.parent).length + j, ?_, ?_⟩
  · rw [isLink_iff (v := v), Nat.not_lt]
    exact Nat.le_add_right _ _
  · rw [listing, List.getElem?_append_right (Nat.le_add_right _ _), Nat.add_sub_cancel_left,
      List.getElem?_map]
    exact congrArg (Option.map Created.entry) hj

/-- The entry of a directory that was created. -/
theorem created_of_directory (hd : d ∈ v.directories) (hroot : d ≠ rootClusterFATIndex) :
    ∃ x ∈ v, x.contents = none ∧ x.cluster = d ∧ x.parent = v.parentOf d := by
  obtain ⟨y, hy, rfl⟩ := List.mem_map.mp ((List.mem_cons.mp hd).resolve_left hroot)
  obtain ⟨hmem, hdir⟩ := List.mem_filter.mp hy
  rw [parentOf]
  cases hf : v.find? fun x => x.contents.isNone && x.cluster == y.cluster with
  | none =>
    have hno := List.find?_eq_none.mp hf y hmem
    rw [hdir, beq_self_eq_true] at hno
    exact absurd rfl hno
  | some x =>
    have hx := List.find?_some hf
    rw [Bool.and_eq_true, beq_iff_eq, Option.isNone_iff_eq_none] at hx
    exact ⟨x, List.mem_of_find?_eq_some hf, hx.1, hx.2, rfl⟩

theorem mem_of_createdIn {j : Nat} (h : (v.createdIn d)[j]? = some x) : x ∈ v ∧ x.parent = d := by
  obtain ⟨hmem, hparent⟩ := List.mem_filter.mp (List.mem_of_getElem? h)
  exact ⟨hmem, eq_of_beq hparent⟩

end Volume

namespace Stores

/-- A place that is in use holds an entry of the volume. -/
theorem getElem?_of_used (h : Stores l v image) (hd : d ∈ v.directories)
    (hi : i < entriesInCluster l)
    (hused : (entryAt l image.bytes d i).take fat32ShortNameLen ≠ zeroName) :
    ∃ e, (v.listing d)[i]? = some e ∧ entryAt l image.bytes d i = e.bytes := by
  have hslot := h.entries d hd i hi
  cases he : (v.listing d)[i]? with
  | none =>
    rw [hslot, he] at hused
    exact (hused rfl).elim
  | some e =>
    rw [he] at hslot
    exact ⟨e, rfl, hslot⟩

theorem short_of_getElem? (h : Stores l v image) (he : (v.listing d)[i]? = some e) :
    IsShortName e.name := h.grown.short_listing (List.mem_of_getElem? he)

theorem used_of_getElem? (h : Stores l v image) (hd : d ∈ v.directories)
    (he : (v.listing d)[i]? = some e) :
    (entryAt l image.bytes d i).take fat32ShortNameLen ≠ zeroName := by
  have hshort := h.short_of_getElem? he
  rw [(h.entryAt_of_getElem? hd he).2, DirEntry.take_bytes hshort]
  exact hshort.ne_zero

/-- The directories found in the image are those of the volume. -/
theorem mem_of_isDirectory (h : Stores l v image) (hd : IsDirectory l image.bytes d) :
    d ∈ v.directories := by
  induction hd with
  | root => exact Volume.root_mem_directories
  | entry _ lt used attributes ih =>
    obtain ⟨e, he, hentry⟩ := h.getElem?_of_used ih lt used
    have hshort := h.short_of_getElem? he
    rw [hentry, DirEntry.attributes_bytes hshort] at attributes
    rw [hentry, DirEntry.clusterOfEntry_bytes hshort]
    exact h.grown.mem_directories_of_entry ih (List.mem_of_getElem? he) attributes

/-- The directory of an entry for which a directory was created. -/
theorem isDirectory_entry (h : Stores l v image) (hd : IsDirectory l image.bytes d)
    (he : (v.listing d)[i]? = some e) (hattributes : e.attributes = fat32DirectoryAttributes) :
    IsDirectory l image.bytes e.cluster := by
  have hmem := h.mem_of_isDirectory hd
  obtain ⟨hlt, hentry⟩ := h.entryAt_of_getElem? hmem he
  have hshort := h.short_of_getElem? he
  have hdir := IsDirectory.entry hd hlt (h.used_of_getElem? hmem he)
    (by rw [hentry, DirEntry.attributes_bytes hshort, hattributes])
  rwa [hentry, DirEntry.clusterOfEntry_bytes hshort] at hdir

/-- Every directory of the volume is found from the root directory. -/
theorem isDirectory (h : Stores l v image) (hd : d ∈ v.directories) :
    IsDirectory l image.bytes d := by
  have hevery (w : Volume) (hw : w.Grown l.bytesPerSector.toNat) (hp : w <+: v) :
      ∀ d ∈ w.directories, IsDirectory l image.bytes d := by
    induction hw with
    | nil =>
      intro d hd
      obtain rfl := List.mem_singleton.mp hd
      exact .root
    | @snoc w x _ parent _ _ _ _ ih =>
      have hold := ih ((List.prefix_append w [x]).trans hp)
      intro d hd
      rcases Volume.mem_directories_append.mp hd with hd | ⟨hdir, rfl⟩
      · exact hold d hd
      · have hx : x ∈ v := hp.subset (List.mem_append_right w (List.mem_singleton_self x))
        obtain ⟨i, hi⟩ := List.getElem?_of_mem (Volume.entry_mem_listing hx)
        have hnew := h.isDirectory_entry (hold x.parent parent) hi
          ((Created.entry_attributes x).mpr hdir)
        rwa [Created.entry_cluster] at hnew
  exact hevery v h.grown List.prefix_rfl d hd

/-- What a directory of the volume lists is an entry in the image. -/
theorem isEntry (h : Stores l v image) (hd : d ∈ v.directories)
    (he : (v.listing d)[i]? = some e) : IsEntry l image.bytes d i :=
  ⟨h.isDirectory hd, (h.entryAt_of_getElem? hd he).1, h.used_of_getElem? hd he⟩

/-- An entry in the image is one of the volume. -/
theorem getElem?_of_isEntry (h : Stores l v image) (he : IsEntry l image.bytes d i) :
    d ∈ v.directories ∧ ∃ e, (v.listing d)[i]? = some e ∧ entryAt l image.bytes d i = e.bytes :=
  ⟨h.mem_of_isDirectory he.directory,
    h.getElem?_of_used (h.mem_of_isDirectory he.directory) he.lt he.used⟩

/-! ## Chains -/

theorem lt_two_pow (h : Stores l v image) : v.next l.bytesPerSector.toNat < 2 ^ 30 := by
  have hFAT := l.FATSizeBytes.isLt
  have hfits := h.fits
  omega

/-- The clusters of what was created form its chain. -/
theorem chainFrom (hl : l.Spread) (h : Stores l v image) (hx : x ∈ v) :
    ChainFrom l image.bytes x.cluster
      (consecutive x.cluster (x.clusters l.bytesPerSector.toNat)) := by
  have hsector := hl.sector_bounds.1
  have hbounds := h.grown.bounds hx
  have hlt := h.lt_two_pow
  exact (h.linked x hx).chainFrom (h.grown.clusters_pos (by omega) hx) (by omega)

/-- The chain of a directory is its cluster. -/
theorem chainFrom_directory (hl : l.Spread) (h : Stores l v image) (hd : d ∈ v.directories) :
    ChainFrom l image.bytes d [d] := by
  rcases List.mem_cons.mp hd with rfl | hmem
  · exact .last h.root
  · obtain ⟨x, hx, rfl⟩ := List.mem_map.mp hmem
    obtain ⟨hx, hdir⟩ := List.mem_filter.mp hx
    have hchain := h.chainFrom hl hx
    have hone : x.clusters l.bytesPerSector.toNat = 1 := by
      rw [Created.clusters, Option.isNone_iff_eq_none.mp hdir]
    have hzero : x.cluster + BitVec.ofNat 32 0 = x.cluster := BitVec.add_zero _
    rw [hone] at hchain
    change ChainFrom l image.bytes x.cluster [x.cluster + BitVec.ofNat 32 0] at hchain
    rwa [hzero] at hchain

/-- The entry of what was created asks for its clusters. -/
theorem clustersOfEntry_eq (h : Stores l v image) (hx : x ∈ v) :
    clustersOfEntry l x.entry.bytes = x.clusters l.bytesPerSector.toNat := by
  have hshort : IsShortName x.entry.name := by
    rw [Created.entry_name]
    exact h.grown.short hx
  have hdir := Created.entry_attributes x
  rw [clustersOfEntry, DirEntry.attributes_bytes hshort, DirEntry.sizeOfEntry_bytes hshort]
  cases hc : x.contents with
  | none => rw [if_pos (hdir.mpr hc), Created.clusters, hc]
  | some data =>
    have hlt := (h.contents x hx data hc).1
    have hsize : x.entry.fileSize.toNat = data.length := by
      rw [Created.entry, hc]
      exact Nat.mod_eq_of_lt hlt
    rw [if_neg (by rw [hdir, hc]; simp), hsize, Created.clusters, hc]

/-- An entry is one of the links, or that of a file or directory that was created. -/
theorem entry_cases (h : Stores l v image) (he : IsEntry l image.bytes d i) :
    (IsLink d i ∧ (entryAt l image.bytes d i).getD 11 0 = fat32DirectoryAttributes ∧
      clusterOfEntry (entryAt l image.bytes d i) ∈ v.directories) ∨
    (¬ IsLink d i ∧ ∃ x, (v.createdIn d)[i - (v.links d).length]? = some x ∧
      entryAt l image.bytes d i = x.entry.bytes) := by
  obtain ⟨hd, e, hentry, hbytes⟩ := h.getElem?_of_isEntry he
  have hshort := h.short_of_getElem? hentry
  by_cases hlink : IsLink d i
  · rw [hbytes, DirEntry.attributes_bytes hshort, DirEntry.clusterOfEntry_bytes hshort]
    have hlt := (Volume.isLink_iff (v := v)).mp hlink
    rw [Volume.listing, List.getElem?_append_left hlt] at hentry
    have hmem := List.mem_of_getElem? hentry
    rw [Volume.links, if_neg hlink.1] at hmem
    rcases List.mem_pair.mp hmem with rfl | rfl
    · exact .inl ⟨hlink, rfl, hd⟩
    · exact .inl ⟨hlink, rfl, h.grown.parentOf_mem d⟩
  · obtain ⟨x, hx, rfl⟩ := Volume.getElem?_listing hlink hentry
    exact .inr ⟨hlink, x, hx, hbytes⟩

/-- An entry holds the first cluster. -/
theorem cluster_entry (h : Stores l v image) (hx : x ∈ v) :
    clusterOfEntry x.entry.bytes = x.cluster := by
  have hshort : IsShortName x.entry.name := by
    rw [Created.entry_name]
    exact h.grown.short hx
  rw [DirEntry.clusterOfEntry_bytes hshort, Created.entry_cluster]

/-- Each entry starts a chain of the length its size asks for. -/
theorem chained (hl : l.Spread) (h : Stores l v image) (he : IsEntry l image.bytes d i) :
    ∃ chain, ChainFrom l image.bytes (clusterOfEntry (entryAt l image.bytes d i)) chain ∧
      chain.length = clustersOfEntry l (entryAt l image.bytes d i) ∧
        ∀ c ∈ chain, c ≠ 0 ∧ c ≠ 1 := by
  have hsector := hl.sector_bounds.1
  have hapart {c : U32} (hc : 2 ≤ c.toNat) : c ≠ 0 ∧ c ≠ 1 := by
    constructor <;> rintro rfl <;> exact absurd hc (by decide)
  rcases h.entry_cases he with ⟨-, hattributes, hmem⟩ | ⟨-, x, hx, hbytes⟩
  · refine ⟨_, h.chainFrom_directory hl hmem, ?_, fun c hc => ?_⟩
    · rw [clustersOfEntry, if_pos hattributes]
      rfl
    · rw [List.mem_singleton.mp hc]
      exact hapart (h.grown.directory_lt (by omega) hmem).1
  · obtain ⟨hx, -⟩ := Volume.mem_of_createdIn hx
    rw [hbytes, h.cluster_entry hx, h.clustersOfEntry_eq hx]
    refine ⟨_, h.chainFrom hl hx, length_consecutive, fun c hc => hapart ?_⟩
    have hbounds := h.grown.bounds hx
    have hlt := h.lt_two_pow
    have hmem := (mem_consecutive (by omega)).mp hc
    omega

/-- Different entries have different clusters, unless one of them is a link. -/
theorem disjoint (hl : l.Spread) (h : Stores l v image) {d' : U32} {i' : Nat}
    (he : IsEntry l image.bytes d i) (he' : IsEntry l image.bytes d' i') (hlink : ¬ IsLink d i)
    (hlink' : ¬ IsLink d' i') (hne : (d, i) ≠ (d', i')) {chain chain' : List U32}
    (hchain : ChainFrom l image.bytes (clusterOfEntry (entryAt l image.bytes d i)) chain)
    (hchain' : ChainFrom l image.bytes (clusterOfEntry (entryAt l image.bytes d' i')) chain') :
    chain.Disjoint chain' := by
  have hsector := hl.sector_bounds.1
  obtain ⟨-, x, hx, hbytes⟩ := (h.entry_cases he).resolve_left fun h => hlink h.1
  obtain ⟨-, y, hy, hbytes'⟩ := (h.entry_cases he').resolve_left fun h => hlink' h.1
  obtain ⟨hxv, hxd⟩ := Volume.mem_of_createdIn hx
  obtain ⟨hyv, hyd⟩ := Volume.mem_of_createdIn hy
  rw [Volume.isLink_iff (v := v), Nat.not_lt] at hlink hlink'
  have hxy : x ≠ y := by
    rintro rfl
    obtain rfl : d = d' := hxd.symm.trans hyd
    have hnodup : (v.createdIn d).Nodup := (h.grown.nodup (by omega)).filter _
    have hsame : i - (v.links d).length = i' - (v.links d).length :=
      (List.getElem?_inj (List.getElem?_eq_some_iff.mp hx).1 hnodup).mp (hx.trans hy.symm)
    refine hne (congrArg (Prod.mk d) ?_)
    omega
  rw [hbytes, h.cluster_entry hxv] at hchain
  rw [hbytes', h.cluster_entry hyv] at hchain'
  rw [hchain.unique (h.chainFrom hl hxv), hchain'.unique (h.chainFrom hl hyv)]
  have hbounds := h.grown.bounds hxv
  have hbounds' := h.grown.bounds hyv
  have hlt := h.lt_two_pow
  intro c hc hc'
  have hmem := (mem_consecutive (by omega)).mp hc
  have hmem' := (mem_consecutive (by omega)).mp hc'
  have hapart := h.grown.apart hxv hyv hxy
  omega

/-! ## Links and files -/

/-- What was created is found at a place in its directory. -/
theorem exists_entry (h : Stores l v image) (hx : x ∈ v) :
    ∃ i, IsEntry l image.bytes x.parent i ∧ ¬ IsLink x.parent i ∧
      entryAt l image.bytes x.parent i = x.entry.bytes := by
  have hparent := h.grown.parent_mem hx
  obtain ⟨i, hlink, hi⟩ := Volume.exists_place hx
  exact ⟨i, h.isEntry hparent hi, hlink, (h.entryAt_of_getElem? hparent hi).2⟩

/-- The first two entries of a directory are the directory and its parent. -/
theorem links (h : Stores l v image) (hd : d ∈ v.directories) (hroot : d ≠ rootClusterFATIndex) :
    clusterOfEntry (entryAt l image.bytes d 0) = d ∧
      ∃ i, IsEntry l image.bytes (clusterOfEntry (entryAt l image.bytes d 1)) i ∧
        ¬ IsLink (clusterOfEntry (entryAt l image.bytes d 1)) i ∧
        clusterOfEntry (entryAt l image.bytes (clusterOfEntry (entryAt l image.bytes d 1)) i) =
          d := by
  have hlisting : v.listing d = directoryEntry (text ".          ") d ::
      directoryEntry (text "..         ") (v.parentOf d) :: (v.createdIn d).map Created.entry := by
    rw [Volume.listing, Volume.links, if_neg hroot]
    rfl
  have hfirst : (v.listing d)[0]? = some (directoryEntry (text ".          ") d) := by
    rw [hlisting]
    rfl
  have hsecond : (v.listing d)[1]? =
      some (directoryEntry (text "..         ") (v.parentOf d)) := by
    rw [hlisting]
    rfl
  rw [(h.entryAt_of_getElem? hd hfirst).2, (h.entryAt_of_getElem? hd hsecond).2,
    DirEntry.clusterOfEntry_bytes (h.short_of_getElem? hfirst),
    DirEntry.clusterOfEntry_bytes (h.short_of_getElem? hsecond)]
  refine ⟨rfl, ?_⟩
  obtain ⟨x, hx, -, rfl, hparent⟩ := Volume.created_of_directory hd hroot
  obtain ⟨i, hentry, hlink, hbytes⟩ := h.exists_entry hx
  change ∃ i, IsEntry l image.bytes (v.parentOf x.cluster) i ∧ ¬ IsLink (v.parentOf x.cluster) i ∧
    clusterOfEntry (entryAt l image.bytes (v.parentOf x.cluster) i) = x.cluster
  rw [← hparent]
  exact ⟨i, hentry, hlink, by rw [hbytes, h.cluster_entry hx]⟩

/-- The place of a file holds its entry. -/
theorem isEntryOf (h : Stores l v image) (hx : x ∈ v) {data : List U8}
    (hdata : x.contents = some data) (he : IsEntry l image.bytes d i)
    (hbytes : entryAt l image.bytes d i = x.entry.bytes) :
    IsEntryOf l image.bytes d i ⟨x.name, x.cluster, data⟩ := by
  have hlt := (h.contents x hx data hdata).1
  have hshort : IsShortName x.entry.name := by
    rw [Created.entry_name]
    exact h.grown.short hx
  refine ⟨he, ?_, ?_, ?_, ?_⟩
  · rw [hbytes, DirEntry.attributes_bytes hshort, Ne, Created.entry_attributes, hdata]
    exact Option.some_ne_none data
  · rw [hbytes, DirEntry.take_bytes hshort, Created.entry_name]
  · rw [hbytes, h.cluster_entry hx]
  · rw [hbytes, DirEntry.sizeOfEntry_bytes hshort, Created.entry, hdata]
    exact Nat.mod_eq_of_lt hlt

/-- The files of the volume are those that were recorded. -/
theorem mem_files (h : Stores l v image) {file : CreatedFile} :
    file ∈ image.files ↔ ∃ x ∈ v, ∃ data, x.contents = some data ∧
      (⟨x.name, x.cluster, data⟩ : CreatedFile) = file := by
  rw [h.files, List.mem_filterMap]
  simp only [Created.file, Option.map_eq_some_iff]

/-- Each entry of a file is that of one that was recorded. -/
theorem created (h : Stores l v image) (he : IsEntry l image.bytes d i)
    (hfile : (entryAt l image.bytes d i).getD 11 0 ≠ fat32DirectoryAttributes) :
    ∃ file ∈ image.files, IsEntryOf l image.bytes d i file := by
  obtain ⟨-, x, hx, hbytes⟩ := (h.entry_cases he).resolve_left fun h => hfile h.2.1
  obtain ⟨hxv, -⟩ := Volume.mem_of_createdIn hx
  have hshort : IsShortName x.entry.name := by
    rw [Created.entry_name]
    exact h.grown.short hxv
  rw [hbytes, DirEntry.attributes_bytes hshort, Ne, Created.entry_attributes,
    ← Ne, Option.ne_none_iff_exists'] at hfile
  obtain ⟨data, hdata⟩ := hfile
  exact ⟨_, h.mem_files.mpr ⟨x, hxv, data, hdata, rfl⟩, h.isEntryOf hxv hdata he hbytes⟩

/-- The bytes of a file lie in the clusters of its chain. -/
theorem piece_eq (h : Stores l v image) (hx : x ∈ v) {data : List U8}
    (hdata : x.contents = some data) {j : Nat} (hj : j < x.clusters l.bytesPerSector.toNat) :
    bytesAt image.bytes (getDataCluster l (x.cluster + BitVec.ofNat 32 j))
        ((data.drop (l.bytesPerSector.toNat * j)).take l.bytesPerSector.toNat).length =
      (data.drop (l.bytesPerSector.toNat * j)).take l.bytesPerSector.toNat := by
  have hbounds := h.grown.bounds hx
  have hlt := h.lt_two_pow
  have hcluster : (x.cluster + BitVec.ofNat 32 j).toNat = x.cluster.toNat + j :=
    toNat_add_ofNat (by omega)
  have hbase := h.address (show 2 ≤ x.cluster.toNat by omega) (by omega)
  have hpiece := h.address (c := x.cluster + BitVec.ofNat 32 j) (by omega) (by omega)
  have hshift : getDataCluster l (x.cluster + BitVec.ofNat 32 j) =
      getDataCluster l x.cluster + l.bytesPerSector.toNat * j := by
    rw [hpiece, hbase, hcluster, Layout.dataAddress, Layout.dataAddress, Nat.add_assoc,
      ← Nat.mul_add, Nat.sub_add_comm (by omega)]
  rw [hshift]
  exact bytesAt_piece (h.contents x hx data hdata).2

/-- Each file that was recorded has its entry, its chain and its contents. -/
theorem written (hl : l.Spread) (h : Stores l v image) {file : CreatedFile}
    (hfile : file ∈ image.files) :
    (∃ d i, IsEntryOf l image.bytes d i file) ∧
      ChainFrom l image.bytes file.cluster (consecutive file.cluster (file.clusters l)) ∧
      ∀ j < file.clusters l, file.piece l j ≠ [] ∧
        bytesAt image.bytes (getDataCluster l (file.cluster + BitVec.ofNat 32 j))
          (file.piece l j).length = file.piece l j := by
  have hsector := hl.sector_bounds.1
  obtain ⟨x, hx, data, hdata, rfl⟩ := h.mem_files.mp hfile
  have hclusters : CreatedFile.clusters l ⟨x.name, x.cluster, data⟩ =
      x.clusters l.bytesPerSector.toNat := by
    rw [Created.clusters, hdata]
    rfl
  obtain ⟨i, hentry, -, hbytes⟩ := h.exists_entry hx
  refine ⟨⟨x.parent, i, h.isEntryOf hx hdata hentry hbytes⟩, ?_, fun j hj => ⟨?_, ?_⟩⟩
  · rw [hclusters]
    exact h.chainFrom hl hx
  · have hmul := Nat.mul_le_of_le_div _ _ _ (show j + 1 ≤ (data.length +
      (l.bytesPerSector.toNat - 1)) / l.bytesPerSector.toNat from hj)
    rw [Nat.add_mul, Nat.one_mul, Nat.mul_comm] at hmul
    change (data.drop _).take _ ≠ []
    rw [Ne, ← List.length_eq_zero_iff, List.length_take, List.length_drop]
    omega
  · rw [hclusters] at hj
    exact h.piece_eq hx hdata hj

/-- An image that holds a volume has all of this. -/
theorem integrity (hl : l.Spread) (h : Stores l v image) : Integrity l image where
  chained _ _ he := h.chained hl he
  disjoint _ _ _ _ he he' hlink hlink' hne _ _ := h.disjoint hl he he' hlink hlink' hne
  links _ hd := h.links (h.mem_of_isDirectory hd)
  created _ _ := h.created
  written _ := h.written hl

end Stores

end Volumes

/-! ## Calls -/

/-- The clusters that are taken have entries in the FAT. -/
def ClustersFit (l : Layout) (image : Image) : Prop :=
  4 * image.currentFreeDataClusterIndex.toNat ≤ l.FATSizeBytes.toNat

instance (l : Layout) (image : Image) : Decidable (ClustersFit l image) :=
  inferInstanceAs (Decidable (_ ≤ _))

/-- No entry of a directory has the name. -/
def NoEntryNamed (l : Layout) (bytes : Nat → U8) (d : U32) (name : List U8) : Prop :=
  ∀ i < entriesInCluster l, (entryAt l bytes d i).take fat32ShortNameLen ≠ name

instance (l : Layout) (bytes : Nat → U8) (d : U32) (name : List U8) :
    Decidable (NoEntryNamed l bytes d name) :=
  inferInstanceAs (Decidable (∀ i < entriesInCluster l, _))

/-- A call that returns. A full directory makes it run into `__builtin_unreachable`. -/
inductive Call (l : Layout) (image image' : Image) : Prop where
  | createPath {names : List (List U8)} {startCluster cluster : U32}
      (short : ∀ name ∈ names, IsShortName name)
      (start : IsDirectory l image.bytes startCluster)
      (noFile : NoFileOnPath l names startCluster image)
      (returns : createPath l names startCluster image = .ok cluster image')
      (fits : ClustersFit l image')
  | createFile {name : List U8} {parentCluster : U32} {contents : List U8}
      (short : IsShortName name) (parent : IsDirectory l image.bytes parentCluster)
      (new : NoEntryNamed l image.bytes parentCluster name) (written : contents ≠ [])
      (returns : createFAT32File l name parentCluster contents image = .ok () image')
      (fits : ClustersFit l image')

/-- An image whose FAT was just initialised: the two reserved entries and the root directory
were written, and the data clusters are empty. -/
structure Fresh (l : Layout) (image : Image) : Prop where
  initialised : ∃ before, writeReservedEntries l before = .ok () image ∧ before.files = []
  empty : ∀ a, l.dataClusters ≤ a → a < l.dataAddress (l.FATSizeBytes.toNat / 4) →
    image.bytes a = 0

section Calls

variable {l : Layout} {v : Volume} {image image' : Image}

/-- A fresh image holds the empty volume. -/
theorem Fresh.stores (hl : l.Spread) (h : Fresh l image) : Stores l [] image := by
  obtain ⟨⟨before, hrun, hfiles⟩, hempty⟩ := h
  have hsector := hl.sector_bounds
  have hlt := l.bytesPerSector.isLt
  have hpos := hl.pos
  obtain ⟨k, hk⟩ := hl.dvd
  simp only [writeReservedEntries, setPrimaryFAT, bind_eq_ok, write_eq_ok, modify_eq_ok] at hrun
  obtain ⟨_, _, ⟨-, rfl⟩, _, _, ⟨-, rfl⟩, _, _, ⟨-, rfl⟩, rfl⟩ := hrun
  have hnext : Volume.next l.bytesPerSector.toNat [] = 3 := rfl
  have hroot : getDataCluster l rootClusterFATIndex = l.dataAddress 2 :=
    getDataCluster_eq le_rfl (by
      change _ * 0 < _
      omega)
  refine ⟨.nil, rfl, ?_, ?_, fun d hd i hi => ?_, fun d hd => ?_, fun d hd i hi => ?_, ?_,
    fun x hx => (List.not_mem_nil hx).elim, fun a hge => hempty a ?_, hfiles,
    fun x hx => (List.not_mem_nil hx).elim⟩
  · rw [hnext]
    omega
  · rw [hnext, Nat.mul_one]
    omega
  · obtain rfl := List.mem_singleton.mp hd
    have hentry := entry_le hi
    have hbase := l.dataAddress_add_le (m := 1) (k := l.FATSizeBytes.toNat / 4) (le_refl 2)
      (by omega)
    have hfirst : l.dataClusters ≤ l.dataAddress 2 := Nat.le_add_right _ _
    refine bytesAt_zeros fun j hj => hempty _ ?_ ?_
    · omega
    · rw [hroot]
      omega
  · obtain rfl := List.mem_singleton.mp hd
    exact Nat.zero_le _
  · obtain rfl := List.mem_singleton.mp hd
    exact (Nat.not_lt_zero i hi).elim
  · exact fatEntry_of_bytesAt (bytesAt_overwrite_self (length_le32 _))
  · exact (Nat.le_add_right _ _).trans hge

/-- A call adds to the volume. -/
theorem Call.stores (hl : l.Spread) (h : Stores l v image) (hcall : Call l image image') :
    ∃ w : Volume, v <+: w ∧ Stores l w image' := by
  cases hcall with
  | createPath short start noFile returns fits =>
    obtain ⟨w, hw, hstores, -⟩ :=
      createPath_stores hl h (h.mem_of_isDirectory start) short noFile returns fits
    exact ⟨w, hw, hstores⟩
  | createFile short parent new written returns fits =>
    have hd := h.mem_of_isDirectory parent
    refine createFAT32File_stores hl h hd short (fun e he hname => ?_) written returns fits
    obtain ⟨i, hi⟩ := List.getElem?_of_mem he
    obtain ⟨hlt, hentry⟩ := h.entryAt_of_getElem? hd hi
    refine new i hlt ?_
    rw [hentry, DirEntry.take_bytes (h.grown.short_listing he), hname]

/-- Calls add to the volume. -/
theorem calls_stores (hl : l.Spread) (h : Stores l v image)
    (hcalls : Relation.ReflTransGen (Call l) image image') :
    ∃ w : Volume, v <+: w ∧ Stores l w image' := by
  induction hcalls with
  | refl => exact ⟨v, List.prefix_rfl, h⟩
  | tail _ hcall ih =>
    obtain ⟨w, hw, hstores⟩ := ih
    obtain ⟨w', hw', hstores'⟩ := hcall.stores hl hstores
    exact ⟨w', hw.trans hw', hstores'⟩

/-- What `writeReservedEntries` makes of empty clusters. -/
theorem Fresh.of_empty (hl : l.Spread) (hempty : ∀ a, l.dataClusters ≤ a → image.bytes a = 0)
    (hfiles : image.files = []) (hrun : writeReservedEntries l image = .ok () image') :
    Fresh l image' := by
  refine ⟨⟨image, hrun, hfiles⟩, fun a ha _ => ?_⟩
  simp only [writeReservedEntries, setPrimaryFAT, bind_eq_ok, write_eq_ok, modify_eq_ok] at hrun
  obtain ⟨_, _, ⟨-, rfl⟩, _, _, ⟨-, rfl⟩, _, _, ⟨-, rfl⟩, rfl⟩ := hrun
  obtain ⟨k, hk⟩ := hl.dvd
  have hpos := hl.pos
  have hdata := hl.dataClusters
  have hnot (i : U32) (hi : i.toNat ≤ 2) (v : U32) :
      a < l.primaryFAT + 4 * i.toNat ∨ l.primaryFAT + 4 * i.toNat + (le32 v).length ≤ a := by
    rw [length_le32]
    omega
  rw [← hempty a ha]
  exact (overwrite_of_notMem (hnot 2 (by decide) _)).trans
    ((overwrite_of_notMem (hnot 1 (by decide) _)).trans
      (overwrite_of_notMem (hnot 0 (by decide) _)))

end Calls

/-! ## A directory and a file in it -/

/-- The layout for an application of three bytes, with blocks of 512 bytes. -/
def smallLayout : Layout := (setConfiguration 512 3 4096 512).layout

theorem smallLayout_spread : smallLayout.Spread :=
  (spread_setConfiguration (k := 9) (j := 9) 4096 (by decide) (by decide) (by decide)
    (by decide)).1

/-- Its image with a root directory. -/
def smallImage : Image := final (writeReservedEntries smallLayout ⟨fun _ => 0, 0, []⟩)

/-- The image with a directory. -/
def smallImageWithDirectory : Image :=
  final (createPath smallLayout [text "EFI        "] rootClusterFATIndex smallImage)

/-- The image with a file of two clusters in the directory. -/
def smallImageWithFile : Image :=
  final (createFAT32File smallLayout (text "KERNEL  INF") 3 (zeros 600) smallImageWithDirectory)

theorem smallImage_fresh : Fresh smallLayout smallImage := by
  have hrun : ReturnsWith (writeReservedEntries smallLayout ⟨fun _ => 0, 0, []⟩) fun u _ =>
      u = () := by decide +kernel
  exact Fresh.of_empty smallLayout_spread (fun _ _ => rfl) rfl hrun.eq_ok

theorem createPath_smallImage :
    createPath smallLayout [text "EFI        "] rootClusterFATIndex smallImage =
        .ok 3 smallImageWithDirectory ∧
      NoFileOnPath smallLayout [text "EFI        "] rootClusterFATIndex smallImage ∧
      ClustersFit smallLayout smallImageWithDirectory := by
  have hrun : ReturnsWith (createPath smallLayout [text "EFI        "] rootClusterFATIndex
      smallImage) fun cluster _ => cluster = 3 := by decide +kernel
  have hno : NoFileNamed smallLayout smallImage.bytes rootClusterFATIndex (text "EFI        ") := by
    decide +kernel
  exact ⟨hrun.eq_ok, ⟨hno, fun _ _ _ => trivial⟩, by decide +kernel⟩

/-- The entry of the directory. -/
theorem isEntry_smallImage :
    IsEntry smallLayout smallImageWithDirectory.bytes rootClusterFATIndex 0 ∧
      IsDirectory smallLayout smallImageWithDirectory.bytes 3 := by
  have hlt : 0 < entriesInCluster smallLayout := by decide
  have hused : (entryAt smallLayout smallImageWithDirectory.bytes rootClusterFATIndex 0).take
      fat32ShortNameLen ≠ zeroName := by decide +kernel
  have hattributes : (entryAt smallLayout smallImageWithDirectory.bytes rootClusterFATIndex 0).getD
      11 0 = fat32DirectoryAttributes := by decide +kernel
  have hcluster : clusterOfEntry (entryAt smallLayout smallImageWithDirectory.bytes
      rootClusterFATIndex 0) = 3 := by decide +kernel
  have hdirectory := IsDirectory.entry .root hlt hused hattributes
  rw [hcluster] at hdirectory
  exact ⟨⟨.root, hlt, hused⟩, hdirectory⟩

theorem isShortName_text : IsShortName (text "EFI        ") ∧ IsShortName (text "KERNEL  INF") :=
  ⟨⟨rfl, by decide⟩, ⟨rfl, by decide⟩⟩

theorem call_createPath : Call smallLayout smallImage smallImageWithDirectory := by
  obtain ⟨hrun, hno, hfits⟩ := createPath_smallImage
  refine .createPath (fun name hn => ?_) .root hno hrun hfits
  rw [List.mem_singleton.mp hn]
  exact isShortName_text.1

theorem call_createFile : Call smallLayout smallImageWithDirectory smallImageWithFile := by
  have hrun : ReturnsWith (createFAT32File smallLayout (text "KERNEL  INF") 3 (zeros 600)
      smallImageWithDirectory) fun u _ => u = () := by decide +kernel
  have hnew : NoEntryNamed smallLayout smallImageWithDirectory.bytes 3 (text "KERNEL  INF") := by
    decide +kernel
  exact .createFile isShortName_text.2 isEntry_smallImage.2 hnew (by decide) hrun.eq_ok
    (by decide +kernel)

/-! ## All calls -/

/-- After all calls directories and chains agree, and a path that was asked for leads to the
same directory again without a change. -/
theorem calls_integrity {l : Layout} {image image' : Image} (hl : l.Spread)
    (hfresh : Fresh l image) (hcalls : Relation.ReflTransGen (Call l) image image') :
    Integrity l image' ∧ ∀ names startCluster cluster asked,
      (∀ name ∈ names, IsShortName name) → IsDirectory l image'.bytes startCluster →
      NoFileOnPath l names startCluster image' →
      createPath l names startCluster image' = .ok cluster asked → ClustersFit l asked →
      ∀ later, Relation.ReflTransGen (Call l) asked later →
        createPath l names startCluster later = .ok cluster later := by
  obtain ⟨v, -, hstores⟩ := calls_stores hl (hfresh.stores hl) hcalls
  refine ⟨hstores.integrity hl, fun names d c asked hshort hd hno hrun hfits later hlater => ?_⟩
  have hd := hstores.mem_of_isDirectory hd
  obtain ⟨w, hw, hasked, hresolve⟩ := createPath_stores hl hstores hd hshort hno hrun hfits
  obtain ⟨w', hw', hstores'⟩ := calls_stores hl hasked hlater
  have hd' := Volume.directories_mono hw hd
  exact createPath_of_resolve hstores' (Volume.directories_mono hw' hd')
    (hstores'.grown.resolve_prefix hw' hd' hresolve)

/-- After a directory and a file were created, the directory is found again. -/
theorem calls_integrity_file : Integrity smallLayout smallImageWithFile ∧
    createPath smallLayout [text "EFI        "] rootClusterFATIndex smallImageWithFile =
      .ok 3 smallImageWithFile := by
  obtain ⟨hrun, hno, hfits⟩ := createPath_smallImage
  refine ⟨(calls_integrity smallLayout_spread smallImage_fresh
    (.tail (.single call_createPath) call_createFile)).1,
    (calls_integrity smallLayout_spread smallImage_fresh .refl).2 _ _ _ _ (fun name hn => ?_) .root
      hno hrun hfits _ (.single call_createFile)⟩
  rw [List.mem_singleton.mp hn]
  exact isShortName_text.1

/-- The chains of different entries are not always disjoint: the first entry of a directory
names the directory itself. -/
theorem calls_not_disjoint :
    ¬ ∀ (l : Layout) (image image' : Image), l.Spread → Fresh l image →
      Relation.ReflTransGen (Call l) image image' → ∀ d i d' i', IsEntry l image'.bytes d i →
        IsEntry l image'.bytes d' i' → (d, i) ≠ (d', i') → ∀ chain chain',
          ChainFrom l image'.bytes (clusterOfEntry (entryAt l image'.bytes d i)) chain →
          ChainFrom l image'.bytes (clusterOfEntry (entryAt l image'.bytes d' i')) chain' →
            chain.Disjoint chain' := by
  intro hclaim
  obtain ⟨hentry, hdirectory⟩ := isEntry_smallImage
  have hlink : IsEntry smallLayout smallImageWithDirectory.bytes 3 0 :=
    ⟨hdirectory, by decide, by decide +kernel⟩
  have hmarker : fatEntry smallLayout smallImageWithDirectory.bytes 3 = endOfChainMarker := by
    decide +kernel
  have hcluster : clusterOfEntry (entryAt smallLayout smallImageWithDirectory.bytes
      rootClusterFATIndex 0) = 3 := by decide +kernel
  have hcluster' : clusterOfEntry (entryAt smallLayout smallImageWithDirectory.bytes 3 0) = 3 := by
    decide +kernel
  have hdisjoint := hclaim _ _ _ smallLayout_spread smallImage_fresh (.single call_createPath)
    _ _ _ _ hentry hlink (by decide) [3] [3] (by rw [hcluster]; exact .last hmarker)
    (by rw [hcluster']; exact .last hmarker)
  exact hdisjoint (List.mem_singleton_self 3) (List.mem_singleton_self 3)

end Homegrown.ImageBuilder
