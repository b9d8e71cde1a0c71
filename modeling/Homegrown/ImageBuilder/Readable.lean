import Homegrown.Core.Fat32
import Homegrown.ImageBuilder.Integrity
import Mathlib.Data.List.Find

/-!
# The volume as a driver reads it

The boot sector that the image builder writes describes the layout that it writes to, so a FAT32
driver finds the files of the volume: it follows the directories of a path and the chain of the
file, and gets the bytes that were written (`Stores.readFile_eq`).
-/

namespace Homegrown.ImageBuilder

open Fat32

/-! ## Numbers -/

theorem ofLittleEndian_le16 (v : U16) : ofLittleEndian (le16 v) = v.toNat := by
  have hlt := v.isLt
  have hhigh : ((v >>> 8).setWidth 8 : U8).toNat = v.toNat / 256 := by
    rw [BitVec.toNat_setWidth, BitVec.toNat_ushiftRight, Nat.shiftRight_eq_div_pow]
    exact Nat.mod_eq_of_lt (by omega)
  simp only [le16, ofLittleEndian, hhigh, BitVec.toNat_setWidth]
  omega

theorem ofLittleEndian_le32 (v : U32) : ofLittleEndian (le32 v) = v.toNat := by
  have hlt := v.isLt
  simp only [le32, ofLittleEndian, BitVec.toNat_setWidth, BitVec.toNat_ushiftRight,
    Nat.shiftRight_eq_div_pow]
  omega

/-- Four bytes, as a number and joined. -/
theorem ofLittleEndian_join (b₀ b₁ b₂ b₃ : U8) :
    ofLittleEndian [b₀, b₁, b₂, b₃] = (b₃ ++ b₂ ++ b₁ ++ b₀).toNat := by
  have happend {w : Nat} (x : BitVec w) (b : U8) : (x ++ b).toNat = x.toNat * 256 + b.toNat := by
    rw [BitVec.toNat_append, ← Nat.shiftLeft_add_eq_or_of_lt b.isLt, Nat.shiftLeft_eq]
  simp only [ofLittleEndian, happend]
  omega

/-! ## Bytes at an address -/

/-- The bytes lie at an address. -/
def HoldsAt (bytes : Nat → U8) (address : Nat) (data : List U8) : Prop :=
  bytesAt bytes address data.length = data

section HoldsAt

variable {bytes bytes' : Nat → U8} {address : Nat} {xs ys : List U8}

theorem holdsAt_append : HoldsAt bytes address (xs ++ ys) ↔
    HoldsAt bytes address xs ∧ HoldsAt bytes (address + xs.length) ys := by
  have hadd : bytesAt bytes address (xs ++ ys).length =
      bytesAt bytes address xs.length ++ bytesAt bytes (address + xs.length) ys.length := by
    rw [List.length_append]
    exact slice_add
  rw [HoldsAt, hadd]
  constructor
  · exact fun h => List.append_inj h (by simp [bytesAt])
  · rintro ⟨hxs, hys⟩
    exact congrArg₂ (· ++ ·) hxs hys

theorem HoldsAt.congr (h : HoldsAt bytes address xs)
    (hsame : ∀ a, address ≤ a → a < address + xs.length → bytes' a = bytes a) :
    HoldsAt bytes' address xs :=
  (bytesAt_congr fun _ hi => hsame _ (Nat.le_add_right _ _) (Nat.add_lt_add_left hi _)).trans h

theorem HoldsAt.number_byte {b : U8} (h : HoldsAt bytes address [b]) :
    number bytes address 1 = b.toNat := congrArg ofLittleEndian h

theorem HoldsAt.number_le16 {v : U16} (h : HoldsAt bytes address (le16 v)) :
    number bytes address 2 = v.toNat := (congrArg ofLittleEndian h).trans (ofLittleEndian_le16 v)

theorem HoldsAt.number_le32 {v : U32} (h : HoldsAt bytes address (le32 v)) :
    number bytes address 4 = v.toNat := (congrArg ofLittleEndian h).trans (ofLittleEndian_le32 v)

end HoldsAt

/-! ## The boot sector -/

/-- A driver has the layout. -/
structure Describes (l : Layout) (g : Geometry) : Prop where
  clusterSize : g.clusterSize = l.bytesPerSector.toNat
  fatAddress : g.fatAddress = l.primaryFAT
  clusterAddress : ∀ n, g.clusterAddress n = l.dataAddress n
  entries : g.sectorsPerFAT * g.bytesPerSector = l.FATSizeBytes.toNat
  rootCluster : g.rootCluster = rootClusterFATIndex.toNat

/-- What a driver reads in the boot sector. -/
theorem read_bootSector {c : Configuration} {bytes : Nat → U8} {base : Nat}
    (h : HoldsAt bytes base (biosParameterBlock c)) :
    Geometry.read bytes base = ⟨base, c.efi.bytesPerSector.toNat, 1, 32, 2,
      c.efi.FATSize32Sectors.toNat, 2⟩ := by
  have hoem : (text "THISDISK").length = 8 := rfl
  unfold biosParameterBlock at h
  simp only [holdsAt_append, and_assoc, List.length_append, length_le16, length_le32,
    List.length_cons, List.length_nil, hoem, Nat.reduceAdd] at h
  obtain ⟨-, -, hsector, hcluster, hreserved, hFATs, -, -, -, -, -, -, -, -, hsize, -, -, hroot,
    -⟩ := h
  rw [Geometry.read, hsector.number_le16, hcluster.number_byte, hreserved.number_le16,
    hFATs.number_byte, hsize.number_le32, hroot.number_le32]
  rfl

/-- The boot sector describes the layout. -/
theorem describes_bootSector {c : Configuration} {bytes : Nat → U8} (hl : c.layout.Spread)
    (hFAT : c.efi.FATSize32Sectors.toNat * c.efi.bytesPerSector.toNat =
      c.layout.FATSizeBytes.toNat)
    (h : HoldsAt bytes c.layout.reservedSectors (biosParameterBlock c)) :
    Describes c.layout (Geometry.read bytes c.layout.reservedSectors) := by
  have hprimary := hl.primaryFAT
  have hdata := hl.dataClusters
  have hfat : c.layout.reservedSectors + 32 * c.efi.bytesPerSector.toNat = c.layout.primaryFAT := by
    rw [hprimary, Nat.mul_comm]
    rfl
  rw [read_bootSector h]
  refine ⟨Nat.one_mul _, hfat, fun n => ?_, hFAT, rfl⟩
  change c.layout.reservedSectors + 32 * c.efi.bytesPerSector.toNat +
    2 * c.efi.FATSize32Sectors.toNat * c.efi.bytesPerSector.toNat +
      (n - 2) * (1 * c.efi.bytesPerSector.toNat) = _
  rw [hfat, Nat.mul_assoc 2, hFAT, Nat.one_mul, Nat.mul_comm (n - 2), Layout.dataAddress, hdata]
  rfl

/-! ## Chains and directories -/

/-- The bytes hold the FAT and the clusters of the volume. -/
def SameVolume (l : Layout) (v : Volume) (image : Image) (bytes : Nat → U8) : Prop :=
  ∀ a, l.primaryFAT ≤ a → a < l.dataAddress (v.next l.bytesPerSector.toNat) →
    bytes a = image.bytes a

section Reading

variable {l : Layout} {g : Geometry} {v : Volume} {image : Image} {bytes : Nat → U8} {x : Created}
  {c d : U32} {n : Nat}

theorem Describes.link_eq (hg : Describes l g) (c : U32) :
    g.link bytes c.toNat = (fatEntry l bytes c).toNat % 2 ^ 28 := by
  rw [Geometry.link, hg.fatAddress, fatEntry, ← ofLittleEndian_join]
  rfl

/-- The attributes of what a directory lists. -/
theorem Volume.attributes_cases {e : DirEntry} (he : e ∈ v.listing d) :
    e.attributes = fat32DirectoryAttributes ∨ e.attributes = fat32FileAttributes := by
  rcases List.mem_append.mp he with he | he
  · unfold Volume.links at he
    split at he
    · cases he
    · rcases List.mem_pair.mp he with rfl | rfl <;> exact .inl rfl
  · obtain ⟨x, -, rfl⟩ := List.mem_map.mp he
    cases hx : x.contents with
    | none => exact .inl ((Created.entry_attributes x).mpr hx)
    | some data =>
      rw [Created.entry, hx]
      exact .inr rfl

namespace Stores

/-- There are fewer clusters than numbers for them. -/
theorem next_lt (hl : l.Spread) (h : Stores l v image) :
    v.next l.bytesPerSector.toNat < Geometry.endOfChain := by
  have hroom := h.room
  have hmul := Nat.mul_le_mul_right (v.next l.bytesPerSector.toNat - 2) hl.sector_bounds.1
  rw [Geometry.endOfChain]
  omega

/-- The entries of the clusters in use. -/
theorem fatEntry_eq (hl : l.Spread) (h : Stores l v image) (hsame : SameVolume l v image bytes)
    (hc : c.toNat < v.next l.bytesPerSector.toNat) :
    fatEntry l bytes c = fatEntry l image.bytes c := by
  have hfits := h.fits
  have hdata := hl.dataClusters
  have hle : l.dataClusters ≤ l.dataAddress (v.next l.bytesPerSector.toNat) := Nat.le_add_right _ _
  exact fatEntry_congr fun j hj => hsame _ (by omega) (by omega)

/-- Linked clusters follow each other for a driver. -/
theorem consecutive (hl : l.Spread) (h : Stores l v image) (hg : Describes l g)
    (hsame : SameVolume l v image bytes) (hlinked : Linked l image.bytes c n) (hn : 0 < n)
    (hle : c.toNat + n ≤ v.next l.bytesPerSector.toNat) : g.Consecutive bytes c.toNat n := by
  have hlt := h.next_lt hl
  have hend : Geometry.endOfChain = 0x0FFFFFF8 := rfl
  have hlink {j : Nat} (hj : j < n) : g.link bytes (c.toNat + j) =
      (if j + 1 = n then endOfChainMarker else c + BitVec.ofNat 32 (j + 1)).toNat % 2 ^ 28 := by
    have hplace : (c + BitVec.ofNat 32 j).toNat = c.toNat + j := toNat_add_ofNat (by omega)
    rw [← hplace, hg.link_eq, h.fatEntry_eq hl hsame (by omega), hlinked j hj]
  refine ⟨hn, fun i hi => ?_, ?_, by omega⟩
  · rw [hlink (by omega), if_neg (by omega), toNat_add_ofNat (by omega)]
    exact Nat.mod_eq_of_lt (by omega)
  · rw [hlink (by omega), if_pos (by omega)]
    decide

/-- What a driver finds from the first cluster of a file or directory on. -/
theorem stored_eq (hl : l.Spread) (h : Stores l v image) (hg : Describes l g)
    (hsame : SameVolume l v image bytes) (hlinked : Linked l image.bytes c n) (hc : 2 ≤ c.toNat)
    (hn : 0 < n) (hle : c.toNat + n ≤ v.next l.bytesPerSector.toNat) :
    g.stored bytes c.toNat =
      some (slice image.bytes (l.dataAddress c.toNat) (n * l.bytesPerSector.toNat)) := by
  have hfits := h.fits
  rw [(h.consecutive hl hg hsame hlinked hn hle).stored_eq hc (by rw [hg.entries]; omega),
    hg.clusterAddress, hg.clusterSize, Option.some.injEq]
  have hend := l.dataAddress_add_le hc hle
  rw [Nat.mul_comm] at hend
  have hdata := hl.dataClusters
  have hbase : l.dataClusters ≤ l.dataAddress c.toNat := Nat.le_add_right _ _
  exact slice_congr fun a ha hlt => hsame a (by omega) (by omega)

/-- A directory is linked to nothing. -/
theorem linked_directory (h : Stores l v image) (hd : d ∈ v.directories) :
    Linked l image.bytes d 1 := by
  intro j hj
  obtain rfl : j = 0 := by omega
  have hzero : d + BitVec.ofNat 32 0 = d := BitVec.add_zero _
  rw [hzero, if_pos rfl]
  rcases List.mem_cons.mp hd with rfl | hmem
  · exact h.root
  · obtain ⟨x, hx, rfl⟩ := List.mem_map.mp hmem
    obtain ⟨hx, hdir⟩ := List.mem_filter.mp hx
    have hlinked := h.linked x hx
    have hone : x.clusters l.bytesPerSector.toNat = 1 := by
      rw [Created.clusters, Option.isNone_iff_eq_none.mp hdir]
    rw [hone] at hlinked
    have hfirst := hlinked 0 (by norm_num)
    rwa [hzero, if_pos rfl] at hfirst

/-- A driver finds the records of a directory, when no name begins with a zero. -/
theorem find_eq (hl : l.Spread) (h : Stores l v image) (hg : Describes l g)
    (hsame : SameVolume l v image bytes) (hd : d ∈ v.directories)
    (hused : ∀ e ∈ v.listing d, e.name.head? ≠ some 0) (name : List U8) :
    g.find bytes name d.toNat =
      ((v.listing d).find? fun e => e.name = name).map DirEntry.bytes := by
  have hsector := hl.sector_bounds
  obtain ⟨h2, hlt⟩ := h.grown.directory_lt (by omega) hd
  have hstored := h.stored_eq hl hg hsame (h.linked_directory hd) h2 Nat.one_pos hlt
  have hlisted := h.listed d hd
  have haddress := h.address_directory hl hd
  have hrecords : Geometry.records (slice image.bytes (l.dataAddress d.toNat)
      (1 * l.bytesPerSector.toNat)) = (v.listing d).map DirEntry.bytes := by
    rw [Nat.one_mul]
    refine Geometry.records_slice ?_ (fun i hi => ?_) (fun entry hentry => ?_) fun hi => ?_
    · rwa [List.length_map]
    · rw [List.length_map] at hi
      rw [List.getElem_map, ← haddress]
      exact (h.entryAt_of_getElem? hd (List.getElem?_eq_getElem hi)).2
    · obtain ⟨e, he, rfl⟩ := List.mem_map.mp hentry
      have hshort := h.grown.short_listing he
      have hhead : e.bytes.head? = e.name.head? := by
        rw [← DirEntry.take_bytes hshort, List.head?_take, if_neg (by decide)]
      rw [hhead]
      exact hused e he
    · rw [List.length_map] at hi ⊢
      have hslot := h.entries d hd _ hi
      rw [List.getElem?_eq_none le_rfl, entryAt, haddress] at hslot
      have hhead := congrArg List.head? hslot
      have hbyte :
          image.bytes (l.dataAddress d.toNat + dirEntrySize * (v.listing d).length) = 0 := by
        simpa [bytesAt, dirEntrySize, List.range_succ_eq_map, slot, zeros, List.replicate_succ]
          using hhead
      exact hbyte
  rw [Geometry.find, hstored, Option.bind_eq_bind, Option.bind_some, hrecords, List.find?_map]
  congr 1
  refine List.find?_congr fun e he => ?_
  have hshort := h.grown.short_listing he
  have htake : e.bytes.take nameSize = e.name := DirEntry.take_bytes hshort
  simp only [Function.comp_apply, htake]

end Stores

section Records

variable {e : DirEntry}

theorem DirEntry.isDirectory_bytes (h : IsShortName e.name)
    (hattributes : e.attributes = fat32DirectoryAttributes ∨ e.attributes = fat32FileAttributes) :
    isDirectory e.bytes = decide (e.attributes = fat32DirectoryAttributes) := by
  rw [isDirectory, DirEntry.attributes_bytes h]
  rcases hattributes with he | he <;> rw [he] <;> decide

/-- The bytes behind the name. -/
theorem DirEntry.drop_bytes (h : IsShortName e.name) (k : Nat) :
    e.bytes.drop (11 + k) = ([e.attributes] ++ zeros 8 ++
      le16 ((e.cluster >>> 16).setWidth 16) ++ zeros 4 ++ le16 (e.cluster.setWidth 16) ++
        le32 e.fileSize).drop k := by
  have hlen : e.name.length = 11 := h.length
  simp only [DirEntry.bytes, dirEntryShortName, List.append_assoc]
  rw [← List.drop_drop, List.drop_left' hlen]

theorem DirEntry.clusterOf_bytes (h : IsShortName e.name) :
    clusterOf e.bytes = e.cluster.toNat := by
  rw [clusterOf, DirEntry.drop_bytes h 15, DirEntry.drop_bytes h 9]
  exact (ofLittleEndian_join _ _ _ _).trans (congrArg BitVec.toNat (join_halves e.cluster))

theorem DirEntry.fileSizeOf_bytes (h : IsShortName e.name) :
    fileSizeOf e.bytes = e.fileSize.toNat := by
  rw [fileSizeOf, DirEntry.drop_bytes h 17]
  exact ofLittleEndian_le32 e.fileSize

end Records

/-! ## Files -/

namespace Stores

/-- A driver follows a path as the volume resolves it. -/
theorem lookup_eq (hl : l.Spread) (h : Stores l v image) (hg : Describes l g)
    (hsame : SameVolume l v image bytes)
    (hused : ∀ d ∈ v.directories, ∀ e ∈ v.listing d, e.name.head? ≠ some 0)
    (hd : d ∈ v.directories) (directories : List (List U8)) (name : List U8) :
    g.lookup bytes directories name d.toNat = (v.resolve directories d).bind fun c =>
      ((v.listing c).find? fun e => e.name = name).map DirEntry.bytes := by
  induction directories generalizing d with
  | nil => exact h.find_eq hl hg hsame hd (hused d hd) name
  | cons directory directories ih =>
    rw [Geometry.lookup, h.find_eq hl hg hsame hd (hused d hd), Volume.resolve]
    cases hfind : (v.listing d).find? fun e => e.name = directory with
    | none => rfl
    | some e =>
      have he := List.mem_of_find?_eq_some hfind
      have hshort := h.grown.short_listing he
      simp only [Option.map_some, Option.bind_eq_bind, Option.bind_some]
      rw [DirEntry.isDirectory_bytes hshort (Volume.attributes_cases he),
        DirEntry.clusterOf_bytes hshort]
      by_cases hattributes : e.attributes = fat32DirectoryAttributes
      · rw [if_pos hattributes, if_pos (decide_eq_true hattributes)]
        exact ih (h.grown.mem_directories_of_entry hd he hattributes)
      · rw [if_neg hattributes, if_neg (by simpa using hattributes)]
        rfl

/-- A driver reads the contents of a file. -/
theorem readFile_eq (hl : l.Spread) (h : Stores l v image)
    (hg : Describes l (Geometry.read bytes l.reservedSectors)) (hsame : SameVolume l v image bytes)
    (hused : ∀ d ∈ v.directories, ∀ e ∈ v.listing d, e.name.head? ≠ some 0)
    {directories : List (List U8)} (hx : x ∈ v) {data : List U8} (hdata : x.contents = some data)
    (hresolve : v.resolve directories rootClusterFATIndex = some x.parent)
    (hfind : (v.listing x.parent).find? (fun e => e.name = x.name) = some x.entry) :
    readFile bytes l.reservedSectors directories x.name = some data := by
  have hsector := hl.sector_bounds
  have hbounds := h.grown.bounds hx
  have hpos := h.grown.clusters_pos (by omega) hx
  have hshort : IsShortName x.entry.name := by
    rw [Created.entry_name]
    exact h.grown.short hx
  have hfile : ¬ x.entry.attributes = fat32DirectoryAttributes := by
    rw [Created.entry_attributes, hdata]
    exact Option.some_ne_none data
  obtain ⟨hlt, hcontents⟩ := h.contents x hx data hdata
  have hsize : x.entry.fileSize.toNat = data.length := by
    rw [Created.entry, hdata]
    exact Nat.mod_eq_of_lt hlt
  have hlength := length_le_clusters (m := l.bytesPerSector.toNat) (by omega) hdata
  rw [readFile, hg.rootCluster, h.lookup_eq hl hg hsame hused Volume.root_mem_directories, hresolve,
    Option.bind_some, hfind]
  simp only [Option.map_some, Option.bind_eq_bind, Option.bind_some]
  rw [DirEntry.clusterOf_bytes hshort, Created.entry_cluster,
    h.stored_eq hl hg hsame (h.linked x hx) (by omega) hpos hbounds.2, Option.bind_some,
    DirEntry.isDirectory_bytes hshort (Volume.attributes_cases (Volume.entry_mem_listing hx)),
    if_neg (by simpa using hfile), DirEntry.fileSizeOf_bytes hshort, hsize, Option.some.injEq]
  have htake : ((slice image.bytes (l.dataAddress x.cluster.toNat) (x.clusters
      l.bytesPerSector.toNat * l.bytesPerSector.toNat)).drop 0).take data.length =
      slice image.bytes (l.dataAddress x.cluster.toNat + 0) data.length := by
    refine slice_drop_take ?_
    rw [Nat.mul_comm]
    omega
  rw [List.drop_zero] at htake
  rw [htake, Nat.add_zero, ← h.address (by omega) (by omega)]
  exact hcontents

end Stores

end Reading

end Homegrown.ImageBuilder
