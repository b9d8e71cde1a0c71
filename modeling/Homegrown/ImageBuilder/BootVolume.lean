import Homegrown.ImageBuilder.Readable
import Homegrown.ImageBuilder.Taken

/-!
# The volume that is written

`writeEFISystemPartition` creates three directories and three files. With room for them the
partition holds this volume, and a driver reads the files (`writeEFISystemPartition_volume`). The
copy of the first FAT must land behind the files for this, and all of it happens within the
partition.
-/

namespace Homegrown.ImageBuilder

open Fat32

/-- What the reads of a file return as long as none fails: its bytes, in pieces. -/
inductive Delivers : List (Option (List U8)) → List U8 → Prop where
  | done (reads : List (Option (List U8))) : Delivers reads []
  | piece {reads : List (Option (List U8))} {data : List U8} (piece : List U8)
      (rest : Delivers reads data) : Delivers (some piece :: reads) (piece ++ data)

/-- The volume when its three directories are created. -/
def bootDirectories : Volume :=
  [⟨2, text "EFI        ", none, 3⟩, ⟨3, text "BOOT       ", none, 4⟩,
    ⟨3, text "FLOS       ", none, 5⟩]

/-- The volume, by the contents of its files and the clusters behind the application. -/
def bootVolume (application kernelInf diskDataInf : List U8) (kernelCluster diskCluster : U32) :
    Volume :=
  bootDirectories ++ [⟨4, text "BOOTX64 EFI", some application, 6⟩] ++
    [⟨5, text "KERNEL  INF", some kernelInf, kernelCluster⟩] ++
      [⟨5, text "DISKDATAINF", some diskDataInf, diskCluster⟩]

section Overwrite

variable {bytes : Nat → U8} {address : Nat} {xs ys : List U8}

theorem overwrite_nil : overwrite bytes address [] = bytes := by
  funext a
  rw [overwrite, if_neg]
  simp only [List.length_nil]
  omega

/-- Bytes that follow each other are written in one piece. -/
theorem overwrite_append : overwrite (overwrite bytes address xs) (address + xs.length) ys =
    overwrite bytes address (xs ++ ys) := by
  funext a
  rw [overwrite, overwrite, overwrite, List.length_append]
  by_cases hxs : address ≤ a ∧ a < address + xs.length
  · rw [if_neg (by omega), if_pos hxs, if_pos (by omega), List.getD_append _ _ _ _ (by omega)]
  · rw [if_neg hxs]
    by_cases hys : address + xs.length ≤ a ∧ a < address + xs.length + ys.length
    · rw [if_pos hys, if_pos (by omega), List.getD_append_right _ _ _ _ (by omega), Nat.sub_add_eq]
    · rw [if_neg hys, if_neg (by omega)]

end Overwrite

section Steps

variable {l : Layout} {v : Volume} {n address : Nat} {image image' : Image} {c d : U32}
  {R : Span} {outside : Nat → U8}
  {name data : List U8} {reads : List (Option (List U8))}

/-- Reading fills the bytes asked for when the file has as many. -/
theorem readEFIApplication_delivers (h : Delivers reads data)
    (hfits : address + data.length ≤ l.size) :
    readEFIApplication l reads address data.length image =
      .ok (some data) { image with bytes := overwrite image.bytes address data } := by
  induction h generalizing address image with
  | done reads =>
    rw [overwrite_nil]
    unfold readEFIApplication
    rfl
  | @piece reads data piece rest ih =>
    rw [List.length_append] at hfits ⊢
    unfold readEFIApplication
    split
    · rename_i hzero
      obtain rfl : piece = [] := List.length_eq_zero_iff.mp (by omega)
      obtain rfl : data = [] := List.length_eq_zero_iff.mp (by omega)
      rw [List.append_nil, overwrite_nil]
      rfl
    · have htake : piece.take (piece.length + data.length) = piece :=
        List.take_of_length_le (Nat.le_add_right _ _)
      simp only [htake]
      rw [bind_of_ok (write_returns (by omega)), Nat.add_sub_cancel_left,
        bind_of_ok (ih (by omega)),
        overwrite_append]
      rfl

/-- The application is read and entered as any file is. -/
theorem createFAT32File_eq
    (hfits : getDataCluster l image.currentFreeDataClusterIndex + data.length ≤ l.size) :
    createFAT32File l name d data image = createFileEntryAfterWritingData l name d data
      { image with
        bytes :=
          overwrite image.bytes (getDataCluster l image.currentFreeDataClusterIndex) data } := by
  rw [createFAT32File, get_bind, bind_of_ok (write_returns hfits)]

/-- A file that is not larger than a cluster takes one. -/
theorem clusters_one {b : Nat} {x : Created} (hdata : x.contents = some data)
    (hpos : 0 < data.length) (hle : data.length ≤ b) : x.clusters b = 1 := by
  rw [Created.clusters, hdata]
  exact Nat.div_eq_of_lt_le (by omega) (by omega)

/-- A span holds a partition with its clusters up to a number, and they have entries. -/
structure Covers (R : Span) (l : Layout) (n : Nat) : Prop where
  start : R.start ≤ l.reservedSectors
  clusters : l.dataAddress n ≤ R.stop
  fits : 4 * n ≤ l.FATSizeBytes.toNat

/-- So it holds the clusters before. -/
theorem Covers.cluster (hR : Covers R l n) {m i : Nat} (hi : 2 ≤ i) (hn : i + m ≤ n)
    (hl : l.Spread) : Inside R (l.dataAddress i) (l.bytesPerSector.toNat * m) := by
  have hend := l.dataAddress_add_le hi hn
  have hbase : l.dataClusters ≤ l.dataAddress i := Nat.le_add_right _ _
  have hprimary := hl.primaryFAT
  have hdata := hl.dataClusters
  have hstart := hR.start
  have hstop := hR.clusters
  exact ⟨by omega, by omega⟩

/-- And the entries of the FAT. -/
theorem Covers.links (hR : Covers R l n) {m i : Nat} (hn : i + m ≤ n) (hl : l.Spread) :
    Inside R (l.primaryFAT + 4 * i) (4 * m) := by
  have hfits := hR.fits
  have hbase : l.dataClusters ≤ l.dataAddress n := Nat.le_add_right _ _
  have hprimary := hl.primaryFAT
  have hdata := hl.dataClusters
  have hstart := hR.start
  have hstop := hR.clusters
  exact ⟨by omega, by omega⟩

namespace Stores

/-- A name that a directory does not list is created there. -/
theorem createPath_eq_ok (hl : l.Spread) (h : Stores l v image) (hd : d ∈ v.directories)
    (hname : IsShortName name) (hnew : ∀ e ∈ v.listing d, e.name ≠ name)
    (hfits : 4 * n ≤ l.FATSizeBytes.toNat) (hn : v.next l.bytesPerSector.toNat + 1 ≤ n)
    (hrun : createPath l [name] d image = .ok c image') :
    c.toNat = v.next l.bytesPerSector.toNat ∧ Stores l (v ++ [⟨d, name, none, c⟩]) image' := by
  obtain ⟨k, hk, hpow⟩ := hl.sector
  have hsector := hl.sector_bounds
  have hfree := h.free
  have hFAT := l.FATSizeBytes.isLt
  have hone : (requiredNewClusters l.bytesPerSector
      ((BitVec.ofNat 32 dirEntrySize).setWidth 64)).toNat = 1 :=
    toNat_requiredNewClusters_one hpow (by decide)
      (by rw [← hpow]; exact le_trans (by decide) hsector.1)
  rw [createPath_singleton] at hrun
  rcases createOrGetDirectoryFrom_of_ok hname (fun e he => h.grown.short_listing he)
    (h.entries d hd) hrun with ⟨e, hfind, -, -⟩ | ⟨-, hplace, hcreate⟩
  · have hfound := List.find?_some hfind
    exact absurd (of_decide_eq_true hfound) (hnew e (List.mem_of_find?_eq_some hfind))
  · obtain ⟨image₁, htaken, -, -, rfl⟩ := createDirectoryAt_eq_ok hname hcreate
    obtain ⟨rfl, hcursor, -⟩ := createContiguousSpaceForNewEntry_eq_ok hl (by omega) htaken
    rw [hone, hfree] at hcursor
    have hadds := createDirectoryAt_adds hl h hd hname hplace hcreate (by
      rw [show _ = _ from hcursor]
      omega)
    exact ⟨hadds.cluster, h.add hl hd hname hnew (by simp) hadds⟩

/-- A file with a name that a directory does not list is entered there. -/
theorem createFAT32File_eq_ok (hl : l.Spread) (h : Stores l v image) (hd : d ∈ v.directories)
    (hname : IsShortName name) (hnew : ∀ e ∈ v.listing d, e.name ≠ name) (hdata : data ≠ [])
    {u : Unit} (hfits : 4 * n ≤ l.FATSizeBytes.toNat) (hn : v.next l.bytesPerSector.toNat +
      Created.clusters l.bytesPerSector.toNat ⟨d, name, some data, c⟩ ≤ n)
    (hrun : createFAT32File l name d data image = .ok u image') :
    ∃ c : U32, c.toNat = v.next l.bytesPerSector.toNat ∧
      Stores l (v ++ [⟨d, name, some data, c⟩]) image' := by
  obtain ⟨k, hk, hpow⟩ := hl.sector
  have hfree := h.free
  have hFAT := l.FATSizeBytes.isLt
  obtain ⟨hcursor, -⟩ := createFAT32File_takes hl (by omega) hrun
  obtain ⟨hinside, -⟩ := ImageBuilder.createFAT32File_eq_ok hl h hd hname hdata hrun
  have hlength : (BitVec.ofNat 32 data.length).toNat = data.length := by
    have hsize := hl.size
    exact Nat.mod_eq_of_lt (by omega)
  have hclusters : (requiredNewClusters l.bytesPerSector
      ((BitVec.ofNat 32 data.length).setWidth 64)).toNat =
      Created.clusters l.bytesPerSector.toNat ⟨d, name, some data, c⟩ := by
    rw [toNat_requiredNewClusters hpow, hlength, ← hpow]
    rfl
  rw [hclusters] at hcursor
  obtain ⟨c, hadds⟩ := createFAT32File_adds hl h hd hname hdata hrun (by omega)
  exact ⟨c, hadds.cluster, h.add hl hd hname hnew (by simpa using hdata) hadds⟩

/-- A directory lies in the span. -/
theorem directory_inside (hl : l.Spread) (h : Stores l v image) (hR : Covers R l n)
    (hd : d ∈ v.directories) (hn : v.next l.bytesPerSector.toNat ≤ n) :
    Inside R (getDataCluster l d) l.bytesPerSector.toNat := by
  obtain ⟨h2, hlt⟩ := h.grown.directory_lt (by have := hl.sector_bounds.1; omega) hd
  rw [h.address_directory hl hd]
  have hcluster := hR.cluster (m := 1) h2 (show d.toNat + 1 ≤ n by omega) hl
  rwa [Nat.mul_one] at hcluster

/-- A directory is created in the span. -/
theorem commutes_createPath (hl : l.Spread) (h : Stores l v image) (hR : Covers R l n)
    (hd : d ∈ v.directories) (hname : IsShortName name)
    (hn : v.next l.bytesPerSector.toNat + 1 ≤ n) :
    Commutes (Image.within R outside) (createPath l [name] d) image := by
  have hfree := h.free
  have hnext : 3 ≤ v.next l.bytesPerSector.toNat := Nat.le_add_right 3 _
  have hcursor := h.address (c := image.currentFreeDataClusterIndex) (by omega) hfree.le
  have hcluster := hR.cluster (m := 1) (show 2 ≤ v.next l.bytesPerSector.toNat by omega) hn hl
  have hFAT := l.FATSizeBytes.isLt
  have hfits := hR.fits
  have hsector := hl.sector_bounds.1
  have hsize : dirEntrySize = 32 := rfl
  rw [createPath_singleton]
  refine commutes_createOrGetDirectoryFrom hl hname ((h.directory_inside hl hR hd (by omega)).sub
    (k := 0) ?_) ⟨hR.links (m := 1) (by omega) hl, ?_, by omega⟩
  · rw [Nat.zero_add, Nat.mul_comm]
    exact Nat.div_mul_le_self _ _
  · rw [hcursor, hfree]
    exact hcluster.sub (k := 0) (by omega)

/-- A file is entered in the span. -/
theorem commutes_createFAT32File (hl : l.Spread) (h : Stores l v image) (hR : Covers R l n)
    (hd : d ∈ v.directories) (hname : IsShortName name) (hdata : data.length < 2 ^ 32)
    (hn : v.next l.bytesPerSector.toNat +
      Created.clusters l.bytesPerSector.toNat ⟨d, name, some data, c⟩ ≤ n) :
    Commutes (Image.within R outside) (createFAT32File l name d data) image := by
  obtain ⟨k, hk, hpow⟩ := hl.sector
  have hfree := h.free
  have hnext : 3 ≤ v.next l.bytesPerSector.toNat := Nat.le_add_right 3 _
  have hcursor := h.address (c := image.currentFreeDataClusterIndex) (by omega) hfree.le
  have hcluster := hR.cluster (show 2 ≤ v.next l.bytesPerSector.toNat by omega) hn hl
  have hFAT := l.FATSizeBytes.isLt
  have hfits := hR.fits
  have hsector := hl.sector_bounds.1
  have hlength := length_le_clusters (m := l.bytesPerSector.toNat) (x := ⟨d, name, some data, c⟩)
    (by omega) rfl
  have hclusters : (requiredNewClusters l.bytesPerSector
      ((BitVec.ofNat 32 data.length).setWidth 64)).toNat =
      Created.clusters l.bytesPerSector.toNat ⟨d, name, some data, c⟩ := by
    rw [toNat_requiredNewClusters hpow, BitVec.toNat_ofNat, Nat.mod_eq_of_lt hdata, ← hpow]
    rfl
  refine ImageBuilder.commutes_createFAT32File hname (h.directory_inside hl hR hd (by omega)) ?_
    hclusters ?_ (by omega)
  · rw [hcursor, hfree]
    exact hcluster.sub (k := 0) (by omega)
  · rw [hfree]
    exact hR.links hn hl

end Stores

/-! ## What is written last -/

/-- The copy of a FAT leaves alone what lies before it. -/
theorem writeMirrors_before {location : Nat} {u : Unit}
    (hrun : writeMirrors l (ParameterBlock.FATs.toNat - 1) location image = .ok u image') {a : Nat}
    (ha : a < location) : image'.bytes a = image.bytes a := by
  rw [show ParameterBlock.FATs.toNat - 1 = 1 from rfl, writeMirrors, memcpy, bind_eq_ok] at hrun
  obtain ⟨_, image₁, hcopy, hrest⟩ := hrun
  obtain ⟨-, rfl⟩ := pure_eq_ok.mp hrest
  split at hcopy
  · rw [← modify_eq_ok.mp hcopy]
    exact if_neg (by omega)
  · exact (throw_eq_ok.mp hcopy).elim

theorem writeReservedSectors_bootSector {c : Configuration} (hl : l.Spread)
    (hrun : writeReservedSectors c l image = .ok () image') :
    HoldsAt image'.bytes l.reservedSectors (biosParameterBlock c) := by
  have hsector := hl.sector_bounds.1
  have hlength := length_biosParameterBlock c
  simp only [writeReservedSectors, bind_eq_ok, get_eq_ok, write_eq_ok] at hrun
  obtain ⟨_, _, ⟨rfl, rfl⟩, _, _, ⟨-, rfl⟩, _, _, ⟨-, rfl⟩, _, _, ⟨-, rfl⟩, -, rfl⟩ := hrun
  exact (bytesAt_overwrite_of_apart (.inl (by omega))).trans ((bytesAt_overwrite_of_apart
    (.inl (by omega))).trans ((bytesAt_overwrite_of_apart (.inl (by omega))).trans
      (bytesAt_overwrite_self rfl)))

/-- A name is new to a directory that lists other names. -/
theorem ne_of_names {names : List (List U8)} (h : (v.listing d).map DirEntry.name = names)
    (hnot : name ∉ names) : ∀ e ∈ v.listing d, e.name ≠ name := by
  rintro e he rfl
  exact hnot (h ▸ List.mem_map_of_mem he)

end Steps

/-! ## The partition -/

/-- The copy of the first FAT lands behind the files, and ends before a place. -/
structure MirrorHarmless (l : Layout) (blocks stop : Nat) : Prop where
  behind : l.dataAddress (blocks + 8) ≤ l.primaryFAT + 4 * l.FATSizeBytes.toNat
  within : l.primaryFAT + 5 * l.FATSizeBytes.toNat ≤ stop

/-- The partition holds the volume, and a boot sector. -/
structure HoldsVolume (c : Configuration) (v : Volume) (bytes : Nat → U8) : Prop where
  bootSector : HoldsAt bytes c.layout.reservedSectors (biosParameterBlock c)
  volume : ∃ image, Stores c.layout v image ∧ SameVolume c.layout v image bytes

/-- An image that holds nothing. -/
def emptyImage : Image := ⟨fun _ => 0, 0, []⟩

section Partition

variable {l : Layout} {n : Nat} {R : Span} {image image₁ image₂ image₃ : Image}
  {efi boot flos : U32}

/-- The directories are created one after the other. -/
theorem bootDirectories_stored (hl : l.Spread) (hR : Covers R l n) (hn : 6 ≤ n)
    (h : Stores l [] image)
    (hefi : createPath l [text "EFI        "] rootClusterFATIndex image = .ok efi image₁)
    (hboot : createPath l [text "BOOT       "] efi image₁ = .ok boot image₂)
    (hflos : createPath l [text "FLOS       "] efi image₂ = .ok flos image₃) :
    Stores l bootDirectories image₃ ∧ ∀ outside,
      createPath l [text "EFI        "] rootClusterFATIndex (image.within R outside) =
          .ok efi (image₁.within R outside) ∧
        createPath l [text "BOOT       "] efi (image₁.within R outside) =
          .ok boot (image₂.within R outside) ∧
        createPath l [text "FLOS       "] efi (image₂.within R outside) =
          .ok flos (image₃.within R outside) := by
  have hshort : IsShortName (text "EFI        ") := ⟨rfl, by decide⟩
  have hshort₁ : IsShortName (text "BOOT       ") := ⟨rfl, by decide⟩
  have hshort₂ : IsShortName (text "FLOS       ") := ⟨rfl, by decide⟩
  have hd : rootClusterFATIndex ∈ Volume.directories [] := Volume.root_mem_directories
  have hd₁ : (3 : U32) ∈ Volume.directories [⟨2, text "EFI        ", none, 3⟩] := by decide
  have hd₂ : (3 : U32) ∈ Volume.directories [⟨2, text "EFI        ", none, 3⟩,
    ⟨3, text "BOOT       ", none, 4⟩] := by decide
  obtain ⟨hcluster, h₁⟩ := h.createPath_eq_ok hl hd hshort (fun e he => absurd he List.not_mem_nil)
    hR.fits (show 3 + 1 ≤ n by omega) hefi
  obtain rfl : efi = 3 := BitVec.eq_of_toNat_eq hcluster
  obtain ⟨hcluster₁, h₂⟩ := h₁.createPath_eq_ok hl hd₁ hshort₁
    (ne_of_names (show _ = [text ".          ", text "..         "] from rfl) (by decide)) hR.fits
    (show 4 + 1 ≤ n by omega) hboot
  obtain rfl : boot = 4 := BitVec.eq_of_toNat_eq hcluster₁
  obtain ⟨hcluster₂, h₃⟩ := h₂.createPath_eq_ok hl hd₂ hshort₂
    (ne_of_names (show _ = [text ".          ", text "..         ", text "BOOT       "] from rfl)
      (by decide)) hR.fits (show 5 + 1 ≤ n by omega) hflos
  obtain rfl : flos = 5 := BitVec.eq_of_toNat_eq hcluster₂
  exact ⟨h₃, fun outside =>
    ⟨h.commutes_createPath hl hR hd hshort (show 3 + 1 ≤ n by omega) _ _ hefi,
      h₁.commutes_createPath hl hR hd₁ hshort₁ (show 4 + 1 ≤ n by omega) _ _ hboot,
      h₂.commutes_createPath hl hR hd₂ hshort₂ (show 5 + 1 ≤ n by omega) _ _ hflos⟩⟩

/-- The files are entered one after the other. -/
theorem bootVolume_stored (hl : l.Spread) (hR : Covers R l n) (h : Stores l bootDirectories image)
    {application kernelInf diskDataInf : List U8} (happlication : application ≠ [])
    (hkernelInf : kernelInf ≠ []) (hdiskDataInf : diskDataInf ≠ [])
    (hlength : application.length < 2 ^ 32 ∧ kernelInf.length < 2 ^ 32 ∧
      diskDataInf.length < 2 ^ 32)
    (hn : Volume.next l.bytesPerSector.toNat
      (bootVolume application kernelInf diskDataInf 0 0) ≤ n)
    (hfile : createFAT32File l (text "BOOTX64 EFI") 4 application image = .ok () image₁)
    (hinf : createFAT32File l (text "KERNEL  INF") 5 kernelInf image₁ = .ok () image₂)
    (hdisk : createFAT32File l (text "DISKDATAINF") 5 diskDataInf image₂ = .ok () image₃) :
    ∃ kernelCluster diskCluster,
      Stores l (bootVolume application kernelInf diskDataInf kernelCluster diskCluster) image₃ ∧
      ∀ outside, createFAT32File l (text "BOOTX64 EFI") 4 application (image.within R outside) =
          .ok () (image₁.within R outside) ∧
        createFAT32File l (text "KERNEL  INF") 5 kernelInf (image₁.within R outside) =
          .ok () (image₂.within R outside) ∧
        createFAT32File l (text "DISKDATAINF") 5 diskDataInf (image₂.within R outside) =
          .ok () (image₃.within R outside) := by
  have hshort : IsShortName (text "BOOTX64 EFI") := ⟨rfl, by decide⟩
  have hshort₁ : IsShortName (text "KERNEL  INF") := ⟨rfl, by decide⟩
  have hshort₂ : IsShortName (text "DISKDATAINF") := ⟨rfl, by decide⟩
  have hd : (4 : U32) ∈ bootDirectories.directories := by decide
  have hd₁ : (5 : U32) ∈ Volume.directories (bootDirectories ++
      [⟨4, text "BOOTX64 EFI", some application, 6⟩]) :=
    Volume.directories_mono (List.prefix_append _ _) (by decide)
  have hd₂ (c : U32) : (5 : U32) ∈ Volume.directories (bootDirectories ++
      [⟨4, text "BOOTX64 EFI", some application, 6⟩] ++
        [⟨5, text "KERNEL  INF", some kernelInf, c⟩]) :=
    Volume.directories_mono (List.prefix_append _ _) hd₁
  rw [bootVolume, Volume.next_append, Volume.next_append, Volume.next_append] at hn
  have hn₂ (c : U32) : Volume.next l.bytesPerSector.toNat (bootDirectories ++
      [⟨4, text "BOOTX64 EFI", some application, 6⟩] ++
        [⟨5, text "KERNEL  INF", some kernelInf, c⟩]) + Created.clusters l.bytesPerSector.toNat
          ⟨5, text "DISKDATAINF", some diskDataInf, 0⟩ ≤ n := by
    rw [Volume.next_append, Volume.next_append]
    exact hn
  have hn₁ : Volume.next l.bytesPerSector.toNat (bootDirectories ++
      [⟨4, text "BOOTX64 EFI", some application, 6⟩]) + Created.clusters l.bytesPerSector.toNat
        ⟨5, text "KERNEL  INF", some kernelInf, 0⟩ ≤ n := by
    rw [Volume.next_append]
    omega
  obtain ⟨c, hcluster, h₁⟩ := h.createFAT32File_eq_ok (c := 6) hl hd hshort
    (ne_of_names (show _ = [text ".          ", text "..         "] from rfl) (by decide))
    happlication
    hR.fits (by omega) hfile
  obtain rfl : c = 6 := BitVec.eq_of_toNat_eq hcluster
  obtain ⟨kernelCluster, -, h₂⟩ := h₁.createFAT32File_eq_ok hl hd₁ hshort₁
    (ne_of_names (show _ = [text ".          ", text "..         "] from rfl) (by decide))
    hkernelInf
    hR.fits hn₁ hinf
  obtain ⟨diskCluster, -, h₃⟩ := h₂.createFAT32File_eq_ok hl (hd₂ _) hshort₂
    (ne_of_names (show _ = [text ".          ", text "..         ", text "KERNEL  INF"] from rfl)
      (by decide)) hdiskDataInf hR.fits (hn₂ _) hdisk
  exact ⟨kernelCluster, diskCluster, h₃, fun outside =>
    ⟨h.commutes_createFAT32File (c := 6) hl hR hd hshort hlength.1 (by omega) _ _ hfile,
      h₁.commutes_createFAT32File hl hR hd₁ hshort₁ hlength.2.1 hn₁ _ _ hinf,
      h₂.commutes_createFAT32File hl hR (hd₂ _) hshort₂ hlength.2.2 (hn₂ _) _ _ hdisk⟩⟩

end Partition

section Partition

variable {c : Configuration} {blocks : Nat} {reads : List (Option (List U8))}
  {application : List U8} {efiSizeBytes kernelSizeBytes : U64} {R : Span}

/-- The clusters of the partition have entries in the FAT. -/
theorem MirrorHarmless.covers (h : MirrorHarmless c.layout blocks R.stop) (hl : c.layout.Spread)
    (hstart : R.start ≤ c.layout.reservedSectors) : Covers R c.layout (blocks + 8) := by
  have hdata := hl.dataClusters
  have hbehind := h.behind
  have hwithin := h.within
  have hmul := Nat.mul_le_mul_right (blocks + 6) hl.sector_bounds.1
  have hend : c.layout.dataAddress (blocks + 8) = c.layout.dataClusters +
    c.layout.bytesPerSector.toNat * (blocks + 6) := rfl
  exact ⟨hstart, by omega, by omega⟩

/-- Each of the two files behind the application takes one cluster. -/
theorem next_bootVolume (hl : c.layout.Spread)
    (hblocks : (application.length + (c.layout.bytesPerSector.toNat - 1)) /
      c.layout.bytesPerSector.toNat = blocks) (kernelCluster diskCluster : U32) :
    Volume.next c.layout.bytesPerSector.toNat (bootVolume application
      (kernelInf c kernelSizeBytes) (diskDataInf c) kernelCluster diskCluster) = blocks + 8 := by
  have hsector := hl.sector_bounds.1
  obtain ⟨hkernel, hkernelLe⟩ := length_kernelInf c kernelSizeBytes
  obtain ⟨hdisk, hdiskLe⟩ := length_diskDataInf c
  rw [bootVolume, Volume.next_append, Volume.next_append, Volume.next_append,
    clusters_one (x := ⟨5, text "DISKDATAINF", _, _⟩) rfl hdisk (by omega),
    clusters_one (x := ⟨5, text "KERNEL  INF", _, _⟩) rfl hkernel (by omega), Created.clusters]
  simp only [hblocks]
  change 6 + blocks + 1 + 1 = _
  omega

/-- The application lies in the image. -/
theorem application_inside (hl : c.layout.Roomy blocks)
    (hblocks : (application.length + (c.layout.bytesPerSector.toNat - 1)) /
      c.layout.bytesPerSector.toNat = blocks) :
    c.layout.dataAddress 6 + application.length ≤ c.layout.size ∧
      (requiredNewClusters c.layout.bytesPerSector
        ((BitVec.ofNat 32 application.length).setWidth 64)).toNat = blocks := by
  obtain ⟨k, hk, hpow⟩ := hl.spread.sector
  have hsector := hl.spread.sector_bounds.1
  have hroom := hl.room
  have hsize := hl.spread.size
  have hlength := length_le_clusters (m := c.layout.bytesPerSector.toNat)
    (x := ⟨4, text "BOOTX64 EFI", some application, 6⟩) (by omega) rfl
  have hend := c.layout.dataAddress_add_le (show 2 ≤ 6 by norm_num)
    (show 6 + blocks ≤ blocks + 8 by omega)
  simp only [Created.clusters, hblocks] at hlength
  refine ⟨by omega, ?_⟩
  rw [toNat_requiredNewClusters hpow, BitVec.toNat_ofNat, Nat.mod_eq_of_lt (by omega), ← hpow,
    hblocks]

/-- The partition is written within a span, and then holds the three files. -/
theorem writeEFISystemPartition_volume (hl : c.layout.Roomy blocks)
    (hstart : R.start ≤ c.layout.reservedSectors) (hstop : R.stop ≤ c.layout.size)
    (hmirror : MirrorHarmless c.layout blocks R.stop) (hdelivers : Delivers reads application)
    (happlication : application ≠ []) (hsize : efiSizeBytes.toNat = application.length)
    (hblocks : (application.length + (c.layout.bytesPerSector.toNat - 1)) /
      c.layout.bytesPerSector.toNat = blocks) (kernelSizeBytes : U64) :
    ∃ (kernelCluster diskCluster : U32) (image' : Image), HoldsVolume c (bootVolume application
        (kernelInf c kernelSizeBytes) (diskDataInf c) kernelCluster diskCluster) image'.bytes ∧
      ∀ outside, writeEFISystemPartition c reads efiSizeBytes kernelSizeBytes
          (emptyImage.within R outside) = .ok true (image'.within R outside) := by
  have hR := hmirror.covers hl.spread hstart
  have hprimary := hl.spread.primaryFAT
  have himage := hl.spread.size
  have hsector := hl.spread.sector_bounds.1
  have hbehind := hmirror.behind
  have hwithin := hmirror.within
  obtain ⟨hinside, hrequired⟩ := application_inside hl hblocks
  obtain ⟨hkernel, hkernelLe⟩ := length_kernelInf c kernelSizeBytes
  obtain ⟨hdisk, hdiskLe⟩ := length_diskDataInf c
  -- Every step returns.
  have hcleared : EmptyClusters c.layout emptyImage := fun _ _ _ => rfl
  obtain ⟨_, image₁, hreserved, h₁⟩ := writeReservedEntries_returns hl hcleared
  obtain ⟨efi, image₂, hefi, boot, image₃, hboot, flos, image₄, hflos, rfl, rfl, listing, h₄,
    hlen, hlen'⟩ := createPaths_returns hl h₁
  have haddress : getDataCluster c.layout image₄.currentFreeDataClusterIndex =
      c.layout.dataAddress 6 := by
    rw [hl.address (by rw [h₄.free]; omega) (by rw [h₄.free]; omega), h₄.free]
  obtain ⟨_, image₆, hfile, _, h₆⟩ := createFileEntryAfterWritingData_returns hl
    (h₄.write_behind hl haddress.ge application) (d := 4) (by decide) (by decide)
    (show IsShortName (text "BOOTX64 EFI") from ⟨rfl, by decide⟩) (by omega) hrequired (by omega)
  obtain ⟨_, image₇, hinf, _, h₇⟩ := createFAT32File_returns hl h₆ (by omega) (d := 5)
    (by decide) (by decide) (show IsShortName (text "KERNEL  INF") from ⟨rfl, by decide⟩) (by
      rw [Function.update_of_ne (by decide)]
      omega) hkernel (by omega) (by omega)
  obtain ⟨_, image₈, hdiskFile, _, -⟩ := createFAT32File_returns hl h₇ (by omega) (d := 5)
    (by decide) (by decide) (show IsShortName (text "DISKDATAINF") from ⟨rfl, by decide⟩) (by
      rw [Function.update_self, Function.update_of_ne (by decide), List.length_append,
        List.length_singleton]
      omega) hdisk (by omega) (by omega)
  obtain ⟨-, image₉, hmirrors⟩ := (writeMirrors_cases c.layout image₈).resolve_right
    fun h => h.1 (show _ ≤ _ by omega)
  obtain ⟨image', hsectors⟩ := writeReservedSectors_returns hl c image₉
  rw [← createFAT32File_eq (by omega)] at hfile
  -- The volume grows with each.
  have hempty := (Fresh.of_empty hl.spread (fun _ _ => rfl) rfl hreserved).stores hl.spread
  obtain ⟨hdirectories, hcreated⟩ := bootDirectories_stored hl.spread hR (by omega) hempty hefi
    hboot hflos
  obtain ⟨kernelCluster, diskCluster, hfiles, hentered⟩ := bootVolume_stored hl.spread hR
    hdirectories happlication (List.length_pos_iff.mp hkernel) (List.length_pos_iff.mp hdisk)
    ⟨by omega, by omega, by omega⟩ (next_bootVolume hl.spread hblocks 0 0).le hfile hinf hdiskFile
  refine ⟨kernelCluster, diskCluster, image', ⟨writeReservedSectors_bootSector hl.spread hsectors,
    image₈, hfiles, fun a hge hlt => ?_⟩, fun outside => ?_⟩
  · rw [next_bootVolume hl.spread hblocks] at hlt
    rw [(writeReservedSectors_eq_ok hl.spread hsectors).2.1 a hge]
    exact writeMirrors_before hmirrors (by omega)
  -- And none of the steps sees what lies outside of the span.
  · obtain ⟨hefi, hboot, hflos⟩ := hcreated outside
    obtain ⟨hfile, hinf, hdiskFile⟩ := hentered outside
    have haddress : getDataCluster c.layout
        (image₄.within R outside).currentFreeDataClusterIndex = c.layout.dataAddress 6 := haddress
    have hreserved := @commutes_writeReservedEntries R outside _ _
      (hR.links (m := 3) (i := 0) (by omega) hl.spread) _ _ hreserved
    have hread := @readEFIApplication_delivers _ _ (image₄.within R outside) _ _ hdelivers hinside
    have hmirrors := @commutes_writeMirrors R outside _ _ _ ⟨by omega, by omega⟩
      ⟨by omega, by omega⟩ _ _ hmirrors
    have hsectors := @commutes_writeReservedSectors R outside _ _ hl.spread c
      ⟨hstart, by omega⟩ _ _ hsectors
    rw [createFAT32File_eq (by omega), haddress] at hfile
    simp only [writeEFISystemPartition]
    rw [bind_of_ok hreserved, bind_of_ok hefi, bind_of_ok hboot, bind_of_ok hflos, get_bind,
      haddress, hsize, bind_of_ok hread]
    simp only
    rw [bind_of_ok hfile, bind_of_ok hinf, bind_of_ok hdiskFile, bind_of_ok hmirrors,
      bind_of_ok hsectors]
    rfl

/-! ## The files -/

section Files

variable {kernelInf diskDataInf : List U8} {kernelCluster diskCluster d : U32} {bytes : Nat → U8}

/-- The names in the directories of the volume. -/
theorem listing_bootVolume :
    let v := bootVolume application kernelInf diskDataInf kernelCluster diskCluster
    v.directories = [2, 3, 4, 5] ∧ (v.listing 2).map DirEntry.name = [text "EFI        "] ∧
      (v.listing 3).map DirEntry.name =
        [text ".          ", text "..         ", text "BOOT       ", text "FLOS       "] ∧
      (v.listing 4).map DirEntry.name =
        [text ".          ", text "..         ", text "BOOTX64 EFI"] ∧
      (v.listing 5).map DirEntry.name =
        [text ".          ", text "..         ", text "KERNEL  INF", text "DISKDATAINF"] :=
  ⟨rfl, rfl, rfl, rfl, rfl⟩

/-- No name begins with a zero. -/
theorem used_bootVolume {e : DirEntry}
    (hd : d ∈ (bootVolume application kernelInf diskDataInf kernelCluster diskCluster).directories)
    (he : e ∈ (bootVolume application kernelInf diskDataInf kernelCluster diskCluster).listing d) :
    e.name.head? ≠ some 0 := by
  obtain ⟨hdirectories, h₂, h₃, h₄, h₅⟩ := @listing_bootVolume application kernelInf diskDataInf
    kernelCluster diskCluster
  have hmem := List.mem_map_of_mem (f := DirEntry.name) he
  rw [hdirectories] at hd
  simp only [List.mem_cons, List.not_mem_nil, or_false] at hd
  have hused : ∀ name ∈ [text "EFI        ", text ".          ", text "..         ",
    text "BOOT       ", text "FLOS       ", text "BOOTX64 EFI", text "KERNEL  INF",
    text "DISKDATAINF"], name.head? ≠ some 0 := by decide
  rcases hd with rfl | rfl | rfl | rfl
  · rw [h₂] at hmem
    exact hused _ (by grind)
  · rw [h₃] at hmem
    exact hused _ (by grind)
  · rw [h₄] at hmem
    exact hused _ (by grind)
  · rw [h₅] at hmem
    exact hused _ (by grind)

/-- A driver reads the three files. -/
theorem HoldsVolume.readFiles (hl : c.layout.Spread)
    (hFAT : c.efi.FATSize32Sectors.toNat * c.efi.bytesPerSector.toNat =
      c.layout.FATSizeBytes.toNat)
    (h : HoldsVolume c (bootVolume application kernelInf diskDataInf kernelCluster diskCluster)
      bytes) :
    readFile bytes c.layout.reservedSectors [text "EFI        ", text "BOOT       "]
        (text "BOOTX64 EFI") = some application ∧
      readFile bytes c.layout.reservedSectors [text "EFI        ", text "FLOS       "]
        (text "KERNEL  INF") = some kernelInf ∧
      readFile bytes c.layout.reservedSectors [text "EFI        ", text "FLOS       "]
        (text "DISKDATAINF") = some diskDataInf := by
  obtain ⟨hsector, image, hstores, hsame⟩ := h
  have hg := describes_bootSector hl hFAT hsector
  have hused : ∀ d ∈ (bootVolume application kernelInf diskDataInf kernelCluster
      diskCluster).directories, ∀ e ∈ Volume.listing _ d, e.name.head? ≠ some 0 :=
    fun _ hd _ he => used_bootVolume hd he
  have hmem {x : Created} (hx : x ∈ [⟨4, text "BOOTX64 EFI", some application, 6⟩,
      ⟨5, text "KERNEL  INF", some kernelInf, kernelCluster⟩,
      ⟨5, text "DISKDATAINF", some diskDataInf, diskCluster⟩]) :
      x ∈ bootVolume application kernelInf diskDataInf kernelCluster diskCluster :=
    List.mem_append_right bootDirectories hx
  refine ⟨?_, ?_, ?_⟩
  · exact hstores.readFile_eq hl hg hsame hused (hmem (List.mem_cons_self ..)) rfl rfl rfl
  · exact hstores.readFile_eq hl hg hsame hused
      (hmem (List.mem_cons_of_mem _ (List.mem_cons_self ..))) rfl rfl rfl
  · exact hstores.readFile_eq hl hg hsame hused
      (hmem (List.mem_cons_of_mem _ (List.mem_cons_of_mem _ (List.mem_cons_self ..)))) rfl rfl rfl

end Files

end Partition

end Homegrown.ImageBuilder
