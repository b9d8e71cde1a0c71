import Homegrown.ImageBuilder.Fat
import Mathlib.Data.List.Basic
import Mathlib.Data.List.Pairwise

/-!
# A file system that only grows

What was created in a FAT32 file system, in the order of creation, with the directory each file
or directory was created in. The clusters of each begin where those of the one before end, and
its name was not in the directory before. From the list alone follow the contents of all
directories, that no two files share a cluster, and what a path leads to.
-/

namespace Homegrown.ImageBuilder

/-- A file that was created with its contents, or a directory. -/
structure Created where
  parent : U32
  name : List U8
  contents : Option (List U8)
  cluster : U32

/-- All that was created, in order. -/
abbrev Volume := List Created

/-- A directory entry. -/
structure DirEntry where
  name : List U8
  attributes : U8
  cluster : U32
  fileSize : U32

/-- The bytes of a directory entry. -/
def DirEntry.bytes (e : DirEntry) : List U8 :=
  dirEntryShortName e.name e.attributes e.cluster e.fileSize

/-- The name of a file or directory: not the one that marks the end of a directory. -/
structure IsShortName (name : List U8) : Prop where
  length : name.length = fat32ShortNameLen
  ne_zero : name ≠ zeroName

/-- The entry of a directory. -/
def directoryEntry (name : List U8) (cluster : U32) : DirEntry :=
  ⟨name, fat32DirectoryAttributes, cluster, 0⟩

namespace Created

/-- The clusters of a file or directory, for sectors of `b` bytes. -/
def clusters (b : Nat) (x : Created) : Nat :=
  match x.contents with
  | none => 1
  | some data => (data.length + (b - 1)) / b

/-- The entry for a file or directory. -/
def entry (x : Created) : DirEntry :=
  match x.contents with
  | none => directoryEntry x.name x.cluster
  | some data => ⟨x.name, fat32FileAttributes, x.cluster, BitVec.ofNat 32 data.length⟩

@[simp] theorem entry_name (x : Created) : x.entry.name = x.name := by
  cases h : x.contents <;> simp [entry, directoryEntry, h]

@[simp] theorem entry_cluster (x : Created) : x.entry.cluster = x.cluster := by
  cases h : x.contents <;> simp [entry, directoryEntry, h]

theorem entry_attributes (x : Created) :
    x.entry.attributes = fat32DirectoryAttributes ↔ x.contents = none := by
  cases h : x.contents <;> simp [entry, directoryEntry, h, fat32DirectoryAttributes,
    fat32FileAttributes]

theorem clusters_pos {b : Nat} (hb : 0 < b) {x : Created} (h : x.contents ≠ some []) :
    0 < x.clusters b := by
  cases hc : x.contents with
  | none => simp [clusters, hc]
  | some data =>
    rw [clusters, hc]
    rw [hc] at h
    have hpos : 0 < data.length := List.length_pos_iff.mpr fun h0 => h (by rw [h0])
    exact Nat.div_pos (by omega) hb

end Created

namespace Volume

/-- The first cluster that is free. -/
def next (b : Nat) (v : Volume) : Nat := 3 + (v.map (Created.clusters b)).sum

/-- The clusters of all directories, the root directory first. -/
def directories (v : Volume) : List U32 :=
  rootClusterFATIndex :: (v.filter fun x => x.contents.isNone).map Created.cluster

/-- The directory that a directory was created in. -/
def parentOf (v : Volume) (d : U32) : U32 :=
  ((v.find? fun x => x.contents.isNone && x.cluster == d).map Created.parent).getD
    rootClusterFATIndex

/-- The two entries that a directory starts with, unless it is the root directory. -/
def links (v : Volume) (d : U32) : List DirEntry :=
  if d = rootClusterFATIndex then []
  else [directoryEntry (text ".          ") d,
    directoryEntry (text "..         ") (v.parentOf d)]

/-- What was created in a directory. -/
def createdIn (v : Volume) (d : U32) : List Created := v.filter fun x => x.parent == d

/-- The entries of a directory. -/
def listing (v : Volume) (d : U32) : List DirEntry :=
  v.links d ++ (v.createdIn d).map Created.entry

/-- Each was created with a new name in a directory, in the clusters that were free next. -/
inductive Grown (b : Nat) : Volume → Prop where
  | nil : Grown b []
  | snoc {v : Volume} {x : Created} (grown : Grown b v) (parent : x.parent ∈ v.directories)
      (short : IsShortName x.name) (new : ∀ e ∈ v.listing x.parent, e.name ≠ x.name)
      (written : x.contents ≠ some []) (free : x.cluster.toNat = v.next b) :
      Grown b (v ++ [x])

/-- What a path leads to. -/
def resolve (v : Volume) : List (List U8) → U32 → Option U32
  | [], d => some d
  | name :: names, d =>
    match (v.listing d).find? fun e => e.name = name with
    | none => none
    | some e =>
      if e.attributes = fat32DirectoryAttributes then v.resolve names e.cluster else none

section Grown

variable {b : Nat} {v : Volume} {x y : Created} {d : U32}

@[simp] theorem next_append : next b (v ++ [x]) = v.next b + x.clusters b := by
  simp [next, Nat.add_assoc]

theorem mem_directories_append : d ∈ directories (v ++ [x]) ↔
    d ∈ v.directories ∨ (x.contents = none ∧ d = x.cluster) := by
  simp only [directories, List.filter_append, List.map_append, List.mem_cons, List.mem_append,
    List.mem_map, List.mem_filter, Option.isNone_iff_eq_none, List.not_mem_nil, or_false]
  constructor
  · rintro (h | h | ⟨_, ⟨rfl, hx⟩, rfl⟩)
    · exact .inl (.inl h)
    · exact .inl (.inr h)
    · exact .inr ⟨hx, rfl⟩
  · rintro ((h | h) | ⟨hx, rfl⟩)
    · exact .inl h
    · exact .inr (.inl h)
    · exact .inr (.inr ⟨x, ⟨rfl, hx⟩, rfl⟩)

theorem root_mem_directories : rootClusterFATIndex ∈ v.directories := List.mem_cons_self ..

theorem Grown.clusters_pos (h : v.Grown b) (hb : 0 < b) (hx : x ∈ v) : 0 < x.clusters b := by
  induction h with
  | nil => cases hx
  | snoc _ _ _ _ written _ ih =>
    rcases List.mem_append.mp hx with hx | hx
    · exact ih hx
    · rw [List.mem_singleton.mp hx]
      exact Created.clusters_pos hb written

theorem Grown.short (h : v.Grown b) (hx : x ∈ v) : IsShortName x.name := by
  induction h with
  | nil => cases hx
  | snoc _ _ short _ _ _ ih =>
    rcases List.mem_append.mp hx with hx | hx
    · exact ih hx
    · rwa [List.mem_singleton.mp hx]

/-- The clusters lie before the first free one, and after the reserved ones and the root. -/
theorem Grown.bounds (h : v.Grown b) (hx : x ∈ v) :
    3 ≤ x.cluster.toNat ∧ x.cluster.toNat + x.clusters b ≤ v.next b := by
  induction h with
  | nil => cases hx
  | @snoc v y _ _ _ _ _ free ih =>
    rw [next_append]
    rcases List.mem_append.mp hx with hx | hx
    · have hle := ih hx
      omega
    · rw [List.mem_singleton.mp hx, free]
      exact ⟨Nat.le_add_right .., le_rfl⟩

/-- The clusters of what was created later are later ones. -/
theorem Grown.ordered (h : v.Grown b) :
    v.Pairwise fun x y => x.cluster.toNat + x.clusters b ≤ y.cluster.toNat := by
  induction h with
  | nil => exact List.Pairwise.nil
  | @snoc v y grown _ _ _ _ free ih =>
    rw [List.pairwise_append]
    refine ⟨ih, List.pairwise_singleton _ _, fun x hx z hz => ?_⟩
    rw [List.mem_singleton.mp hz, free]
    exact (grown.bounds hx).2

theorem Grown.directory_lt (h : v.Grown b) (hb : 0 < b) (hd : d ∈ v.directories) :
    2 ≤ d.toNat ∧ d.toNat < v.next b := by
  rcases List.mem_cons.mp hd with rfl | hd
  · exact ⟨le_rfl, Nat.lt_of_lt_of_le (by decide) (Nat.le_add_right 3 _)⟩
  · obtain ⟨x, hx, rfl⟩ := List.mem_map.mp hd
    have hmem := (List.mem_filter.mp hx).1
    have hbounds := h.bounds hmem
    have hpos := h.clusters_pos hb hmem
    omega

/-- Everything was created in a directory. -/
theorem Grown.parent_mem (h : v.Grown b) (hx : x ∈ v) : x.parent ∈ v.directories := by
  induction h with
  | nil => cases hx
  | snoc _ parent _ _ _ _ ih =>
    rw [mem_directories_append]
    rcases List.mem_append.mp hx with hx | hx
    · exact .inl (ih hx)
    · rw [List.mem_singleton.mp hx]
      exact .inl parent

/-- The clusters of any two lie apart. -/
theorem Grown.apart (h : v.Grown b) (hx : x ∈ v) (hy : y ∈ v) (hne : x ≠ y) :
    x.cluster.toNat + x.clusters b ≤ y.cluster.toNat ∨
      y.cluster.toNat + y.clusters b ≤ x.cluster.toNat := by
  have hsymm : Std.Symm fun x y : Created => x.cluster.toNat + x.clusters b ≤ y.cluster.toNat ∨
      y.cluster.toNat + y.clusters b ≤ x.cluster.toNat := ⟨fun _ _ => Or.symm⟩
  have hapart : v.Pairwise fun x y => x.cluster.toNat + x.clusters b ≤ y.cluster.toNat ∨
      y.cluster.toNat + y.clusters b ≤ x.cluster.toNat := h.ordered.imp Or.inl
  exact hapart.forall hx hy hne

theorem Grown.nodup (h : v.Grown b) (hb : 0 < b) : v.Nodup := by
  refine h.ordered.imp_of_mem fun {x y} hx _ hle heq => ?_
  have hpos := h.clusters_pos hb hx
  rw [heq] at hle hpos
  omega

/-- A directory is no cluster of a file. -/
theorem Grown.directory_apart (h : v.Grown b) (hb : 0 < b) (hd : d ∈ v.directories) (hx : x ∈ v)
    (hfile : x.contents ≠ none) :
    x.cluster.toNat + x.clusters b ≤ d.toNat ∨ d.toNat + 1 ≤ x.cluster.toNat := by
  rcases List.mem_cons.mp hd with rfl | hd
  · exact .inr (h.bounds hx).1
  · obtain ⟨y, hy, rfl⟩ := List.mem_map.mp hd
    obtain ⟨hmem, hdir⟩ := List.mem_filter.mp hy
    have hne : x ≠ y := by
      rintro rfl
      exact hfile (Option.isNone_iff_eq_none.mp hdir)
    have hpos := h.clusters_pos hb hmem
    rcases h.apart hx hmem hne with hle | hle
    · exact .inl hle
    · exact .inr (by omega)

/-- The parent of a directory is a directory. -/
theorem Grown.parentOf_mem (h : v.Grown b) (d : U32) : v.parentOf d ∈ v.directories := by
  rw [parentOf]
  cases hf : v.find? fun x => x.contents.isNone && x.cluster == d with
  | none => exact root_mem_directories
  | some x => exact h.parent_mem (List.mem_of_find?_eq_some hf)

theorem parentOf_append (hd : d ∈ v.directories) (hroot : d ≠ rootClusterFATIndex) :
    parentOf (v ++ [x]) d = v.parentOf d := by
  obtain ⟨y, hy, rfl⟩ := List.mem_map.mp ((List.mem_cons.mp hd).resolve_left hroot)
  obtain ⟨hmem, hdir⟩ := List.mem_filter.mp hy
  rw [parentOf, parentOf, List.find?_append]
  cases hf : v.find? fun x => x.contents.isNone && x.cluster == y.cluster with
  | none =>
    have hno := List.find?_eq_none.mp hf y hmem
    rw [hdir, beq_self_eq_true] at hno
    exact absurd rfl hno
  | some z => rfl

/-- A directory lists what is created in it, after what it listed before. -/
theorem listing_append (hd : d ∈ v.directories) :
    listing (v ++ [x]) d = v.listing d ++ if x.parent = d then [x.entry] else [] := by
  have hlinks : links (v ++ [x]) d = v.links d := by
    unfold links
    split
    · rfl
    · rename_i hroot
      rw [parentOf_append hd hroot]
  have hcreated : createdIn (v ++ [x]) d = v.createdIn d ++ if x.parent = d then [x] else [] := by
    rw [createdIn, createdIn, List.filter_append]
    by_cases hp : x.parent = d <;> simp [hp]
  rw [listing, listing, hlinks, hcreated, List.map_append, List.append_assoc]
  split <;> rfl

/-- A new directory lists itself and its parent. -/
theorem Grown.listing_new (h : v.Grown b) (hb : 0 < b) (hparent : x.parent ∈ v.directories)
    (hfree : x.cluster.toNat = v.next b) (hdir : x.contents = none) :
    listing (v ++ [x]) x.cluster = [directoryEntry (text ".          ") x.cluster,
      directoryEntry (text "..         ") x.parent] := by
  have hroot : x.cluster ≠ rootClusterFATIndex := by
    rintro he
    have hnat := congrArg BitVec.toNat he
    rw [hfree, next] at hnat
    change 3 + _ = 2 at hnat
    omega
  have hfind : v.find? (fun y => y.contents.isNone && y.cluster == x.cluster) = none := by
    rw [List.find?_eq_none]
    intro y hy hcond
    rw [Bool.and_eq_true, beq_iff_eq] at hcond
    have hbounds := h.bounds hy
    have hpos := h.clusters_pos hb hy
    rw [hcond.2] at hbounds
    omega
  have hnone : createdIn (v ++ [x]) x.cluster = [] := by
    rw [createdIn, List.filter_eq_nil_iff]
    intro y hy hcond
    have hdirectory : y.parent ∈ v.directories := by
      rcases List.mem_append.mp hy with hy | hy
      · exact h.parent_mem hy
      · rwa [List.mem_singleton.mp hy]
    have hlt := h.directory_lt hb hdirectory
    rw [eq_of_beq hcond] at hlt
    omega
  rw [listing, hnone, links, if_neg hroot, parentOf, List.find?_append, hfind]
  simp [hdir]

/-- The entry of a directory leads to a directory. -/
theorem Grown.mem_directories_of_entry (h : v.Grown b) (hd : d ∈ v.directories) {e : DirEntry}
    (he : e ∈ v.listing d) (hattributes : e.attributes = fat32DirectoryAttributes) :
    e.cluster ∈ v.directories := by
  rcases List.mem_append.mp he with he | he
  · unfold links at he
    split at he
    · cases he
    · rcases List.mem_pair.mp he with rfl | rfl
      · exact hd
      · exact h.parentOf_mem d
  · obtain ⟨x, hx, rfl⟩ := List.mem_map.mp he
    have hmem := (List.mem_filter.mp hx).1
    rw [Created.entry_attributes] at hattributes
    rw [Created.entry_cluster]
    refine List.mem_cons_of_mem _ (List.mem_map_of_mem (List.mem_filter.mpr ⟨hmem, ?_⟩))
    rw [hattributes]
    rfl

/-- The names in a directory are short names. -/
theorem Grown.short_listing (h : v.Grown b) {e : DirEntry} (he : e ∈ v.listing d) :
    IsShortName e.name := by
  rcases List.mem_append.mp he with he | he
  · unfold links at he
    split at he
    · cases he
    · rcases List.mem_pair.mp he with rfl | rfl
      · exact ⟨rfl, show text ".          " ≠ zeroName by decide⟩
      · exact ⟨rfl, show text "..         " ≠ zeroName by decide⟩
  · obtain ⟨x, hx, rfl⟩ := List.mem_map.mp he
    rw [Created.entry_name]
    exact h.short (List.mem_filter.mp hx).1

/-! ## Paths -/

/-- What a path leads to stays the same when more is created. -/
theorem Grown.resolve_append (h : v.Grown b) {names : List (List U8)} {c : U32}
    (hd : d ∈ v.directories) (hr : v.resolve names d = some c) :
    resolve (v ++ [x]) names d = some c := by
  induction names generalizing d with
  | nil => exact hr
  | cons name names ih =>
    rw [resolve] at hr ⊢
    rw [listing_append hd, List.find?_append]
    cases hf : (v.listing d).find? fun e => e.name = name with
    | none => simp [hf] at hr
    | some e =>
      simp only [hf] at hr
      rw [Option.some_or]
      split at hr
      · rename_i hattributes
        simp only [hattributes, if_true]
        exact ih (h.mem_directories_of_entry hd (List.mem_of_find?_eq_some hf) hattributes) hr
      · cases hr

theorem directories_mono {w : Volume} (hp : v <+: w) (hd : d ∈ v.directories) :
    d ∈ w.directories := by
  obtain ⟨t, rfl⟩ := hp
  rw [directories, List.filter_append, List.map_append, ← List.cons_append]
  exact List.mem_append_left _ hd

theorem Grown.resolve_prefix {w : Volume} (h : w.Grown b) (hp : v <+: w)
    {names : List (List U8)} {c : U32} (hd : d ∈ v.directories)
    (hr : v.resolve names d = some c) : w.resolve names d = some c := by
  induction h with
  | nil =>
    obtain rfl := List.prefix_nil.mp hp
    exact hr
  | snoc grown _ _ _ _ _ ih =>
    rcases List.prefix_concat_iff.mp hp with rfl | hp
    · exact hr
    · exact grown.resolve_append (directories_mono hp hd) (ih hp)

/-- A path leads on from where its first name leads to. -/
theorem resolve_cons {name : List U8} {names : List (List U8)} {c : U32}
    (h : v.resolve [name] d = some c) : v.resolve (name :: names) d = v.resolve names c := by
  rw [resolve] at h ⊢
  split at h
  · cases h
  · split at h
    · rename_i hattributes
      obtain rfl := Option.some.inj h
      exact if_pos hattributes
    · cases h

/-- A path leads to a directory. -/
theorem Grown.resolve_mem (h : v.Grown b) {names : List (List U8)} {c : U32}
    (hd : d ∈ v.directories) (hr : v.resolve names d = some c) : c ∈ v.directories := by
  induction names generalizing d with
  | nil =>
    obtain rfl := Option.some.inj hr
    exact hd
  | cons name names ih =>
    rw [resolve] at hr
    cases hf : (v.listing d).find? fun e => e.name = name with
    | none => simp [hf] at hr
    | some e =>
      simp only [hf] at hr
      split at hr
      · rename_i hattributes
        exact ih (h.mem_directories_of_entry hd (List.mem_of_find?_eq_some hf) hattributes) hr
      · cases hr

end Grown

end Volume

end Homegrown.ImageBuilder
