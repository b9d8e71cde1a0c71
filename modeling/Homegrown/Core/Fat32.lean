import Homegrown.Core.LittleEndian

/-!
# Reading a FAT32 volume

A driver finds its way through a FAT32 volume with the numbers in the boot sector. The entries of
the first FAT link the clusters of a file, and a directory is a file of records, up to the first
one that begins with a zero byte. Files whose clusters follow each other are read in one piece
(`Geometry.dataOf_consecutive`), and so are directories of one cluster
(`Geometry.records_slice`).
-/

namespace Homegrown.Fat32

/-- The bytes from an address on. -/
def slice (bytes : Nat → BitVec 8) (address n : Nat) : List (BitVec 8) :=
  (List.range n).map fun i => bytes (address + i)

/-- The number in so many bytes. -/
def number (bytes : Nat → BitVec 8) (address n : Nat) : Nat :=
  ofLittleEndian (slice bytes address n)

/-- Where the parts of a volume are. -/
structure Geometry where
  base : Nat
  bytesPerSector : Nat
  sectorsPerCluster : Nat
  reservedSectors : Nat
  numberOfFATs : Nat
  sectorsPerFAT : Nat
  rootCluster : Nat
  deriving DecidableEq, Repr

/-- What the boot sector says. -/
def Geometry.read (bytes : Nat → BitVec 8) (base : Nat) : Geometry where
  base
  bytesPerSector := number bytes (base + 11) 2
  sectorsPerCluster := number bytes (base + 13) 1
  reservedSectors := number bytes (base + 14) 2
  numberOfFATs := number bytes (base + 16) 1
  sectorsPerFAT := number bytes (base + 36) 4
  rootCluster := number bytes (base + 44) 4

/-- The bytes of a record of a directory. -/
def recordSize : Nat := 32

/-- The bytes of a name. -/
def nameSize : Nat := 11

/-- The file is a directory. -/
def isDirectory (record : List (BitVec 8)) : Bool := record.getD 11 0 &&& 0x10 != 0

/-- The first cluster of a file. -/
def clusterOf (record : List (BitVec 8)) : Nat :=
  ofLittleEndian ((record.drop 26).take 2 ++ (record.drop 20).take 2)

/-- The size of a file. -/
def fileSizeOf (record : List (BitVec 8)) : Nat := ofLittleEndian ((record.drop 28).take 4)

namespace Geometry

variable (g : Geometry) (bytes : Nat → BitVec 8)

/-- The bytes of a cluster. -/
def clusterSize : Nat := g.sectorsPerCluster * g.bytesPerSector

/-- Where the first FAT is. -/
def fatAddress : Nat := g.base + g.reservedSectors * g.bytesPerSector

/-- Where a cluster is. -/
def clusterAddress (n : Nat) : Nat :=
  g.fatAddress + g.numberOfFATs * g.sectorsPerFAT * g.bytesPerSector + (n - 2) * g.clusterSize

/-- The entry of a cluster. The high bits are reserved. -/
def link (n : Nat) : Nat := number bytes (g.fatAddress + 4 * n) 4 % 2 ^ 28

/-- The entries from here on end a chain. -/
def endOfChain : Nat := 0x0FFFFFF8

/-- The clusters from one on, as long as there are so many at most. -/
def clusters : Nat → Nat → Option (List Nat)
  | 0, _ => none
  | rounds + 1, n =>
    if endOfChain ≤ g.link bytes n then some [n]
    else (clusters rounds (g.link bytes n)).map (n :: ·)

/-- The data of clusters. -/
def dataOf (chain : List Nat) : List (BitVec 8) :=
  chain.flatMap fun n => slice bytes (g.clusterAddress n) g.clusterSize

/-- What is stored from a cluster on. No chain has more clusters than the FAT has entries. -/
def stored (n : Nat) : Option (List (BitVec 8)) :=
  (g.clusters bytes (g.sectorsPerFAT * g.bytesPerSector / 4) n).map (g.dataOf bytes)

/-- The records of a directory. -/
def records (data : List (BitVec 8)) : List (List (BitVec 8)) :=
  ((List.range (data.length / recordSize)).map fun i =>
    (data.drop (recordSize * i)).take recordSize).takeWhile fun record => record.head? != some 0

/-- The record with a name in a directory. -/
def find (name : List (BitVec 8)) (n : Nat) : Option (List (BitVec 8)) := do
  let data ← g.stored bytes n
  (records data).find? fun record => record.take nameSize = name

/-- What a path leads to from a directory. -/
def lookup : List (List (BitVec 8)) → List (BitVec 8) → Nat → Option (List (BitVec 8))
  | [], name, n => g.find bytes name n
  | directory :: directories, name, n => do
    let record ← g.find bytes directory n
    if isDirectory record then lookup directories name (clusterOf record) else none

end Geometry

/-- The contents of the file at a path, of the volume that starts at an address. -/
def readFile (bytes : Nat → BitVec 8) (base : Nat) (directories : List (List (BitVec 8)))
    (name : List (BitVec 8)) : Option (List (BitVec 8)) := do
  let g := Geometry.read bytes base
  let record ← g.lookup bytes directories name g.rootCluster
  let data ← g.stored bytes (clusterOf record)
  if isDirectory record then none else some (data.take (fileSizeOf record))

section Slices

variable {bytes bytes' : Nat → BitVec 8} {address n k : Nat}

/-- A slice has as many bytes as were asked for. -/
@[simp] theorem length_slice : (slice bytes address n).length = n := by
  rw [slice, List.length_map, List.length_range]

/-- A slice depends on its own bytes. -/
theorem slice_congr (h : ∀ a, address ≤ a → a < address + n → bytes' a = bytes a) :
    slice bytes' address n = slice bytes address n := by
  refine List.map_congr_left fun i hi => h _ (Nat.le_add_right _ _) ?_
  have hlt := List.mem_range.mp hi
  omega

/-- A longer slice is two slices, one behind the other. -/
theorem slice_add : slice bytes address (n + k) =
    slice bytes address n ++ slice bytes (address + n) k := by
  simp only [slice, List.range_add, List.map_append, List.map_map, Function.comp_def,
    Nat.add_assoc]

/-- A slice of a slice. -/
theorem slice_drop_take {size : Nat} (h : k + n ≤ size) :
    ((slice bytes address size).drop k).take n = slice bytes (address + k) n := by
  obtain ⟨rest, rfl⟩ := Nat.exists_eq_add_of_le h
  rw [slice_add, slice_add, List.append_assoc, List.drop_left' length_slice,
    List.take_left' length_slice]

/-- Pieces that follow each other are one piece. -/
theorem flatMap_slice (size : Nat) : (List.range n).flatMap (fun i =>
    slice bytes (address + i * size) size) = slice bytes address (n * size) := by
  induction n with
  | zero => simp [slice]
  | succ n ih =>
    rw [List.range_succ, List.flatMap_append, ih, List.flatMap_singleton, Nat.succ_mul, slice_add]

end Slices

namespace Geometry

variable {g : Geometry} {bytes bytes' : Nat → BitVec 8} {n k rounds : Nat}

/-- So many clusters from one on are linked to the next one each, and the last one is the end. -/
structure Consecutive (g : Geometry) (bytes : Nat → BitVec 8) (n k : Nat) : Prop where
  pos : 0 < k
  next : ∀ i, i + 1 < k → g.link bytes (n + i) = n + i + 1
  last : endOfChain ≤ g.link bytes (n + (k - 1))
  below : n + k ≤ endOfChain

/-- Clusters that follow each other form a chain. -/
theorem Consecutive.clusters_eq (h : g.Consecutive bytes n k) (hrounds : k ≤ rounds) :
    g.clusters bytes rounds n = some ((List.range k).map (n + ·)) := by
  induction k generalizing n rounds with
  | zero => exact absurd h.pos (lt_irrefl 0)
  | succ k ih =>
    obtain ⟨rounds, rfl⟩ := Nat.exists_eq_add_of_le' (Nat.one_le_of_lt hrounds)
    rw [clusters]
    rcases Nat.eq_zero_or_pos k with rfl | hk
    · have hlast : endOfChain ≤ g.link bytes n := h.last
      rw [if_pos hlast]
      rfl
    · have hfirst := h.next 0 (by omega)
      have hbelow := h.below
      rw [Nat.add_zero] at hfirst
      have hrest : g.Consecutive bytes (n + 1) k := by
        refine ⟨hk, fun i hi => ?_, ?_, by omega⟩
        · have hi' := h.next (i + 1) (by omega)
          rwa [show n + (i + 1) = n + 1 + i by omega] at hi'
        · have hlast := h.last
          rwa [show n + (k + 1 - 1) = n + 1 + (k - 1) by omega] at hlast
      rw [hfirst, if_neg (by omega), ih hrest (by omega), Option.map_some, List.range_succ_eq_map,
        List.map_cons, List.map_map, Nat.add_zero, Option.some.injEq, List.cons.injEq]
      exact ⟨rfl, List.map_congr_left fun i _ => show n + 1 + i = n + (i + 1) by omega⟩

/-- The data of clusters that follow each other is in one piece. -/
theorem dataOf_consecutive (hn : 2 ≤ n) : g.dataOf bytes ((List.range k).map (n + ·)) =
    slice bytes (g.clusterAddress n) (k * g.clusterSize) := by
  rw [dataOf, List.flatMap_map, ← flatMap_slice]
  refine List.flatMap_congr fun i _ => ?_
  rw [clusterAddress, clusterAddress, Nat.sub_add_comm hn, Nat.add_mul, ← Nat.add_assoc]

/-- What is stored in clusters that follow each other. -/
theorem Consecutive.stored_eq (h : g.Consecutive bytes n k) (hn : 2 ≤ n)
    (hk : k ≤ g.sectorsPerFAT * g.bytesPerSector / 4) :
    g.stored bytes n = some (slice bytes (g.clusterAddress n) (k * g.clusterSize)) := by
  rw [stored, h.clusters_eq hk, Option.map_some, dataOf_consecutive hn]

/-- The records of a directory are those that lie there, when none of them begins with a zero and
the one behind them does. -/
theorem records_slice {address size : Nat} {entries : List (List (BitVec 8))}
    (hlength : entries.length ≤ size / recordSize)
    (hentries : ∀ i (h : i < entries.length),
      slice bytes (address + recordSize * i) recordSize = entries[i])
    (hused : ∀ entry ∈ entries, entry.head? ≠ some 0)
    (hend : entries.length < size / recordSize →
      bytes (address + recordSize * entries.length) = 0) :
    records (slice bytes address size) = entries := by
  have hpiece (i : Nat) (hi : i < size / recordSize) :
      ((slice bytes address size).drop (recordSize * i)).take recordSize =
        slice bytes (address + recordSize * i) recordSize := by
    refine slice_drop_take ?_
    have hmul := Nat.mul_le_mul_left recordSize (Nat.succ_le_of_lt hi)
    have hdiv := Nat.mul_div_le size recordSize
    rw [Nat.mul_succ] at hmul
    omega
  obtain ⟨rest, hrest⟩ := Nat.exists_eq_add_of_le hlength
  have hfirst : (List.range entries.length).map (fun i =>
      ((slice bytes address size).drop (recordSize * i)).take recordSize) = entries := by
    refine List.ext_getElem (by simp) fun i hi hi' => ?_
    rw [List.getElem_map, List.getElem_range, hpiece i (by omega), hentries i hi']
  rw [records, length_slice, hrest, List.range_add, List.map_append, hfirst,
    List.takeWhile_append_of_pos fun entry hentry => by simpa using hused entry hentry]
  have hzero : ((List.map (entries.length + ·) (List.range rest)).map (fun i =>
      ((slice bytes address size).drop (recordSize * i)).take recordSize)).takeWhile
        (fun record => record.head? != some 0) = [] := by
    cases rest with
    | zero => rfl
    | succ rest =>
      rw [List.range_succ_eq_map, List.map_cons, List.map_cons, Nat.add_zero,
        hpiece _ (by omega), List.takeWhile_cons, if_neg]
      have hbyte : bytes (address + recordSize * entries.length) = 0 := hend (by omega)
      have hhead : (slice bytes (address + recordSize * entries.length) recordSize).head? =
          some (bytes (address + recordSize * entries.length)) := by
        rw [recordSize, slice, List.range_succ_eq_map, List.map_cons, List.head?_cons, Nat.add_zero]
      rw [hhead, hbyte]
      decide
  rw [hzero, List.append_nil]

end Geometry

end Homegrown.Fat32
