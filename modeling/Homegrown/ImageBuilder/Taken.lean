import Homegrown.ImageBuilder.FreeClusters
import Homegrown.ImageBuilder.Within

/-!
# The clusters that a run takes

`allocatedClusters` lists what the requests of `writeEFISystemPartition` come to. A run that
returns makes just these requests, one after the other: the clusters it has taken are those of the
list (`mem_allocatedClusters_of_written`), and they are data clusters exactly when the plan has as
many (`dataClustersFit_of_written_iff`).
-/

namespace Homegrown.ImageBuilder

section Steps

variable {l : Layout} {image image' : Image} {name : List U8} {d : U32}

/-- Reading an application takes no cluster, and returns as many bytes as were asked for. -/
theorem readEFIApplication_eq_ok {reads : List (Option (List U8))} {buffer left : Nat}
    {application : List U8}
    (hrun : readEFIApplication l reads buffer left image = .ok (some application) image') :
    application.length = left ∧
      image'.currentFreeDataClusterIndex = image.currentFreeDataClusterIndex := by
  rcases readEFIApplication_le hrun with rfl | hfits
  · unfold readEFIApplication at hrun
    rw [if_pos rfl, pure_eq_ok] at hrun
    obtain ⟨happlication, rfl⟩ := hrun
    rw [← Option.some.inj happlication]
    exact ⟨rfl, rfl⟩
  · have hsame : image.currentFreeDataClusterIndex = image.currentFreeDataClusterIndex := rfl
    rcases readEFIApplication_cases
      (P := fun i => i.currentFreeDataClusterIndex = image.currentFreeDataClusterIndex)
      (fun _ _ _ _ h => h) reads hsame (Nat.zero_le buffer) hfits with
      ⟨_, hread⟩ | ⟨_, hread⟩ | ⟨found, _, hread, hlength, hsame⟩
    · cases hrun.symm.trans hread
    · cases hrun.symm.trans hread
    · cases hrun.symm.trans hread
      exact ⟨hlength, hsame⟩

/-- A file takes the clusters that its size requires. -/
theorem createFileEntryAfterWritingData_takes (hl : l.Spread) {contents : List U8}
    (hlt : image.currentFreeDataClusterIndex.toNat < 2 ^ 30)
    (hrun : createFileEntryAfterWritingData l name d contents image = .ok () image') :
    image'.currentFreeDataClusterIndex.toNat = image.currentFreeDataClusterIndex.toNat +
        (requiredNewClusters l.bytesPerSector
          ((BitVec.ofNat 32 contents.length).setWidth 64)).toNat ∧
      image'.currentFreeDataClusterIndex.toNat < 2 ^ 30 := by
  simp only [createFileEntryAfterWritingData, writeFileEntry, bind_eq_ok, get_eq_ok, modify_eq_ok,
    write_eq_ok] at hrun
  obtain ⟨location, image₁, hlocation, _, _, ⟨_, _, ⟨rfl, rfl⟩, -, rfl⟩, created, image₂, hcreate,
    rfl⟩ := hrun
  obtain ⟨rfl, -⟩ := getNewFileEntryLocationFrom_place hlocation
  obtain ⟨rfl, hcursor, -, -, hlt', -⟩ :=
    createContiguousSpaceForNewEntry_eq_ok hl (by exact hlt) hcreate
  exact ⟨hcursor, hlt'⟩

/-- So does one whose contents are written with it. -/
theorem createFAT32File_takes (hl : l.Spread) {contents : List U8}
    (hlt : image.currentFreeDataClusterIndex.toNat < 2 ^ 30)
    (hrun : createFAT32File l name d contents image = .ok () image') :
    image'.currentFreeDataClusterIndex.toNat = image.currentFreeDataClusterIndex.toNat +
        (requiredNewClusters l.bytesPerSector
          ((BitVec.ofNat 32 contents.length).setWidth 64)).toNat ∧
      image'.currentFreeDataClusterIndex.toNat < 2 ^ 30 := by
  simp only [createFAT32File, bind_eq_ok, get_eq_ok, write_eq_ok] at hrun
  obtain ⟨_, _, ⟨rfl, rfl⟩, _, _, ⟨-, rfl⟩, hrun⟩ := hrun
  have htakes := createFileEntryAfterWritingData_takes hl (by exact hlt) hrun
  exact htakes

/-- The copies of the first FAT take no cluster. -/
theorem writeMirrors_takes {copies location : Nat}
    (hrun : writeMirrors l copies location image = .ok () image') :
    image'.currentFreeDataClusterIndex = image.currentFreeDataClusterIndex := by
  induction copies generalizing location image with
  | zero =>
    obtain ⟨-, rfl⟩ := pure_eq_ok.mp hrun
    rfl
  | succ copies ih =>
    rw [writeMirrors, bind_eq_ok] at hrun
    obtain ⟨_, image₁, hcopy, hrest⟩ := hrun
    rw [ih hrest]
    rw [memcpy] at hcopy
    split at hcopy
    · rw [← modify_eq_ok.mp hcopy]
    · exact (throw_eq_ok.mp hcopy).elim

end Steps

section Run

variable {c : Configuration} {reads : List (Option (List U8))} {efiSizeBytes kernelSizeBytes : U64}
  {image image' : Image} {k j : Nat}

/-- A run that returns copied the first FAT within the image. -/
theorem mirrorInside_of_written
    (hrun : writeEFISystemPartition c reads efiSizeBytes kernelSizeBytes image = .ok true image') :
    MirrorInside c.layout := by
  simp only [writeEFISystemPartition, bind_eq_ok] at hrun
  obtain ⟨_, _, -, _, _, -, _, _, -, _, _, -, _, _, -, application, _, -, hrest⟩ := hrun
  cases application with
  | none => simp at hrest
  | some application =>
    simp only [bind_eq_ok] at hrest
    obtain ⟨_, _, -, _, _, -, _, image₁, -, _, _, hcopies, -⟩ := hrest
    refine (writeMirrors_cases c.layout image₁).elim And.left fun hfails => ?_
    cases hcopies.symm.trans hfails.2

/-- A run that returns takes six clusters besides those of the application and of the reserved
entries. -/
theorem written_takes (hl : c.layout.Roomy 0) (hb : IsTwoPow c.layout.bytesPerSector k)
    (hempty : EmptyClusters c.layout image)
    (hrun : writeEFISystemPartition c reads efiSizeBytes kernelSizeBytes image = .ok true image') :
    image'.currentFreeDataClusterIndex.toNat =
      8 + (efiSizeBytes.toNat % 2 ^ 32 + (2 ^ k - 1)) / 2 ^ k := by
  have hsector := hl.spread.sector_bounds.1
  obtain ⟨hkernel, hkernelLe⟩ := length_kernelInf c kernelSizeBytes
  obtain ⟨hdisk, hdiskLe⟩ := length_diskDataInf c
  have hinf := toNat_requiredNewClusters_one hb hkernel (by rw [← hb]; omega)
  have hdata := toNat_requiredNewClusters_one hb hdisk (by rw [← hb]; omega)
  have hrequired := toNat_requiredNewClusters hb (efiSizeBytes.setWidth 32)
  rw [BitVec.toNat_setWidth] at hrequired
  -- The directories are always created alike.
  obtain ⟨_, image₁, hreserved, h₁⟩ := writeReservedEntries_returns hl hempty
  obtain ⟨efi, image₂, hefi, boot, image₃, hboot, flos, image₄, hflos, rfl, rfl, listing, h₄, -⟩ :=
    createPaths_returns hl h₁
  rw [writeEFISystemPartition, bind_of_ok hreserved, bind_of_ok hefi, bind_of_ok hboot,
    bind_of_ok hflos, get_bind, bind_eq_ok] at hrun
  obtain ⟨application, image₅, hread, hrest⟩ := hrun
  cases application with
  | none => simp at hrest
  | some application =>
    simp only [bind_eq_ok, pure_eq_ok] at hrest
    obtain ⟨_, image₆, hfile, _, image₇, hkernelInf, _, image₈, hdiskDataInf, _, image₉, hcopies, _,
      _, hsectors, -, rfl⟩ := hrest
    obtain ⟨hlength, h₅⟩ := readEFIApplication_eq_ok hread
    have hsize : BitVec.ofNat 32 application.length = efiSizeBytes.setWidth 32 := by
      rw [hlength]
      exact BitVec.ofNat_toNat ..
    have hsix := h₄.free
    rw [← h₅] at hsix
    obtain ⟨h₆, hlt₆⟩ := createFileEntryAfterWritingData_takes hl.spread (by omega) hfile
    obtain ⟨h₇, hlt₇⟩ := createFAT32File_takes hl.spread hlt₆ hkernelInf
    obtain ⟨h₈, -⟩ := createFAT32File_takes hl.spread hlt₇ hdiskDataInf
    rw [(writeReservedSectors_eq_ok hl.spread hsectors).1, writeMirrors_takes hcopies, h₈, h₇, h₆,
      hsize, hrequired, hinf, hdata, hsix]
    omega

end Run

section Planned

variable {LBASizeBytes : U16} {alignmentSizeBytes : U32} {efiSizeBytes : U64} {k j : Nat}
  {reads : List (Option (List U8))} {kernelSizeBytes : U64} {image image' : Image}

/-- A run that returns has room for the directories. -/
theorem roomy_of_written (hL : IsTwoPow LBASizeBytes k) (hk : 9 ≤ k)
    (ha : IsTwoPow alignmentSizeBytes j) :
    let c := setConfiguration LBASizeBytes efiSizeBytes kernelSizeBytes alignmentSizeBytes
    writeEFISystemPartition c reads efiSizeBytes kernelSizeBytes image = .ok true image' →
      c.layout.Roomy 0 := by
  intro c hrun
  have hsize := efiSizeBytes_lt size_setConfiguration hrun
  obtain ⟨hl, -, hentries⟩ := spread_setConfiguration kernelSizeBytes hL hk ha hsize
  have hinside : c.layout.primaryFAT + 5 * c.layout.FATSizeBytes.toNat ≤ c.layout.size :=
    mirrorInside_of_written hrun
  have hdata : c.layout.dataClusters = c.layout.primaryFAT + 2 * c.layout.FATSizeBytes.toNat :=
    hl.dataClusters
  have hclusters : 65526 ≤ c.efi.dataClustersCount.toNat := by
    have halign := isTwoPow_alignmentInLBA hL ha
    have hplanned := plannedClusters_lt hL hk ha hsize
    refine le_trans ?_ (toNat_dataClustersCount halign (hplanned.trans (by norm_num))).ge
    exact (le_max_left _ _).trans (le_roundUp (by positivity))
  have hsector := c.layout.bytesPerSector.isLt
  change 4 * c.efi.dataClustersCount.toNat ≤ c.layout.FATSizeBytes.toNat at hentries
  refine ⟨hl, by omega, ?_⟩
  change c.layout.dataClusters + c.layout.bytesPerSector.toNat * 6 ≤ _
  omega

/-- The clusters that a run has taken when it returns are those of the list, and the next one is
the first free one. -/
theorem mem_allocatedClusters_of_written (hL : IsTwoPow LBASizeBytes k) (hk : 9 ≤ k)
    (ha : IsTwoPow alignmentSizeBytes j) :
    let c := setConfiguration LBASizeBytes efiSizeBytes kernelSizeBytes alignmentSizeBytes
    EmptyClusters c.layout image →
      writeEFISystemPartition c reads efiSizeBytes kernelSizeBytes image = .ok true image' →
        ∀ i : U32, i ∈ allocatedClusters c efiSizeBytes kernelSizeBytes ↔
          rootClusterFATIndex.toNat ≤ i.toNat ∧
            i.toNat < image'.currentFreeDataClusterIndex.toNat := by
  intro c hempty hrun i
  rw [mem_allocatedClusters hL hk, written_takes (roomy_of_written hL hk ha hrun) hL hempty hrun]
  rfl

/-- When a run returns, the clusters it has taken are data clusters exactly when those of the list
are. -/
theorem dataClustersFit_of_written_iff (hL : IsTwoPow LBASizeBytes k) (hk : 9 ≤ k)
    (ha : IsTwoPow alignmentSizeBytes j) :
    let c := setConfiguration LBASizeBytes efiSizeBytes kernelSizeBytes alignmentSizeBytes
    EmptyClusters c.layout image →
      writeEFISystemPartition c reads efiSizeBytes kernelSizeBytes image = .ok true image' →
        (DataClustersFit c image' ↔ ∀ i ∈ allocatedClusters c efiSizeBytes kernelSizeBytes,
          i.toNat < reservedClusterIndices.toNat + c.efi.dataClustersCount.toNat) := by
  intro c hempty hrun
  have hreserved : reservedClusterIndices.toNat = 2 := rfl
  rw [hreserved, allocatedClusters_lt_iff (c := c) hL hk, DataClustersFit,
    written_takes (roomy_of_written hL hk ha hrun) hL hempty hrun, hreserved]
  omega

end Planned

end Homegrown.ImageBuilder
