import Homegrown.Core.Bytes
import Homegrown.Shared.Maths

/-!
# The root pointer of ACPI

`getRSDP` goes through the configuration tables of the firmware and returns at the first
valid pointer of revision 2; one of revision 1 is remembered meanwhile. What a round does is
`checkCandidates_eq`, and which pointer is selected is `getRSDP_selects`.
-/

namespace Homegrown.Efi

/-- `UUID`, by its bytes. -/
abbrev UUID := Vector U8 16

/-- `ACPI_TABLE_GUID`. -/
def acpiTableGUID : UUID :=
  #v[0x30, 0x2d, 0x9d, 0xeb, 0x88, 0x2d, 0xd3, 0x11, 0x9a, 0x16, 0x00, 0x90, 0x27, 0x3f, 0xc1, 0x4d]

/-- `EFI_ACPI_20_TABLE_GUID`. -/
def efiAcpi20TableGUID : UUID :=
  #v[0x71, 0xe8, 0x68, 0x88, 0xf1, 0xe4, 0xd3, 0x11, 0xbc, 0x22, 0x00, 0x80, 0xc7, 0x3c, 0x88, 0x81]

/-- `ConfigurationTable`. -/
structure ConfigurationTable where
  vendorGuid : UUID
  vendorTable : U64
  deriving DecidableEq

/-- `RSDPRevision`. -/
inductive RSDPRevision where
  | revision1
  | revision2
  deriving DecidableEq, Repr

/-- `RSDPStruct`, without the text that nothing reads. -/
structure RSDPStruct where
  guid : UUID
  size : Nat
  revision : RSDPRevision

/-- `RSDPResult`. -/
structure RSDPResult where
  rsdp : U64
  revision : RSDPRevision
  deriving DecidableEq, Repr

/-- The first of `possibleRsdps`. -/
def rsdpV1 : RSDPStruct := ⟨acpiTableGUID, 20, .revision1⟩

/-- The second of `possibleRsdps`. -/
def rsdpV2 : RSDPStruct := ⟨efiAcpi20TableGUID, 36, .revision2⟩

/-- `possibleRsdps`. -/
def possibleRsdps : List RSDPStruct := [rsdpV1, rsdpV2]

section Search

variable (m : U64 → U8)

/-- `ACPIChecksum`. -/
def acpiChecksum (ptr : U64) (size : Nat) : Bool :=
  (loadBytes m ptr size).foldl (fun sum byte => sum + byte) 0 = 0

/-- The inner loop of `getRSDP`: the value of `rsdp` it goes on with, or returns. -/
def checkCandidates (table : ConfigurationTable) :
    List RSDPStruct → RSDPResult → RSDPResult ⊕ RSDPResult
  | [], rsdp => .inl rsdp
  | candidate :: candidates, rsdp =>
    if table.vendorGuid ≠ candidate.guid then
      checkCandidates table candidates rsdp
    else if ¬ acpiChecksum m table.vendorTable candidate.size then
      checkCandidates table candidates rsdp
    else
      let rsdp := ⟨table.vendorTable, candidate.revision⟩
      if candidate.revision = .revision2 then .inr rsdp
      else checkCandidates table candidates rsdp

/-- The outer loop of `getRSDP`. -/
def searchTables : List ConfigurationTable → RSDPResult → RSDPResult
  | [], rsdp => rsdp
  | table :: tables, rsdp =>
    match checkCandidates m table possibleRsdps rsdp with
    | .inl rsdp => searchTables tables rsdp
    | .inr rsdp => rsdp

/-- `getRSDP`. -/
def getRSDP (tables : List ConfigurationTable) : RSDPResult :=
  searchTables m tables ⟨0, .revision1⟩

/-! ## What is selected -/

/-- The bytes from a place on add up to a multiple of 256. -/
def ChecksumValid (ptr : U64) (size : Nat) : Prop :=
  256 ∣ ((loadBytes m ptr size).map BitVec.toNat).sum

/-- The table has the GUID of a candidate and a valid checksum of its size. -/
structure Carries (candidate : RSDPStruct) (table : ConfigurationTable) : Prop where
  guid_eq : table.vendorGuid = candidate.guid
  checksum : ChecksumValid m table.vendorTable candidate.size

/-- A pointer of revision 2 where there is one, else one of revision 1 where there is one,
else the null pointer. -/
structure Selects (tables : List ConfigurationTable) (result : RSDPResult) : Prop where
  revision2 : (∃ t ∈ tables, Carries m rsdpV2 t) →
    ∃ t ∈ tables, Carries m rsdpV2 t ∧ result = ⟨t.vendorTable, .revision2⟩
  revision1 : (¬ ∃ t ∈ tables, Carries m rsdpV2 t) → (∃ t ∈ tables, Carries m rsdpV1 t) →
    ∃ t ∈ tables, Carries m rsdpV1 t ∧ result = ⟨t.vendorTable, .revision1⟩
  null : (¬ ∃ t ∈ tables, Carries m rsdpV2 t) → (¬ ∃ t ∈ tables, Carries m rsdpV1 t) →
    result = ⟨0, .revision1⟩

end Search

variable {m : U64 → U8} {table : ConfigurationTable} {tables tables' : List ConfigurationTable}

instance (ptr : U64) (size : Nat) : Decidable (ChecksumValid m ptr size) :=
  inferInstanceAs (Decidable (256 ∣ _))

instance (candidate : RSDPStruct) (table : ConfigurationTable) :
    Decidable (Carries m candidate table) :=
  decidable_of_iff (table.vendorGuid = candidate.guid ∧
      ChecksumValid m table.vendorTable candidate.size)
    ⟨fun h => ⟨h.1, h.2⟩, fun h => ⟨h.guid_eq, h.checksum⟩⟩

/-- The sum of bytes is their sum modulo 256. -/
theorem toNat_foldl_add (bytes : List U8) (sum : U8) :
    (bytes.foldl (fun sum byte => sum + byte) sum).toNat =
      (sum.toNat + (bytes.map BitVec.toNat).sum) % 256 := by
  induction bytes generalizing sum with
  | nil => simp [Nat.mod_eq_of_lt sum.isLt]
  | cons byte bytes ih =>
    rw [List.foldl_cons, ih, BitVec.toNat_add, List.map_cons, List.sum_cons, ← Nat.add_assoc]
    simp

theorem acpiChecksum_iff (ptr : U64) (size : Nat) :
    acpiChecksum m ptr size = true ↔ ChecksumValid m ptr size := by
  rw [acpiChecksum, decide_eq_true_iff, ← BitVec.toNat_inj, toNat_foldl_add, ChecksumValid]
  simp [Nat.dvd_iff_mod_eq_zero]

/-- The two GUIDs differ. -/
theorem not_carries_both (h : Carries m rsdpV2 table) : ¬ Carries m rsdpV1 table := by
  intro h1
  have heq := h.guid_eq.symm.trans h1.guid_eq
  revert heq
  decide

/-- A candidate that the table does not carry is skipped. -/
theorem checkCandidates_skip {candidate : RSDPStruct} (h : ¬ Carries m candidate table)
    (candidates : List RSDPStruct) (rsdp : RSDPResult) :
    checkCandidates m table (candidate :: candidates) rsdp =
      checkCandidates m table candidates rsdp := by
  rw [checkCandidates]
  by_cases hguid : table.vendorGuid = candidate.guid
  · have hsum : ¬ acpiChecksum m table.vendorTable candidate.size = true := by
      rw [acpiChecksum_iff]
      exact fun hsum => h ⟨hguid, hsum⟩
    rw [if_neg (not_not.mpr hguid), if_pos hsum]
  · rw [if_pos hguid]

/-- A candidate that the table carries is remembered, or returned. -/
theorem checkCandidates_take {candidate : RSDPStruct} (h : Carries m candidate table)
    (candidates : List RSDPStruct) (rsdp : RSDPResult) :
    checkCandidates m table (candidate :: candidates) rsdp =
      if candidate.revision = .revision2 then .inr ⟨table.vendorTable, candidate.revision⟩
      else checkCandidates m table candidates ⟨table.vendorTable, candidate.revision⟩ := by
  rw [checkCandidates, if_neg (not_not.mpr h.guid_eq),
    if_neg (not_not.mpr ((acpiChecksum_iff _ _).mpr h.checksum))]

/-- What a round of the outer loop does with a table. -/
theorem checkCandidates_eq (table : ConfigurationTable) (rsdp : RSDPResult) :
    checkCandidates m table possibleRsdps rsdp =
      if Carries m rsdpV2 table then .inr ⟨table.vendorTable, .revision2⟩
      else if Carries m rsdpV1 table then .inl ⟨table.vendorTable, .revision1⟩
      else .inl rsdp := by
  unfold possibleRsdps
  by_cases h2 : Carries m rsdpV2 table
  · rw [if_pos h2, checkCandidates_skip (not_carries_both h2), checkCandidates_take h2]
    rfl
  · rw [if_neg h2]
    by_cases h1 : Carries m rsdpV1 table
    · rw [if_pos h1, checkCandidates_take h1, if_neg (show rsdpV1.revision ≠ .revision2 by decide),
        checkCandidates_skip h2]
      rfl
    · rw [if_neg h1, checkCandidates_skip h1, checkCandidates_skip h2]
      rfl

/-- Once no pointer of revision 2 is left, the last one of revision 1 stays. -/
theorem searchTables_revision1 (h : ¬ ∃ t ∈ tables, Carries m rsdpV2 t) (rsdp : RSDPResult) :
    (∃ t ∈ tables, Carries m rsdpV1 t ∧ searchTables m tables rsdp = ⟨t.vendorTable, .revision1⟩) ∨
      (¬ ∃ t ∈ tables, Carries m rsdpV1 t) ∧ searchTables m tables rsdp = rsdp := by
  induction tables generalizing rsdp with
  | nil => exact .inr ⟨by simp, rfl⟩
  | cons table tables ih =>
    rw [List.exists_mem_cons_iff, not_or] at h
    rw [searchTables, checkCandidates_eq, if_neg h.1]
    by_cases h1 : Carries m rsdpV1 table
    · rw [if_pos h1]
      rcases ih h.2 ⟨table.vendorTable, .revision1⟩ with ⟨t, ht, hcarries, hresult⟩ | ⟨-, hresult⟩
      · exact .inl ⟨t, List.mem_cons_of_mem _ ht, hcarries, hresult⟩
      · exact .inl ⟨table, List.mem_cons_self, h1, hresult⟩
    · rw [if_neg h1]
      rcases ih h.2 rsdp with ⟨t, ht, hcarries, hresult⟩ | ⟨hnone, hresult⟩
      · exact .inl ⟨t, List.mem_cons_of_mem _ ht, hcarries, hresult⟩
      · refine .inr ⟨?_, hresult⟩
        rw [List.exists_mem_cons_iff]
        exact not_or.mpr ⟨h1, hnone⟩

/-- A pointer of revision 2 is returned, whatever comes before it. -/
theorem searchTables_revision2 (h : ∃ t ∈ tables, Carries m rsdpV2 t) (rsdp : RSDPResult) :
    ∃ t ∈ tables, Carries m rsdpV2 t ∧
      searchTables m tables rsdp = ⟨t.vendorTable, .revision2⟩ := by
  induction tables generalizing rsdp with
  | nil => simp at h
  | cons table tables ih =>
    rw [searchTables, checkCandidates_eq]
    by_cases h2 : Carries m rsdpV2 table
    · rw [if_pos h2]
      exact ⟨table, List.mem_cons_self, h2, rfl⟩
    · rw [List.exists_mem_cons_iff] at h
      have hrest := h.resolve_left h2
      rw [if_neg h2]
      split
      · rename_i rsdp' _
        obtain ⟨t, ht, hcarries, hresult⟩ := ih hrest rsdp'
        exact ⟨t, List.mem_cons_of_mem _ ht, hcarries, hresult⟩
      · rename_i heq
        split at heq <;> simp at heq

/-- The preference of `getRSDP`. -/
theorem selects_getRSDP (m : U64 → U8) (tables : List ConfigurationTable) :
    Selects m tables (getRSDP m tables) := by
  refine ⟨fun h => searchTables_revision2 h _, fun h h1 => ?_, fun h h1 => ?_⟩
  · exact (searchTables_revision1 h _).resolve_right fun hnone => hnone.1 h1
  · rcases searchTables_revision1 h ⟨0, .revision1⟩ with ⟨t, ht, hcarries, -⟩ | ⟨-, hresult⟩
    · exact absurd ⟨t, ht, hcarries⟩ h1
    · exact hresult

/-- Revision 2 is returned exactly when some table carries it. -/
theorem Selects.revision_eq_iff {result : RSDPResult} (h : Selects m tables result) :
    result.revision = .revision2 ↔ ∃ t ∈ tables, Carries m rsdpV2 t := by
  constructor
  · intro hresult
    by_contra hnone
    by_cases h1 : ∃ t ∈ tables, Carries m rsdpV1 t
    · obtain ⟨t, -, -, rfl⟩ := h.revision1 hnone h1
      cases hresult
    · rw [h.null hnone h1] at hresult
      cases hresult
  · intro hsome
    obtain ⟨t, -, -, rfl⟩ := h.revision2 hsome
    rfl

/-- Which revision is selected does not depend on the order of the tables. -/
theorem Selects.revision_perm {result result' : RSDPResult} (h : Selects m tables result)
    (h' : Selects m tables' result') (hperm : tables'.Perm tables) :
    result'.revision = result.revision := by
  have hiff : result'.revision = .revision2 ↔ result.revision = .revision2 := by
    rw [h.revision_eq_iff, h'.revision_eq_iff]
    simp only [hperm.mem_iff]
  generalize result.revision = r at hiff ⊢
  generalize result'.revision = r' at hiff ⊢
  cases r <;> cases r' <;> simp_all

/-- `getRSDP` returns a pointer of the newest revision that is valid, for any order of the
tables the same one. -/
theorem getRSDP_selects (m : U64 → U8) (tables : List ConfigurationTable) :
    Selects m tables (getRSDP m tables) ∧
      ∀ tables', tables'.Perm tables →
        (getRSDP m tables').revision = (getRSDP m tables).revision :=
  ⟨selects_getRSDP m tables, fun tables' hperm =>
    (selects_getRSDP m tables).revision_perm (selects_getRSDP m tables') hperm⟩

/-- A table of each revision, in both orders. -/
theorem getRSDP_selects_swap :
    (getRSDP (fun _ => 0) [⟨efiAcpi20TableGUID, 128⟩, ⟨acpiTableGUID, 64⟩]).revision =
      (getRSDP (fun _ => 0) [⟨acpiTableGUID, 64⟩, ⟨efiAcpi20TableGUID, 128⟩]).revision :=
  (getRSDP_selects _ _).2 _ (List.Perm.swap _ _ _)

end Homegrown.Efi
