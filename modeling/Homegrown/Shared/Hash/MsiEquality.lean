import Homegrown.Shared.Hash.Msi
import Homegrown.Shared.Hash.StringAutoU16Map
import Mathlib.Data.Nat.ModEq

/-!
# Equality of the MSI sets of strings

`msi_equalsStringSet` compares two sets by their lengths and by looking up the strings of each
in the other. The length of a set counts every insertion of the empty string, which no slot
holds.
-/

namespace Homegrown.Hash

/-- `HashComparisonStatus`. -/
inductive HashComparisonStatus where
  | success
  | differentSizes
  | differentContent
  deriving DecidableEq, Repr

/-- `msi_containsString` with the hash of the string. A lookup leaves the set as it is. -/
def containsSkeeto (rounds : Nat) (string : ByteString) (index : MsiSet ByteString) :
    Except MsiFault Bool :=
  match msi_containsString rounds string (hashStringSkeeto string) index with
  | .ok answer _ => .ok answer
  | .error fault _ => .error fault

/-- The elements of `FOR_EACH_MSI_STRING`, in the order of their slots. -/
def msiStrings (index : MsiSet ByteString) : List ByteString :=
  ((List.range (1 <<< index.exp.toNat)).map fun i => index.buf (BitVec.ofNat 32 i)).filter
    fun element => element.len ≠ 0

/-- A loop of `msi_equalsStringSet`. -/
def allContained (rounds : Nat) (index : MsiSet ByteString) :
    List ByteString → Except MsiFault Bool
  | [] => return true
  | element :: elements => do
    if ← containsSkeeto rounds element index then allContained rounds index elements
    else return false

/-- `msi_equalsStringSet`. -/
def msi_equalsStringSet (rounds : Nat) (set1 set2 : MsiSet ByteString) :
    Except MsiFault HashComparisonStatus := do
  if set1.len ≠ set2.len then return .differentSizes
  if ¬ (← allContained rounds set2 (msiStrings set1)) then return .differentContent
  if ¬ (← allContained rounds set1 (msiStrings set2)) then return .differentContent
  return .success

/-- Insertions one after the other, with their results. -/
def insertStrings (rounds : Nat) : List ByteString → MsiProgram ByteString (List Bool)
  | [] => return []
  | string :: strings => do
    let isNew ← msi_insertString rounds string (hashStringSkeeto string)
    return isNew :: (← insertStrings rounds strings)

/-- The empty string, which is what an empty slot holds. -/
def emptyString : ByteString := ⟨[], by decide⟩

/-- A set that insertions into a new one have led to, and that has kept an empty slot. -/
structure BuiltBy (rounds : Nat) (strings : List ByteString) (index : MsiSet ByteString) :
    Prop where
  built : ∃ exp new results, msi_newSet emptyString exp = .ok new ∧
    insertStrings rounds strings new = .ok results index
  vacant : HasVacancy emptyString index
  rounds_le : 2 ^ index.exp.toNat ≤ rounds

/-- The comparison ends, and tells whether the lookups in the two sets agree. -/
def ComparesContents (rounds : Nat) (set1 set2 : MsiSet ByteString) : Prop :=
  ∃ status, msi_equalsStringSet rounds set1 set2 = .ok status ∧
    (status = .success ↔ ∀ string,
      containsSkeeto rounds string set1 = .ok true ↔ containsSkeeto rounds string set2 = .ok true)

/-! ## What a set holds and counts -/

/-- The set holds the strings of a list without the empty one, each in one slot, and counts
each of them once and the empty one whenever it was inserted. -/
structure Counts (index : MsiSet ByteString) (strings seen : List ByteString) : Prop where
  stores : Stores emptyString hashStringSkeeto
    { index with len := BitVec.ofNat 64 seen.length } seen
  nodup : seen.Nodup
  mem_iff : ∀ string, string ∈ seen ↔ string ∈ strings ∧ string ≠ emptyString
  len_eq : index.len = BitVec.ofNat 64 (seen.length + strings.count emptyString)

section Counts

variable {rounds : Nat} {strings seen : List ByteString} {string : ByteString}
  {index : MsiSet ByteString}

theorem len_eq_zero_iff (string : ByteString) : string.len = 0 ↔ string = emptyString := by
  rw [← BitVec.toNat_inj, ByteString.toNat_len]
  cases string with
  | mk buf hlt => simp [emptyString, List.length_eq_zero_iff]

/-- An insertion ends where the search for its string ends. -/
theorem msi_insertString_eq {j : Nat} (hends : OpenAddressing.EndsFirst emptyString
      (slots hashStringSkeeto index.exp) index.buf string j) (hrounds : j < rounds) :
    msi_insertString rounds string (hashStringSkeeto string) index =
      if index.buf (slots hashStringSkeeto index.exp string j) = emptyString then
        putIn string (slots hashStringSkeeto index.exp string j) index
      else .ok false index :=
  search_eq (fun string => decide_eq_true_iff.trans (len_eq_zero_iff string)) hends hrounds

/-- The empty string takes no slot, but is counted. -/
theorem Counts.insert_empty (h : Counts index strings seen) (hexp : index.exp.toNat < 32)
    (hvacant : HasVacancy emptyString index) (hrounds : 2 ^ index.exp.toNat ≤ rounds) :
    ∃ index', msi_insertString rounds emptyString (hashStringSkeeto emptyString) index =
      .ok true index' ∧ Counts index' (strings ++ [emptyString]) seen := by
  obtain ⟨j, hj, hends⟩ := hvacant.exists_endsFirst hexp hashStringSkeeto emptyString
  have hempty := or_self_iff.mp hends.ends
  have hrun := msi_insertString_eq hends (hj.trans_le hrounds)
  rw [if_pos hempty] at hrun
  refine ⟨_, hrun, ?_, h.nodup, fun string => ?_, ?_⟩
  · have hsame : Function.update index.buf (slots hashStringSkeeto index.exp emptyString j)
        emptyString = index.buf := Function.update_eq_self_iff.mpr hempty.symm
    simpa only [hsame] using h.stores
  · rw [h.mem_iff, List.mem_append, List.mem_singleton, or_and_right]
    simp
  · change index.len + 1 = _
    rw [h.len_eq, List.count_append, List.count_singleton_self, ← Nat.add_assoc]
    exact (BitVec.ofNat_add ..).symm

/-- A string that is stored already changes nothing. -/
theorem Counts.insert_stored (h : Counts index strings seen) (hexp : index.exp.toNat < 32)
    (hvacant : HasVacancy emptyString index) (hrounds : 2 ^ index.exp.toNat ≤ rounds)
    (hstored : string ∈ seen) :
    msi_insertString rounds string (hashStringSkeeto string) index = .ok false index ∧
      Counts index (strings ++ [string]) seen := by
  obtain ⟨hmem, hne⟩ := (h.mem_iff string).mp hstored
  obtain ⟨j, hj, hends, hnot⟩ := h.stores.exists_endsFirst string hexp hvacant hne
  have hrun : msi_insertString rounds string (hashStringSkeeto string) index = _ :=
    msi_insertString_eq hends (hj.trans_le hrounds)
  refine ⟨hrun.trans (if_neg fun hempty => hnot.mp hempty hstored), h.stores, h.nodup,
    fun other => ?_, ?_⟩
  · rw [h.mem_iff, List.mem_append, List.mem_singleton]
    constructor
    · exact fun hother => ⟨.inl hother.1, hother.2⟩
    · rintro ⟨hother | rfl, hother'⟩
      · exact ⟨hother, hother'⟩
      · exact ⟨hmem, hother'⟩
  · rw [h.len_eq, List.count_append, List.count_eq_zero_of_not_mem (l := [string])
      (List.mem_singleton.not.mpr (Ne.symm hne)), Nat.add_zero]

/-- A new string takes the slot where its search ends. -/
theorem Counts.insert_new (h : Counts index strings seen) (hexp : index.exp.toNat < 32)
    (hvacant : HasVacancy emptyString index) (hrounds : 2 ^ index.exp.toNat ≤ rounds)
    (hne : string ≠ emptyString) (hnew : string ∉ seen) :
    ∃ index', msi_insertString rounds string (hashStringSkeeto string) index = .ok true index' ∧
      Counts index' (strings ++ [string]) (seen ++ [string]) := by
  obtain ⟨j, hj, hends, hnot⟩ := h.stores.exists_endsFirst string hexp hvacant hne
  have hempty := hnot.mpr hnew
  have hrun : msi_insertString rounds string (hashStringSkeeto string) index = _ :=
    msi_insertString_eq hends (hj.trans_le hrounds)
  have hstores := h.stores.putIn hexp hne hends hempty
  refine ⟨_, hrun.trans (if_pos hempty), ?_, ?_, fun other => ?_, ?_⟩
  · rw [← hstores.len_eq]
    exact hstores
  · exact List.nodup_append_comm.mp (List.nodup_cons.mpr ⟨hnew, h.nodup⟩)
  · rw [List.mem_append, List.mem_append, List.mem_singleton, h.mem_iff, or_and_right]
    apply or_congr_right
    constructor
    · rintro rfl
      exact ⟨rfl, hne⟩
    · exact And.left
  · change index.len + 1 = _
    rw [h.len_eq, List.count_append, List.count_eq_zero_of_not_mem (l := [string])
      (List.mem_singleton.not.mpr (Ne.symm hne)), Nat.add_zero, List.length_append,
      List.length_singleton, Nat.add_right_comm]
    exact (BitVec.ofNat_add ..).symm

/-- An insertion into a set with an empty slot returns. -/
theorem Counts.insert (h : Counts index strings seen) (hexp : index.exp.toNat < 32)
    (hvacant : HasVacancy emptyString index) (hrounds : 2 ^ index.exp.toNat ≤ rounds)
    (string : ByteString) : ∃ isNew index' seen',
      msi_insertString rounds string (hashStringSkeeto string) index = .ok isNew index' ∧
        Counts index' (strings ++ [string]) seen' := by
  by_cases hempty : string = emptyString
  · subst hempty
    obtain ⟨index', hrun, h'⟩ := h.insert_empty hexp hvacant hrounds
    exact ⟨true, index', seen, hrun, h'⟩
  · by_cases hstored : string ∈ seen
    · obtain ⟨hrun, h'⟩ := h.insert_stored hexp hvacant hrounds hstored
      exact ⟨false, index, seen, hrun, h'⟩
    · obtain ⟨index', hrun, h'⟩ := h.insert_new hexp hvacant hrounds hempty hstored
      exact ⟨true, index', seen ++ [string], hrun, h'⟩

/-- An insertion that returns keeps the exponent and the strings in their slots. -/
theorem msi_insertString_keeps (index : MsiSet ByteString) (string : ByteString) (hash : U64) :
    Ensures (· = index) (msi_insertString rounds string hash) fun _ index' =>
      index'.exp = index.exp ∧ ∀ i, index'.buf i = emptyString → index.buf i = emptyString := by
  refine @Ensures.loop _ _ _ _ _ _ (fun _ index' => index' = index) _ (fun i => ?_) rounds _
  rintro _ next index' rfl hrun
  rw [searchRound, get_bind] at hrun
  split at hrun
  · rename_i hempty
    obtain ⟨answer, after, hput, hreturn⟩ := bind_eq_ok.mp hrun
    obtain ⟨rfl, rfl⟩ := pure_eq_ok.mp hreturn
    obtain ⟨⟨⟩, final, hmodify, hput⟩ := bind_eq_ok.mp hput
    obtain ⟨rfl, rfl⟩ := pure_eq_ok.mp hput
    obtain rfl := modify_eq_ok.mp hmodify
    refine ⟨rfl, fun i' hi' => ?_⟩
    by_contra hne
    have hslot : i' ≠ indexLookup hash (‹MsiSet ByteString›.exp.setWidth 16) i := by
      rintro rfl
      exact hne ((len_eq_zero_iff _).mp (of_decide_eq_true hempty))
    exact hne ((Function.update_of_ne hslot _ _).symm.trans hi')
  · split at hrun
    · obtain ⟨rfl, rfl⟩ := pure_eq_ok.mp hrun
      exact ⟨rfl, fun _ => id⟩
    · obtain ⟨rfl, rfl⟩ := pure_eq_ok.mp hrun
      rfl

/-- Insertions that return keep the exponent and the strings in their slots. -/
theorem insertStrings_keeps {index index' : MsiSet ByteString} {results : List Bool}
    (hrun : insertStrings rounds strings index = .ok results index') :
    index'.exp = index.exp ∧ ∀ i, index'.buf i = emptyString → index.buf i = emptyString := by
  induction strings generalizing index results with
  | nil =>
    obtain ⟨-, rfl⟩ := pure_eq_ok.mp hrun
    exact ⟨rfl, fun _ => id⟩
  | cons string strings ih =>
    obtain ⟨isNew, between, hfirst, hrest⟩ := bind_eq_ok.mp hrun
    obtain ⟨results', after, hloop, hreturn⟩ := bind_eq_ok.mp hrest
    obtain ⟨-, rfl⟩ := pure_eq_ok.mp hreturn
    obtain ⟨hexp, hempty⟩ := ih hloop
    obtain ⟨hexp', hempty'⟩ := msi_insertString_keeps index string _ index isNew between rfl hfirst
    exact ⟨hexp.trans hexp', fun i hi => hempty' i (hempty i hi)⟩

/-- A set that has kept an empty slot holds and counts what was inserted. -/
theorem Counts.insertStrings {index index' : MsiSet ByteString} {before : List ByteString}
    {results : List Bool} (h : Counts index before seen) (hexp : index.exp.toNat < 32)
    (hrounds : 2 ^ index.exp.toNat ≤ rounds)
    (hrun : Hash.insertStrings rounds strings index = .ok results index')
    (hvacant : HasVacancy emptyString index') :
    ∃ seen', Counts index' (before ++ strings) seen' := by
  induction strings generalizing index before seen results with
  | nil =>
    obtain ⟨-, rfl⟩ := pure_eq_ok.mp hrun
    rw [List.append_nil]
    exact ⟨seen, h⟩
  | cons string strings ih =>
    have hkeeps := insertStrings_keeps hrun
    obtain ⟨isNew, between, hfirst, hrest⟩ := bind_eq_ok.mp hrun
    obtain ⟨results', after, hloop, hreturn⟩ := bind_eq_ok.mp hrest
    obtain ⟨-, rfl⟩ := pure_eq_ok.mp hreturn
    have hvacant₀ : HasVacancy emptyString index := by
      obtain ⟨i, hi, hempty⟩ := hvacant
      exact ⟨i, hkeeps.1 ▸ hi, hkeeps.2 i hempty⟩
    obtain ⟨isNew', between', seen', hfirst', h'⟩ := h.insert hexp hvacant₀ hrounds string
    obtain ⟨rfl, rfl⟩ := EStateM.Result.ok.inj (hfirst.symm.trans hfirst')
    have hexp' := (msi_insertString_keeps index string _ index isNew between rfl hfirst).1
    rw [← hexp'] at hexp hrounds
    obtain ⟨seen'', h''⟩ := ih h' hexp hrounds hloop
    rw [List.append_assoc] at h''
    exact ⟨seen'', h''⟩

end Counts

/-! ## Lookups and comparisons -/

section Compare

variable {rounds : Nat} {strings strings1 strings2 seen seen1 seen2 : List ByteString}
  {index set1 set2 : MsiSet ByteString}

/-- A set that was built holds and counts what was inserted. -/
theorem BuiltBy.counts (h : BuiltBy rounds strings index) :
    index.exp.toNat < 31 ∧ ∃ seen, Counts index strings seen := by
  obtain ⟨exp, new, results, hnew, hrun⟩ := h.built
  unfold msi_newSet at hnew
  split at hnew
  · cases hnew
  split at hnew
  · cases hnew
  rename_i hexp
  obtain rfl := Except.ok.inj hnew
  rw [BitVec.le_def, not_le] at hexp
  replace hexp : exp.toNat < 31 := hexp
  have hsame := (insertStrings_keeps hrun).1
  have hcounts : Counts ⟨fun _ => emptyString, exp, 0⟩ [] [] :=
    ⟨⟨.empty, fun _ h => (h rfl).elim, fun key hkey => by simp [Ne.symm hkey], rfl⟩,
      List.nodup_nil, fun _ => by simp, rfl⟩
  refine ⟨hsame ▸ hexp, ?_⟩
  exact hcounts.insertStrings (hexp.trans (by decide)) (hsame ▸ h.rounds_le) hrun h.vacant

/-- A lookup in a set with an empty slot finds the strings it holds. -/
theorem Counts.containsSkeeto_eq (h : Counts index strings seen) (hexp : index.exp.toNat < 32)
    (hvacant : HasVacancy emptyString index) (hrounds : 2 ^ index.exp.toNat ≤ rounds)
    (string : ByteString) :
    containsSkeeto rounds string index = .ok (decide (string ∈ seen)) := by
  obtain ⟨j, hj, hends⟩ := hvacant.exists_endsFirst hexp hashStringSkeeto string
  have hrun : msi_containsString rounds string (hashStringSkeeto string) index =
      if index.buf (slots hashStringSkeeto index.exp string j) = emptyString then
        .ok false index
      else .ok true index :=
    search_eq (fun string => decide_eq_true_iff.trans (len_eq_zero_iff string)) hends
      (hj.trans_le hrounds)
  have hstored : index.buf (slots hashStringSkeeto index.exp string j) = emptyString ↔
      string ∉ seen := by
    by_cases hempty : string = emptyString
    · subst hempty
      exact iff_of_true (or_self_iff.mp hends.ends) fun hmem => ((h.mem_iff _).mp hmem).2 rfl
    · have hzero := h.stores.probed.zero_iff hempty hends
      rw [← h.stores.mem_iff string hempty, not_exists]
      exact hzero
  rw [containsSkeeto, hrun]
  by_cases hmem : string ∈ seen
  · rw [if_neg (hstored.not.mpr (not_not.mpr hmem)), decide_eq_true hmem]
  · rw [if_pos (hstored.mpr hmem), decide_eq_false hmem]

/-- `FOR_EACH_MSI_STRING` goes through the strings a set holds. -/
theorem Counts.mem_msiStrings (h : Counts index strings seen) (string : ByteString) :
    string ∈ msiStrings index ↔ string ∈ seen := by
  rw [msiStrings, List.mem_filter, decide_eq_true_iff, ne_eq, len_eq_zero_iff, List.mem_map,
    Nat.one_shiftLeft]
  constructor
  · rintro ⟨⟨i, -, hi⟩, hne⟩
    exact (h.stores.mem_iff string hne).mp ⟨_, hi⟩
  · intro hmem
    have hne := ((h.mem_iff string).mp hmem).2
    obtain ⟨i, hi⟩ := (h.stores.mem_iff string hne).mpr hmem
    have hwithin := h.stores.within i (hi ▸ hne)
    refine ⟨⟨i.toNat, List.mem_range.mpr hwithin, ?_⟩, hne⟩
    rw [BitVec.ofNat_toNat, BitVec.setWidth_eq]
    exact hi

/-- A loop of the comparison ends, and tells whether all its strings are held. -/
theorem Counts.allContained_eq (h : Counts index strings seen) (hexp : index.exp.toNat < 32)
    (hvacant : HasVacancy emptyString index) (hrounds : 2 ^ index.exp.toNat ≤ rounds)
    (elements : List ByteString) :
    allContained rounds index elements = .ok (decide (∀ element ∈ elements, element ∈ seen)) := by
  induction elements with
  | nil => rfl
  | cons element elements ih =>
    have hlookup := h.containsSkeeto_eq hexp hvacant hrounds element
    rw [allContained, hlookup]
    by_cases hmem : element ∈ seen
    · rw [decide_eq_true hmem]
      change allContained rounds index elements = _
      rw [ih]
      simp [hmem]
    · rw [decide_eq_false hmem]
      change Except.ok false = _
      simp [hmem]

/-- The comparison ends, and succeeds when the sets count and hold the same. -/
theorem BuiltBy.equals_eq (h1 : BuiltBy rounds strings1 set1) (h2 : BuiltBy rounds strings2 set2)
    (hseen1 : Counts set1 strings1 seen1) (hseen2 : Counts set2 strings2 seen2) :
    ∃ status, msi_equalsStringSet rounds set1 set2 = .ok status ∧
      (status = .success ↔ set1.len = set2.len ∧ ∀ string, string ∈ seen1 ↔ string ∈ seen2) := by
  have hexp1 := h1.counts.1
  have hexp2 := h2.counts.1
  have hfirst := hseen2.allContained_eq (by omega) h2.vacant h2.rounds_le (msiStrings set1)
  have hsecond := hseen1.allContained_eq (by omega) h1.vacant h1.rounds_le (msiStrings set2)
  simp only [hseen1.mem_msiStrings] at hfirst
  simp only [hseen2.mem_msiStrings] at hsecond
  by_cases hlen : set1.len = set2.len
  · rw [msi_equalsStringSet, if_neg (not_not.mpr hlen), hfirst, hsecond]
    by_cases hin : ∀ string ∈ seen1, string ∈ seen2
    · by_cases hin' : ∀ string ∈ seen2, string ∈ seen1
      · refine ⟨.success, ?_, iff_of_true rfl ⟨hlen, fun string => ⟨hin string, hin' string⟩⟩⟩
        rw [decide_eq_true hin, decide_eq_true hin']
        rfl
      · refine ⟨.differentContent, ?_, iff_of_false nofun fun hsame =>
          hin' fun string => (hsame.2 string).mpr⟩
        rw [decide_eq_true hin, decide_eq_false hin']
        rfl
    · refine ⟨.differentContent, ?_, iff_of_false nofun fun hsame =>
        hin fun string => (hsame.2 string).mp⟩
      rw [decide_eq_false hin]
      rfl
  · refine ⟨.differentSizes, ?_, by simp [hlen]⟩
    rw [msi_equalsStringSet, if_pos hlen]
    rfl

/-- Sets of the same strings count the same exactly when the empty one was inserted as often
into both, modulo what a counter of 64 bits can tell. -/
theorem Counts.len_eq_iff (h1 : Counts set1 strings1 seen1) (h2 : Counts set2 strings2 seen2)
    (hsame : ∀ string, string ∈ seen1 ↔ string ∈ seen2) : set1.len = set2.len ↔
      strings1.count emptyString ≡ strings2.count emptyString [MOD 2 ^ 64] := by
  have hperm := (List.perm_ext_iff_of_nodup h1.nodup h2.nodup).mpr hsame
  rw [h1.len_eq, h2.len_eq, hperm.length_eq, ← BitVec.toNat_inj, BitVec.toNat_ofNat,
    BitVec.toNat_ofNat]
  exact ⟨Nat.ModEq.add_left_cancel' _, Nat.ModEq.add_left _⟩

/-- The comparison tells whether two sets have the same strings, unless the insertions into them
differ only in how often the empty string was among them. -/
theorem msi_equalsStringSet_iff (h1 : BuiltBy rounds strings1 set1)
    (h2 : BuiltBy rounds strings2 set2) : ComparesContents rounds set1 set2 ↔
      ((∀ string ≠ emptyString, string ∈ strings1 ↔ string ∈ strings2) →
        strings1.count emptyString ≡ strings2.count emptyString [MOD 2 ^ 64]) := by
  obtain ⟨hexp1, seen1, hseen1⟩ := h1.counts
  obtain ⟨hexp2, seen2, hseen2⟩ := h2.counts
  obtain ⟨status, hrun, hsuccess⟩ := h1.equals_eq h2 hseen1 hseen2
  have hlookups : (∀ string, containsSkeeto rounds string set1 = .ok true ↔
      containsSkeeto rounds string set2 = .ok true) ↔
        ∀ string, string ∈ seen1 ↔ string ∈ seen2 := by
    apply forall_congr'
    intro string
    rw [hseen1.containsSkeeto_eq (by omega) h1.vacant h1.rounds_le,
      hseen2.containsSkeeto_eq (by omega) h2.vacant h2.rounds_le]
    simp
  have hinserted : (∀ string ≠ emptyString, string ∈ strings1 ↔ string ∈ strings2) ↔
      ∀ string, string ∈ seen1 ↔ string ∈ seen2 := by
    apply forall_congr'
    intro string
    rw [hseen1.mem_iff, hseen2.mem_iff, and_congr_left_iff]
  rw [hinserted, ComparesContents, hlookups]
  constructor
  · rintro ⟨status', hrun', hcompares⟩ hsame
    obtain rfl := Except.ok.inj (hrun.symm.trans hrun')
    exact (hseen1.len_eq_iff hseen2 hsame).mp (hsuccess.mp (hcompares.mpr hsame)).1
  · intro hcount
    refine ⟨status, hrun, hsuccess.trans ⟨And.right, fun hsame => ⟨?_, hsame⟩⟩⟩
    exact (hseen1.len_eq_iff hseen2 hsame).mpr (hcount hsame)

end Compare

/-- The letters `a` and `b`, in either order, in sets of four and of eight slots. -/
theorem msi_equalsStringSet_iff_letters : ∃ set1 set2,
    BuiltBy 8 [⟨[0x61], by decide⟩, ⟨[0x62], by decide⟩] set1 ∧ set1.exp = 2 ∧
      BuiltBy 8 [⟨[0x62], by decide⟩, ⟨[0x61], by decide⟩] set2 ∧ set2.exp = 3 ∧
        ComparesContents 8 set1 set2 := by
  have h1 : BuiltBy 8 [⟨[0x61], by decide⟩, ⟨[0x62], by decide⟩] _ :=
    ⟨⟨2, _, _, rfl, rfl⟩, ⟨1, by decide, by decide +kernel⟩, by decide⟩
  have h2 : BuiltBy 8 [⟨[0x62], by decide⟩, ⟨[0x61], by decide⟩] _ :=
    ⟨⟨3, _, _, rfl, rfl⟩, ⟨3, by decide, by decide +kernel⟩, by decide⟩
  exact ⟨_, _, h1, rfl, h2, rfl, (msi_equalsStringSet_iff h1 h2).mpr fun _ => rfl⟩

/-- A set into which only the empty string was inserted holds what a new one holds, but the
comparison tells different sizes. -/
theorem msi_equalsStringSet_differs : ¬ ∀ (rounds : Nat) (strings1 strings2 : List ByteString)
    (set1 set2 : MsiSet ByteString), BuiltBy rounds strings1 set1 → BuiltBy rounds strings2 set2 →
      ComparesContents rounds set1 set2 := by
  intro h
  have h1 : BuiltBy 2 [] _ := ⟨⟨1, _, _, rfl, rfl⟩, ⟨0, by decide, rfl⟩, by decide⟩
  have h2 : BuiltBy 2 [emptyString] _ := ⟨⟨1, _, _, rfl, rfl⟩, ⟨0, by decide, rfl⟩, by decide⟩
  obtain ⟨status, hrun, hcompares⟩ := h 2 _ _ _ _ h1 h2
  obtain rfl : HashComparisonStatus.differentSizes = status := Except.ok.inj hrun
  obtain ⟨-, seen1, hseen1⟩ := h1.counts
  obtain ⟨-, seen2, hseen2⟩ := h2.counts
  refine HashComparisonStatus.noConfusion (hcompares.mpr fun string => ?_)
  rw [hseen1.containsSkeeto_eq (by decide) h1.vacant h1.rounds_le,
    hseen2.containsSkeeto_eq (by decide) h2.vacant h2.rounds_le]
  simp [hseen1.mem_iff, hseen2.mem_iff]

end Homegrown.Hash
