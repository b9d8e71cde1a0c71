import Homegrown.Core.Loop
import Homegrown.Core.OpenAddressing
import Homegrown.Core.Registry
import Homegrown.Shared.Text.Converter

/-!
# The MSI hash sets

Double hashing in a table of `2 ^ exp` slots: a search starts at the low half of the hash
and steps by an odd number taken from its high end. The sets of strings and of 16-bit
numbers have the same code, with the empty string and zero for an empty slot.
-/

namespace Homegrown.Hash

/-- Why a call of a set does not return. -/
inductive MsiFault where
  /-- `ASSERT(replica->exp > 0)` failed. -/
  | assertion
  /-- Control went to `jmp_buf`. -/
  | longjmp
  /-- The bound on rounds given to the model ran out. -/
  | outOfFuel
  deriving DecidableEq, Repr

/-- `MSI_SET(T)`. -/
structure MsiSet (T : Type) where
  buf : U32 → T
  exp : U8
  len : U64

/-- Programs on a set. -/
abbrev MsiProgram (T : Type) := EStateM MsiFault (MsiSet T)

/-- `msi_newSet` of a set without a buffer, whose new slots have all bits zero. -/
def msi_newSet {T : Type} (zero : T) (exp : U8) : Except MsiFault (MsiSet T) :=
  if ¬ 0 < exp then .error .assertion
  else if 31 ≤ exp then .error .longjmp
  else .ok ⟨fun _ => zero, exp, 0⟩

/-- `indexLookup`. -/
def indexLookup (hash : U64) (exp : U16) (idx : U32) : U32 :=
  let mask := ((1 : U32) <<< exp.toNat) - 1
  let step : U32 := (hash >>> (64 - exp.toNat)).setWidth 32 ||| 1
  (idx + step) &&& mask

section Search

variable {T : Type} [DecidableEq T]

/-- A round of the loop that all functions on sets have in common. -/
def searchRound (isEmpty : T → Bool) (whenEmpty : U32 → MsiProgram T Bool) (whenFound : Bool)
    (value : T) (hash : U64) (i : U32) : MsiProgram T (U32 ⊕ Bool) := do
  let index ← get
  let i := indexLookup hash (index.exp.setWidth 16) i
  if isEmpty (index.buf i) then
    return .inr (← whenEmpty i)
  else if index.buf i = value then
    return .inr whenFound
  else
    return .inl i

/-- The loop that all functions on sets have in common. -/
def search (isEmpty : T → Bool) (whenEmpty : U32 → MsiProgram T Bool) (whenFound : Bool)
    (rounds : Nat) (value : T) (hash : U64) : MsiProgram T Bool :=
  loop .outOfFuel (searchRound isEmpty whenEmpty whenFound value hash) rounds (hash.setWidth 32)

/-- A value is put into an empty slot. -/
def putIn (value : T) (i : U32) : MsiProgram T Bool := do
  modify fun index =>
    { index with len := index.len + 1, buf := Function.update index.buf i value }
  return true

/-- Insertion into a set. -/
def msiInsert (isEmpty : T → Bool) (rounds : Nat) (value : T) (hash : U64) : MsiProgram T Bool :=
  search isEmpty (putIn value) false rounds value hash

/-- Lookup in a set. -/
def msiContains (isEmpty : T → Bool) (rounds : Nat) (value : T) (hash : U64) : MsiProgram T Bool :=
  search isEmpty (fun _ => return false) true rounds value hash

end Search

/-- `msi_insertString`. -/
def msi_insertString (rounds : Nat) (string : ByteString) (hash : U64) :
    MsiProgram ByteString Bool :=
  msiInsert (fun s => s.len = 0) rounds string hash

/-- `msi_containsString`. -/
def msi_containsString (rounds : Nat) (string : ByteString) (hash : U64) :
    MsiProgram ByteString Bool :=
  msiContains (fun s => s.len = 0) rounds string hash

/-- `msi_insertU16`. -/
def msi_insertU16 (rounds : Nat) (value : U16) (hash : U64) : MsiProgram U16 Bool :=
  msiInsert (fun v => v = 0) rounds value hash

/-- `msi_containsU16`. -/
def msi_containsU16 (rounds : Nat) (value : U16) (hash : U64) : MsiProgram U16 Bool :=
  msiContains (fun v => v = 0) rounds value hash

/-! ## Probes -/

/-- The variable `i` of a search after some rounds. -/
def probe (hash : U64) (exp : U8) : Nat → U32
  | 0 => hash.setWidth 32
  | rounds + 1 => indexLookup hash (exp.setWidth 16) (probe hash exp rounds)

/-- The odd number a search steps by. -/
def probeStep (hash : U64) (exp : U8) : Nat :=
  ((hash >>> (64 - exp.toNat)).setWidth 32 ||| (1 : U32)).toNat

theorem probeStep_coprime (hash : U64) (exp : U8) :
    Nat.Coprime (probeStep hash exp) (2 ^ exp.toNat) := by
  apply Nat.Coprime.pow_right
  have hbit : (probeStep hash exp).testBit 0 = true := by
    rw [probeStep, BitVec.toNat_or, Nat.testBit_or, show (1 : U32).toNat.testBit 0 = true by decide,
      Bool.or_true]
  rw [Nat.coprime_two_right, Nat.odd_iff]
  simpa using hbit

theorem toNat_indexLookup (hash : U64) {exp : U8} (hexp : exp.toNat < 32) (idx : U32) :
    (indexLookup hash (exp.setWidth 16) idx).toNat =
      (idx.toNat + probeStep hash exp) % 2 ^ exp.toNat := by
  have hwidth : (exp.setWidth 16).toNat = exp.toNat := by
    rw [BitVec.toNat_setWidth, Nat.mod_eq_of_lt (by omega)]
  have hpow : IsTwoPow ((1 : U32) <<< exp.toNat) exp.toNat := by
    have hlt := Nat.pow_lt_pow_right (a := 2) (by norm_num) hexp
    rw [IsTwoPow, BitVec.toNat_shiftLeft, show (1 : U32).toNat = 1 from rfl, Nat.one_shiftLeft,
      Nat.mod_eq_of_lt hlt]
  have hdvd : 2 ^ exp.toNat ∣ 2 ^ 32 := Nat.pow_dvd_pow 2 hexp.le
  rw [indexLookup, hwidth, hpow.toNat_and_sub_one, BitVec.toNat_add,
    Nat.mod_mod_of_dvd _ hdvd]
  rfl

/-- The probes of a search are the multiples of its step, from its start on. -/
theorem toNat_probe (hash : U64) {exp : U8} (hexp : exp.toNat < 32) (j : Nat) :
    (probe hash exp (j + 1)).toNat =
      ((hash.setWidth 32).toNat + (j + 1) * probeStep hash exp) % 2 ^ exp.toNat := by
  induction j with
  | zero => rw [probe, toNat_indexLookup hash hexp, probe, Nat.zero_add, Nat.one_mul]
  | succ j ih =>
    rw [probe, toNat_indexLookup hash hexp, ih, Nat.mod_add_mod, Nat.add_assoc,
      ← Nat.succ_mul]

/-- The probes of a search visit every slot of the table once before they repeat. -/
theorem existsUnique_probe (hash : U64) {exp : U8} (hexp : exp.toNat < 32) {i : U32}
    (hi : i.toNat < 2 ^ exp.toNat) :
    ∃! j, j < 2 ^ exp.toNat ∧ probe hash exp (j + 1) = i := by
  have hprobe := OpenAddressing.existsUnique_probe (hash.setWidth 32).toNat
    (probeStep_coprime hash exp) hi
  simpa only [← BitVec.toNat_inj, toNat_probe hash hexp] using hprobe

/-! ## Searches -/

section Search

variable {T : Type} [DecidableEq T] {isEmpty : T → Bool} {zero : T} {hash : T → U64}

/-- The slots that a search for a key looks at. -/
def slots (hash : T → U64) (exp : U8) (key : T) (j : Nat) : U32 := probe (hash key) exp (j + 1)

/-- A round goes on, or ends the search. -/
theorem searchRound_eq (hash : T → U64) (hzero : ∀ value, isEmpty value = true ↔ value = zero)
    (whenEmpty : U32 → MsiProgram T Bool) (whenFound : Bool) (key : T) (index : MsiSet T)
    (j : Nat) :
    searchRound isEmpty whenEmpty whenFound key (hash key) (probe (hash key) index.exp j) index =
      if index.buf (slots hash index.exp key j) = zero then
        (whenEmpty (slots hash index.exp key j) >>= fun b => pure (.inr b)) index
      else if index.buf (slots hash index.exp key j) = key then .ok (.inr whenFound) index
      else .ok (.inl (slots hash index.exp key j)) index := by
  rw [searchRound, get_bind]
  change (if isEmpty (index.buf (slots hash index.exp key j)) = true then _ else _ :
    MsiProgram T (U32 ⊕ Bool)) index = _
  simp only [hzero]
  by_cases hempty : index.buf (slots hash index.exp key j) = zero
  · rw [if_pos hempty, if_pos hempty]
    rfl
  · rw [if_neg hempty, if_neg hempty]
    change (if index.buf (slots hash index.exp key j) = key then _ else _ :
      MsiProgram T (U32 ⊕ Bool)) index = _
    split <;> rfl

/-- A search that has come to some slot comes to the slot where it ends. -/
theorem loop_searchRound_eq (hzero : ∀ value, isEmpty value = true ↔ value = zero)
    (whenEmpty : U32 → MsiProgram T Bool) (whenFound : Bool) {key : T} {index : MsiSet T}
    {j : Nat} (hj : OpenAddressing.EndsFirst zero (slots hash index.exp) index.buf key j)
    (ahead : Nat) (hahead : ahead ≤ j) {rounds : Nat} (hrounds : ahead < rounds) :
    loop .outOfFuel (searchRound isEmpty whenEmpty whenFound key (hash key)) rounds
        (probe (hash key) index.exp (j - ahead)) index =
      if index.buf (slots hash index.exp key j) = zero then
        whenEmpty (slots hash index.exp key j) index
      else .ok whenFound index := by
  obtain ⟨rounds, rfl⟩ : ∃ k, rounds = k + 1 := ⟨rounds - 1, by omega⟩
  have hround := searchRound_eq hash hzero whenEmpty whenFound key index (j - ahead)
  induction ahead generalizing rounds with
  | zero =>
    rw [Nat.sub_zero] at hround ⊢
    by_cases hempty : index.buf (slots hash index.exp key j) = zero
    · rw [if_pos hempty] at hround ⊢
      cases hrun : whenEmpty (slots hash index.exp key j) index with
      | ok b t => exact loop_succ_of_inr (hround.trans (bind_of_ok hrun)) rounds
      | error e t => exact bind_of_error (hround.trans (bind_of_error hrun))
    · have hfound := hj.ends.resolve_left hempty
      rw [if_neg hempty, if_pos hfound] at hround
      rw [if_neg hempty]
      exact loop_succ_of_inr hround rounds
  | succ ahead ih =>
    have hnot := hj.notBefore (j - (ahead + 1)) (by omega)
    rw [OpenAddressing.Ends, not_or] at hnot
    rw [if_neg hnot.1, if_neg hnot.2] at hround
    have hnext : slots hash index.exp key (j - (ahead + 1)) =
        probe (hash key) index.exp (j - ahead) := by
      rw [slots, show j - (ahead + 1) + 1 = j - ahead by omega]
    obtain ⟨rounds, rfl⟩ : ∃ k, rounds = k + 1 := ⟨rounds - 1, by omega⟩
    rw [loop_succ_of_inl hround, hnext]
    exact ih (by omega) rounds (by omega)
      (searchRound_eq hash hzero whenEmpty whenFound key index (j - ahead))

/-- A search comes to the slot where it ends. -/
theorem search_eq {whenEmpty : U32 → MsiProgram T Bool} {whenFound : Bool} {key : T}
    {index : MsiSet T} (hzero : ∀ value, isEmpty value = true ↔ value = zero) {j : Nat}
    (hj : OpenAddressing.EndsFirst zero (slots hash index.exp) index.buf key j) {rounds : Nat}
    (hrounds : j < rounds) :
    search isEmpty whenEmpty whenFound rounds key (hash key) index =
      if index.buf (slots hash index.exp key j) = zero then
        whenEmpty (slots hash index.exp key j) index
      else .ok whenFound index := by
  have hloop := loop_searchRound_eq hzero whenEmpty whenFound hj j
    le_rfl hrounds
  rwa [Nat.sub_self] at hloop

/-- The set stores the keys of a list, each in one slot of its table. -/
structure Stores (zero : T) (hash : T → U64) (index : MsiSet T) (seen : List T) : Prop where
  probed : OpenAddressing.Probed zero (slots hash index.exp) index.buf
  within : ∀ i, index.buf i ≠ zero → i.toNat < 2 ^ index.exp.toNat
  mem_iff : ∀ key ≠ zero, (∃ i, index.buf i = key) ↔ key ∈ seen
  len_eq : index.len = BitVec.ofNat 64 seen.length

/-- A slot of the table is empty. -/
def HasVacancy (zero : T) (index : MsiSet T) : Prop :=
  ∃ i, i.toNat < 2 ^ index.exp.toNat ∧ index.buf i = zero

omit [DecidableEq T] in
/-- In a table with an empty slot every search ends. -/
theorem HasVacancy.exists_endsFirst {index : MsiSet T} (h : HasVacancy zero index)
    (hexp : index.exp.toNat < 32) (hash : T → U64) (key : T) :
    ∃ j < 2 ^ index.exp.toNat,
      OpenAddressing.EndsFirst zero (slots hash index.exp) index.buf key j := by
  obtain ⟨i, hi, hempty⟩ := h
  obtain ⟨j, ⟨hj, rfl⟩, -⟩ := existsUnique_probe (hash key) hexp hi
  exact OpenAddressing.exists_endsFirst (slots hash index.exp) ⟨j, hj, hempty⟩

omit [DecidableEq T] in
/-- The end of a search tells whether its key is stored. -/
theorem Stores.exists_endsFirst {index : MsiSet T} {seen : List T} (key : T)
    (h : Stores zero hash index seen) (hexp : index.exp.toNat < 32)
    (hvacant : HasVacancy zero index) (hkey : key ≠ zero) :
    ∃ j < 2 ^ index.exp.toNat,
      OpenAddressing.EndsFirst zero (slots hash index.exp) index.buf key j ∧
      (index.buf (slots hash index.exp key j) = zero ↔ key ∉ seen) := by
  obtain ⟨j, hj, hends⟩ := hvacant.exists_endsFirst hexp hash key
  refine ⟨j, hj, hends, ?_⟩
  rw [h.probed.zero_iff hkey hends, ← h.mem_iff key hkey, not_exists]

omit [DecidableEq T] in
/-- A new key in the slot where its search ended is stored. -/
theorem Stores.putIn {index : MsiSet T} {seen : List T} {key : T}
    (h : Stores zero hash index seen) (hexp : index.exp.toNat < 32) (hkey : key ≠ zero) {j : Nat}
    (hj : OpenAddressing.EndsFirst zero (slots hash index.exp) index.buf key j)
    (hempty : index.buf (slots hash index.exp key j) = zero) :
    Stores zero hash
      { index with len := index.len + 1,
                   buf := Function.update index.buf (slots hash index.exp key j) key }
      (seen ++ [key]) := by
  refine ⟨h.probed.update hkey hj hempty, fun i hi => ?_, fun key' hkey' => ?_, ?_⟩
  · by_cases hslot : i = slots hash index.exp key j
    · rw [hslot, slots, toNat_probe (hash key) hexp]
      exact Nat.mod_lt _ (by positivity)
    · exact h.within i (by simpa only [Function.update_of_ne hslot] using hi)
  · rw [List.mem_append, List.mem_singleton, ← h.mem_iff key' hkey']
    constructor
    · rintro ⟨i, hi⟩
      dsimp only at hi
      by_cases hslot : i = slots hash index.exp key j
      · rw [hslot, Function.update_self] at hi
        exact .inr hi.symm
      · rw [Function.update_of_ne hslot] at hi
        exact .inl ⟨i, hi⟩
    · rintro (⟨i, hi⟩ | rfl)
      · have hslot : i ≠ slots hash index.exp key j := by
          rintro rfl
          exact hkey' (hi.symm.trans hempty)
        exact ⟨i, (Function.update_of_ne hslot _ _).trans hi⟩
      · exact ⟨_, Function.update_self _ _ _⟩
  · rw [List.length_append, List.length_singleton, BitVec.ofNat_add, ← h.len_eq]
    rfl

end Search

/-! ## Calls -/

section Calls

variable {T : Type} [DecidableEq T]

/-- A call of a set, with the hash of its key. -/
def runSetCall (insert contains : Nat → T → U64 → MsiProgram T Bool) (hash : T → U64)
    (rounds : Nat) : KeyCall T → MsiProgram T Bool
  | .insert key => insert rounds key (hash key)
  | .contains key => contains rounds key (hash key)

/-- Calls one after the other, with their results. -/
def runSetCalls (insert contains : Nat → T → U64 → MsiProgram T Bool) (hash : T → U64)
    (rounds : Nat) : List (KeyCall T) → MsiProgram T (List Bool)
  | [] => return []
  | call :: calls => do
    let answer ← runSetCall insert contains hash rounds call
    return answer :: (← runSetCalls insert contains hash rounds calls)

/-- What a call should return, given the keys before it. -/
def answerOf (seen : List T) : KeyCall T → Bool
  | .insert key => key ∉ seen
  | .contains key => key ∈ seen

/-- What the calls should return. -/
def answers (seen : List T) : List (KeyCall T) → List Bool
  | [] => []
  | call :: calls => answerOf seen call :: answers (call.register seen) calls

variable {isEmpty : T → Bool} {zero : T} {hash : T → U64}

/-- A call on a set with an empty slot ends, with the right answer. -/
theorem runSetCall_returns (hzero : ∀ value, isEmpty value = true ↔ value = zero)
    {index : MsiSet T} {seen : List T} (h : Stores zero hash index seen)
    (hexp : index.exp.toNat < 32) (hvacant : HasVacancy zero index) {call : KeyCall T}
    (hkey : call.key ≠ zero) {rounds : Nat} (hrounds : 2 ^ index.exp.toNat ≤ rounds) :
    ReturnsWith (runSetCall (msiInsert isEmpty) (msiContains isEmpty) hash rounds call index)
      fun answer index' => answer = answerOf seen call ∧ index'.exp = index.exp ∧
        Stores zero hash index' (call.register seen) := by
  cases call with
  | insert key =>
    obtain ⟨j, hj, hends, hstored⟩ := h.exists_endsFirst key hexp hvacant hkey
    rw [runSetCall, msiInsert, search_eq hzero hends (by omega)]
    by_cases hnew : key ∉ seen
    · have hempty := hstored.mpr hnew
      rw [if_pos hempty, KeyCall.register, if_neg hnew]
      exact ⟨true, _, rfl, by simp [answerOf, hnew], rfl, h.putIn hexp hkey hends hempty⟩
    · rw [if_neg (mt hstored.mp hnew), KeyCall.register, if_pos (not_not.mp hnew)]
      exact ⟨false, index, rfl, by simpa [answerOf] using hnew, rfl, h⟩
  | contains key =>
    obtain ⟨j, hj, hends, hstored⟩ := h.exists_endsFirst key hexp hvacant hkey
    rw [runSetCall, msiContains, search_eq hzero hends (by omega), KeyCall.register]
    by_cases hnew : key ∉ seen
    · rw [if_pos (hstored.mpr hnew)]
      exact ⟨false, index, rfl, by simp [answerOf, hnew], rfl, h⟩
    · rw [if_neg (mt hstored.mp hnew)]
      exact ⟨true, index, rfl, by simpa [answerOf] using hnew, rfl, h⟩

/-- What a set of keys should do: for every exponent a new set accepts, every hash function and
every sequence of calls that finds an empty slot each time, the calls end with the right
answers, `len` counts the keys and each of them has one slot. -/
def SetSemantics (zero : T) (insert contains : Nat → T → U64 → MsiProgram T Bool) : Prop :=
  ∀ (exp : U8) (index : MsiSet T), msi_newSet zero exp = .ok index →
    ∀ (hash : T → U64) (rounds : Nat), 2 ^ exp.toNat ≤ rounds →
    ∀ calls : List (KeyCall T), (∀ call ∈ calls, call.key ≠ zero) →
      (∀ before call after, calls = before ++ call :: after → ∀ results index',
        runSetCalls insert contains hash rounds before index = .ok results index' →
        ∃ i, i.toNat < 2 ^ exp.toNat ∧ index'.buf i = zero) →
      ReturnsWith (runSetCalls insert contains hash rounds calls index) fun results index' =>
        results = answers [] calls ∧
        index'.len.toNat = (registerAll [] calls).length ∧
        ∀ key ≠ zero, key ∈ registerAll [] calls ↔
          ∃! i, i.toNat < 2 ^ exp.toNat ∧ index'.buf i = key

theorem runSetCalls_returns (hzero : ∀ value, isEmpty value = true ↔ value = zero)
    {rounds : Nat} {calls : List (KeyCall T)} (hkeys : ∀ call ∈ calls, call.key ≠ zero)
    {index : MsiSet T} {seen : List T} (h : Stores zero hash index seen)
    (hexp : index.exp.toNat < 32) (hrounds : 2 ^ index.exp.toNat ≤ rounds)
    (hvacant : ∀ before call after, calls = before ++ call :: after → ∀ results index',
      runSetCalls (msiInsert isEmpty) (msiContains isEmpty) hash rounds before index =
        .ok results index' → ∃ i, i.toNat < 2 ^ index.exp.toNat ∧ index'.buf i = zero) :
    ReturnsWith (runSetCalls (msiInsert isEmpty) (msiContains isEmpty) hash rounds calls index)
      fun results index' => results = answers seen calls ∧ index'.exp = index.exp ∧
        Stores zero hash index' (registerAll seen calls) := by
  induction calls generalizing index seen with
  | nil => exact ReturnsWith.pure ⟨rfl, rfl, h⟩
  | cons call calls ih =>
    obtain ⟨answer, index₁, hcall, rfl, hexp₁, h₁⟩ := runSetCall_returns hzero h hexp
      (hvacant [] call calls rfl [] index rfl) (hkeys call List.mem_cons_self) hrounds
    rw [← hexp₁] at hexp hrounds
    obtain ⟨results, index₂, hrest, rfl, hexp₂, h₂⟩ := ih
      (fun call' hcall' => hkeys call' (List.mem_cons_of_mem _ hcall')) h₁ hexp hrounds
      (by
        intro before call' after hsplit results index' hrun
        rw [hexp₁]
        refine hvacant (call :: before) call' after (congrArg (call :: ·) hsplit)
          (answerOf seen call :: results) index' ?_
        exact bind_eq_ok.mpr ⟨_, index₁, hcall, bind_eq_ok.mpr ⟨results, index', hrun, rfl⟩⟩)
    exact ⟨_, index₂, bind_eq_ok.mpr ⟨_, index₁, hcall, bind_eq_ok.mpr ⟨_, index₂, hrest, rfl⟩⟩,
      rfl, hexp₂.trans hexp₁, h₂⟩

/-- A set has no more keys than slots. -/
theorem Stores.length_le {index : MsiSet T} {seen : List T} (h : Stores zero hash index seen)
    (hnodup : seen.Nodup) (hkeys : zero ∉ seen) : seen.length ≤ 2 ^ index.exp.toNat := by
  have hsubset : seen.toFinset ⊆
      (Finset.range (2 ^ index.exp.toNat)).image fun i => index.buf (BitVec.ofNat 32 i) := by
    intro key hkey
    rw [List.mem_toFinset] at hkey
    have hne : key ≠ zero := fun heq => hkeys (heq ▸ hkey)
    obtain ⟨i, rfl⟩ := (h.mem_iff key hne).mpr hkey
    rw [Finset.mem_image]
    exact ⟨i.toNat, Finset.mem_range.mpr (h.within i hne),
      by rw [BitVec.ofNat_toNat, BitVec.setWidth_eq]⟩
  rw [← List.toFinset_card_of_nodup hnodup]
  exact (Finset.card_le_card hsubset).trans (Finset.card_image_le.trans_eq (Finset.card_range _))

/-- The common code of the sets does what a set should do. -/
theorem msi_semantics (hzero : ∀ value, isEmpty value = true ↔ value = zero) :
    SetSemantics zero (msiInsert isEmpty) (msiContains isEmpty) := by
  intro exp index hnew hash rounds hrounds calls hkeys hvacant
  unfold msi_newSet at hnew
  split at hnew
  · cases hnew
  split at hnew
  · cases hnew
  rename_i hexp
  obtain rfl := Except.ok.inj hnew
  rw [BitVec.le_def, not_le] at hexp
  replace hexp : exp.toNat < 31 := hexp
  have hempty : Stores zero hash ⟨fun _ => zero, exp, 0⟩ [] :=
    ⟨.empty, fun _ h => (h rfl).elim, fun key hkey => by simp [hkey.symm], rfl⟩
  obtain ⟨results, index', hrun, rfl, hsame, h⟩ :=
    runSetCalls_returns hzero hkeys hempty (hexp.trans (by decide)) hrounds hvacant
  refine ⟨_, index', hrun, rfl, ?_, fun key hkey => ?_⟩
  · have hzeroNot : zero ∉ registerAll [] calls := by
      rw [mem_registerAll]
      rintro (h | h)
      · cases h
      · exact hkeys _ h rfl
    have hle := h.length_le (nodup_registerAll List.nodup_nil calls) hzeroNot
    have hpow : 2 ^ index'.exp.toNat < 2 ^ 64 := by
      rw [hsame]
      exact Nat.pow_lt_pow_right (by norm_num) (hexp.trans (by decide))
    rw [h.len_eq, BitVec.toNat_ofNat, Nat.mod_eq_of_lt (by omega)]
  · rw [← h.mem_iff key hkey]
    constructor
    · rintro ⟨i, rfl⟩
      refine ⟨i, ⟨?_, rfl⟩, ?_⟩
      · have hwithin := h.within i hkey
        rwa [hsame] at hwithin
      · rintro i' ⟨-, hi'⟩
        exact (h.probed.once i i' hkey hi'.symm).symm
    · rintro ⟨i, ⟨-, hi⟩, -⟩
      exact ⟨i, hi⟩

end Calls

/-- The sets of strings and of 16-bit numbers do what a set should do, and the probes of a
search visit every slot of the table once before they repeat. -/
theorem msi_sets_semantics :
    SetSemantics ⟨[], by decide⟩ msi_insertString msi_containsString ∧
    SetSemantics 0 msi_insertU16 msi_containsU16 ∧
    ∀ (hash : U64) (exp : U8), 1 ≤ exp.toNat → exp.toNat ≤ 30 →
      ∀ i : U32, i.toNat < 2 ^ exp.toNat →
        ∃! j, j < 2 ^ exp.toNat ∧ probe hash exp (j + 1) = i := by
  refine ⟨msi_semantics fun s => ?_, msi_semantics fun v => decide_eq_true_iff, ?_⟩
  · rw [decide_eq_true_iff, ← BitVec.toNat_inj, ByteString.toNat_len]
    cases s with
    | mk buf hlt => simp [List.length_eq_zero_iff]
  · intro hash exp _ hexp i hi
    exact existsUnique_probe hash (by omega) hi

/-- Three numbers with one hash are put into a table of four slots, one of them twice, and the last
of them and a fourth number are looked up. -/
theorem msi_sets_semantics_four :
    ReturnsWith (runSetCalls msi_insertU16 msi_containsU16 (fun _ => 5) 4
      [.insert 7, .insert 9, .insert 11, .insert 9, .contains 11, .contains 13] ⟨fun _ => 0, 2, 0⟩)
      fun results index =>
        results = [true, true, true, false, true, false] ∧ index.len.toNat = 3 := by
  have hvacant : ∀ before ∈ [.insert 7, .insert 9, .insert 11, .insert 9, .contains 11,
      .contains 13].inits, ReturnsWith (runSetCalls msi_insertU16 msi_containsU16 (fun _ => 5) 4
        before ⟨fun _ => 0, 2, 0⟩) fun _ index => ∃ i ∈ List.range 4, index.buf i = 0 := by
    decide +kernel
  refine (msi_sets_semantics.2.1 2 ⟨fun _ => 0, 2, 0⟩ rfl (fun _ => 5) 4 (by decide) _
    (by decide) fun before call after hsplit results index hrun => ?_).weaken fun results index h =>
      ⟨h.1.trans (by decide), h.2.1.trans (by decide)⟩
  obtain ⟨_, _, hrun', i, hi, hempty⟩ := hvacant before
    ((List.mem_inits _ _).mpr (hsplit ▸ List.prefix_append _ _))
  cases hrun.symm.trans hrun'
  have hlt := List.mem_range.mp hi
  refine ⟨i, ?_, hempty⟩
  rw [BitVec.natCast_eq_ofNat, BitVec.toNat_ofNat]
  exact (Nat.mod_le _ _).trans_lt hlt

end Homegrown.Hash
