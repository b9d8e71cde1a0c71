import Mathlib.Order.Bounds.Basic
import Homegrown.Shared.Text.Reference
import Homegrown.Shared.Text.Search

/-!
# Searching a string in memory

`firstOccurenceOf` goes forward and is what it says (`findsFirst_iff`). The test that
`lastOccurenceOf` goes on with holds only where its index is none: it leaves a string that is not
empty unread, and reads what is before an empty one (`findsLast_iff`).
-/

namespace Homegrown.StringRef

section Definitions

variable (memory : U64 → U8) (s : StringRef)

/-- `firstOccurenceOfFrom`. -/
def firstOccurenceOfFrom (rounds : Nat) (ch : U8) (start : U64) : Reader I64 := do
  if start < s.len then
    match ← findFrom memory s rounds ch start with
    | some i => return i
    | none => return -1
  else throw .assertion

/-- `firstOccurenceOf`. -/
def firstOccurenceOf (rounds : Nat) (ch : U8) : Reader I64 :=
  firstOccurenceOfFrom memory s rounds ch 0

/-- A round of the loop of `lastOccurenceOf`. -/
def lastRound (ch : U8) (i : U64) : Reader (U64 ⊕ I64) := do
  -- The index is unsigned; the source goes on while it is not below the length.
  if s.len ≤ i then
    let byte ← readByte memory (s.buf + i)
    if byte = ch then return .inr i else return .inl (i - 1)
  else return .inr (-1)

/-- `lastOccurenceOf`. -/
def lastOccurenceOf (rounds : Nat) (ch : U8) : Reader I64 :=
  loop .outOfFuel (lastRound memory s ch) rounds (s.len - 1)

/-- The indices of a byte. -/
def occurrences (ch : U8) : Set Nat := {i | (s.bytes memory)[i]? = some ch}

/-- The search ends with the extreme index of the byte, and with -1 exactly where there is none,
and has read the string only. -/
def Finds (ch : U8) (extreme : Set Nat → Nat → Prop) (search : Nat → Reader I64) : Prop :=
  ∃ rounds, ReturnsWith (search rounds []) fun r reads =>
    (∀ i, extreme (s.occurrences memory ch) i → r.toInt = i) ∧
    (r.toInt = -1 ↔ s.occurrences memory ch = ∅) ∧ s.ReadsInside reads

/-- `firstOccurenceOf` finds the least index. -/
def FindsFirst (ch : U8) : Prop :=
  s.Finds memory ch IsLeast fun rounds => s.firstOccurenceOf memory rounds ch

/-- `lastOccurenceOf` finds the greatest index. -/
def FindsLast (ch : U8) : Prop :=
  s.Finds memory ch IsGreatest fun rounds => s.lastOccurenceOf memory rounds ch

/-- Both searches find what they are for, the first one in a string that is not empty. -/
def FindsOccurrences (ch : U8) : Prop :=
  (s.len ≠ 0 → s.FindsFirst memory ch) ∧ s.FindsLast memory ch

end Definitions

variable {memory : U64 → U8} {s : StringRef} {ch : U8} {start : U64} {reads : List U64}
  {rounds : Nat}

/-! ## The first index -/

/-- The result is the first place as a signed number, or -1. -/
theorem firstOccurenceOfFrom_returns (hs : s.Valid) (hreads : s.ReadsInside reads)
    (hstart : start < s.len) (hrounds : s.len.toNat < rounds) :
    ReturnsWith (s.firstOccurenceOfFrom memory rounds ch start reads) fun r reads' =>
      s.ReadsInside reads' ∧
        ∃ found, FirstFrom (s.bytes memory) ch start.toNat found ∧ r = found.getD (-1) := by
  rw [firstOccurenceOfFrom, if_pos hstart]
  refine (findFrom_returns hs hreads (by omega)).bind fun found reads' hfound => ?_
  cases found with
  | some i => exact ReturnsWith.pure ⟨hfound.1, some i, hfound.2, rfl⟩
  | none => exact ReturnsWith.pure ⟨hfound.1, none, hfound.2, rfl⟩

/-- The search gives what the search of the list of the bytes does. -/
theorem firstOccurenceOfFrom_refines (hs : s.Valid) (hreads : s.ReadsInside reads)
    (hstart : start < s.len) (hrounds : s.len.toNat < rounds) :
    ReturnsWith (s.firstOccurenceOfFrom memory rounds ch start reads) fun r _ =>
      r = Homegrown.firstOccurenceOfFrom (s.content memory) ch start := by
  refine (firstOccurenceOfFrom_returns hs hreads hstart hrounds).weaken fun r _ hr => ?_
  obtain ⟨-, found, hfound, rfl⟩ := hr
  rcases firstOccurenceOfFrom_spec (s.content memory) ch start with
    ⟨i, hle, hi, hfirst, hresult⟩ | ⟨hnone, hresult⟩
  · have hsome : FirstFrom (s.bytes memory) ch start.toNat
        (some (Homegrown.firstOccurenceOfFrom (s.content memory) ch start)) := by
      rw [← hresult] at hle hi hfirst
      exact ⟨hle, hi, hfirst⟩
    rw [hfound.unique hsome, Option.getD_some]
  · have hnone : FirstFrom (s.bytes memory) ch start.toNat none := hnone
    rw [hfound.unique hnone, hresult, Option.getD_none]

/-- The place found from the start on is the least index. -/
theorem isLeast_of_firstFrom {i : U64} (h : FirstFrom (s.bytes memory) ch 0 (some i)) :
    IsLeast (s.occurrences memory ch) i.toNat := by
  refine ⟨h.2.1, fun j hj => ?_⟩
  by_contra hlt
  exact h.2.2 j (Nat.zero_le _) (Nat.lt_of_not_le hlt) hj

theorem occurrences_eq_empty_of_firstFrom (h : FirstFrom (s.bytes memory) ch 0 none) :
    s.occurrences memory ch = ∅ :=
  Set.eq_empty_of_forall_notMem fun j => h j (Nat.zero_le _)

/-- `firstOccurenceOf` finds the least index, unless it is too large for a signed number. -/
theorem findsFirst_iff (hs : s.Valid) (hne : s.len ≠ 0) :
    s.FindsFirst memory ch ↔ ∀ i, IsLeast (s.occurrences memory ch) i → i < 2 ^ 63 := by
  constructor
  · rintro ⟨rounds, r, reads, -, hextreme, -, -⟩ i hi
    have hlt := BitVec.toInt_lt (x := r)
    rw [hextreme i hi] at hlt
    omega
  · intro hsmall
    have hpos : (0 : U64) < s.len := by
      rw [BitVec.lt_def]
      exact Nat.pos_of_ne_zero fun h0 => hne (BitVec.eq_of_toNat_eq h0)
    refine ⟨s.len.toNat + 1, (firstOccurenceOfFrom_returns hs
      (fun a ha => absurd ha List.not_mem_nil) hpos (Nat.lt_succ_self _)).weaken ?_⟩
    rintro r reads ⟨hreads, found, hfound, rfl⟩
    cases found with
    | some i =>
      have hleast := isLeast_of_firstFrom hfound
      have hi := hsmall _ hleast
      have htoInt : i.toInt = i.toNat := BitVec.toInt_eq_toNat_of_lt (by omega)
      rw [Option.getD_some, htoInt]
      refine ⟨fun j hj => by rw [hj.unique hleast], ⟨fun h => by omega, fun hempty => ?_⟩, hreads⟩
      exact absurd hleast.1 (hempty ▸ Set.notMem_empty _)
    | none =>
      have hempty := occurrences_eq_empty_of_firstFrom hfound
      refine ⟨fun j hj => absurd hj.1 (hempty ▸ Set.notMem_empty _), ⟨fun _ => hempty, fun _ => ?_⟩,
        hreads⟩
      rw [Option.getD_none]
      decide

/-! ## The last index -/

/-- The backward search leaves a string that is not empty at once. -/
theorem lastOccurenceOf_of_len_ne_zero (hne : s.len ≠ 0) (rounds : Nat) :
    s.lastOccurenceOf memory (rounds + 1) ch reads = .ok (-1) reads := by
  have hlt : ¬ s.len ≤ s.len - 1 := by
    have hpos := Nat.pos_of_ne_zero fun h0 : s.len.toNat = 0 => hne (BitVec.eq_of_toNat_eq h0)
    have hone : (s.len - 1).toNat = s.len.toNat - 1 := BitVec.toNat_sub_of_le hpos
    rw [BitVec.le_def, hone]
    omega
  apply loop_succ_of_inr
  rw [lastRound, if_neg hlt]
  rfl

/-- In an empty string it does not end without a read. -/
theorem ensures_lastOccurenceOf_reads (hlen : s.len = 0) (rounds : Nat) :
    Ensures (fun _ => True) (s.lastOccurenceOf memory rounds ch) fun _ reads => reads ≠ [] := by
  refine @Ensures.loop _ _ _ _ _ _ (fun _ _ => True) (fun _ reads => reads ≠ [])
    (fun i reads r reads' _ hround => ?_) rounds _
  have hle : s.len ≤ i := by
    rw [hlen, BitVec.le_def]
    exact Nat.zero_le _
  rw [lastRound, if_pos hle, bind_of_ok (readByte_returns ..)] at hround
  cases r with
  | inl next => trivial
  | inr b =>
    split at hround
    · obtain ⟨-, rfl⟩ := pure_eq_ok.mp hround
      simp
    · cases (pure_eq_ok.mp hround).1

/-- `lastOccurenceOf` finds the greatest index only where there is none, and not in an empty
string. -/
theorem findsLast_iff :
    s.FindsLast memory ch ↔ s.len ≠ 0 ∧ s.occurrences memory ch = ∅ := by
  constructor
  · rintro ⟨rounds, r, reads, hrun, -, hnone, hreads⟩
    have hne : s.len ≠ 0 := by
      intro hlen
      obtain ⟨a, ha⟩ := List.exists_mem_of_ne_nil _
        (ensures_lastOccurenceOf_reads hlen rounds [] r reads trivial hrun)
      have hinside := hreads a ha
      rw [span, hlen, Span.mem_mk] at hinside
      exact absurd hinside.2 (Nat.not_lt.mpr hinside.1)
    refine ⟨hne, hnone.mp ?_⟩
    cases rounds with
    | zero => exact (throw_eq_ok.mp hrun).elim
    | succ rounds =>
      have hend := (lastOccurenceOf_of_len_ne_zero hne rounds).symm.trans hrun
      injection hend with hr _
      rw [← hr]
      decide
  · rintro ⟨hne, hempty⟩
    refine ⟨1, -1, [], lastOccurenceOf_of_len_ne_zero hne 0, fun i hi => ?_, ?_, ?_⟩
    · exact absurd hi.1 (hempty ▸ Set.notMem_empty _)
    · exact ⟨fun _ => hempty, fun _ => by decide⟩
    · exact fun a ha => absurd ha List.not_mem_nil

/-- Both searches find what they are for only where there is nothing to find in a string that is
not empty; the fault is in `lastOccurenceOf`. -/
theorem findsOccurrences_iff (hs : s.Valid) :
    (s.FindsOccurrences memory ch ↔ s.len ≠ 0 ∧ s.occurrences memory ch = ∅) ∧
    (s.FindsLast memory ch ↔ s.len ≠ 0 ∧ s.occurrences memory ch = ∅) ∧
    (s.len ≠ 0 → (s.FindsFirst memory ch ↔
      ∀ i, IsLeast (s.occurrences memory ch) i → i < 2 ^ 63)) := by
  refine ⟨⟨fun h => findsLast_iff.mp h.2, fun h => ⟨fun hne => ?_, findsLast_iff.mpr h⟩⟩,
    findsLast_iff, findsFirst_iff hs⟩
  refine (findsFirst_iff hs hne).mpr fun i hi => ?_
  exact absurd hi.1 (h.2 ▸ Set.notMem_empty _)

theorem findsOccurrences_iff_of_absent :
    (⟨0x1000, 1⟩ : StringRef).FindsOccurrences (fun _ => 0x2f) 0x41 :=
  (findsOccurrences_iff ⟨by decide, by decide⟩).1.mpr
    ⟨by decide, Set.eq_empty_of_forall_notMem fun i hi => by
      rw [occurrences, Set.mem_ofPred_eq, getElem?_bytes] at hi
      split at hi
      · exact absurd (Option.some.inj hi) (by decide)
      · cases hi⟩

theorem not_findsOccurrences_slash :
    ¬ ∀ (memory : U64 → U8) (s : StringRef) (ch : U8), s.Valid → s.FindsOccurrences memory ch := by
  intro h
  have hfinds := h (fun _ => 0x2f) ⟨0x1000, 1⟩ 0x2f ⟨by decide, by decide⟩
  have hempty := (findsLast_iff.mp hfinds.2).2
  have hmem : 0 ∈ (⟨0x1000, 1⟩ : StringRef).occurrences (fun _ => 0x2f) 0x2f := by
    rw [occurrences, Set.mem_ofPred_eq]
    decide
  exact absurd hmem (hempty ▸ Set.notMem_empty _)

end Homegrown.StringRef
