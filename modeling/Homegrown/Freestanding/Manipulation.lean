import Mathlib.Data.BitVec
import Mathlib.Tactic.Ring
import Homegrown.Core.Loop
import Homegrown.Core.Move
import Homegrown.Shared.Maths

/-!
# Copying memory

`memcpy` copies blocks that do not overlap, in pieces that may be written twice. `memmove`
leaves such blocks to it, and copies others from the end where no byte is overwritten before it
was read. Its test for blocks that do not overlap doubles their length, and is right for lengths
up to `2 ^ 63`.
-/

namespace Homegrown.Freestanding

/-- The bytes of memory, by their addresses. -/
abbrev Bytes := U64 → U8

/-- Programs on memory. They fail when a loop is given too few rounds. -/
abbrev Copier := EStateM Unit Bytes

/-- Memory after so many bytes were read, and then written. -/
def Bytes.copied (m : Bytes) (width : Nat) (dest src : U64) : Bytes := fun a =>
  if (a - dest).toNat < width then m (a - dest + src) else m a

/-- An assignment `*(T *)dest = *(T *)src` of a type of so many bytes. -/
def copyBytes (width : Nat) (dest src : U64) : Copier Unit :=
  modify fun m => m.copied width dest src

theorem copyBytes_bind {α : Type} {f : Unit → Copier α} {m : Bytes} {width : Nat}
    {dest src : U64} : (copyBytes width dest src >>= f) m = f () (m.copied width dest src) := rfl

/-! ## `memcpy` -/

/-- A round of the loop of `memcpy`. -/
def stampRound (last_word_d : U64) : U64 × U64 → Copier ((U64 × U64) ⊕ Unit)
  | (d, s) => do
    copyBytes 32 d s
    if d + 32 < last_word_d then return .inl (d + 32, s + 32)
    else return .inr ()

/-- `memcpy`. -/
def memcpy (rounds : Nat) (dest src n : U64) : Copier U64 := do
  if n < 5 then
    if n = 0 then return dest
    else
      copyBytes 1 dest src
      copyBytes 1 (n - 1 + dest) (n - 1 + src)
      if n ≤ 2 then return dest
      else
        copyBytes 1 (1 + dest) (1 + src)
        copyBytes 1 (2 + dest) (2 + src)
        return dest
  else if n ≤ 16 then
    if 8 ≤ n then
      copyBytes 8 dest src
      copyBytes 8 (dest + n - 8) (src + n - 8)
      return dest
    else
      copyBytes 4 dest src
      copyBytes 4 (dest + n - 4) (src + n - 4)
      return dest
  else if n ≤ 32 then
    copyBytes 16 dest src
    copyBytes 16 (dest + n - 16) (src + n - 16)
    return dest
  else
    loop () (stampRound (dest + n - 32)) rounds (dest, src)
    copyBytes 32 (dest + n - 32) (src + n - 32)
    return dest

/-! ## `memmove` -/

/-- `WS`. -/
def ws : U64 := 8

/-- The variables of `memmove` where it copies forward. -/
structure Cursor where
  d : U64
  s : U64
  n : U64
  deriving DecidableEq, Repr

/-- `d` and `s` advance over bytes that were copied. -/
def Cursor.advance (c : Cursor) (width : U64) : Cursor := ⟨c.d + width, c.s + width, c.n - width⟩

/-- The first loop where `d` is below `s`, which returns from the function when no byte is left. -/
def alignForward (c : Cursor) : Copier (Cursor ⊕ Option Cursor) := do
  if c.d % ws ≠ 0 then
    if c.n = 0 then return .inr none
    else
      copyBytes 1 c.d c.s
      return .inl (c.advance 1)
  else return .inr (some c)

/-- The loop over words where `d` is below `s`. -/
def wordsForward (c : Cursor) : Copier (Cursor ⊕ Cursor) := do
  if ws ≤ c.n then
    copyBytes 8 c.d c.s
    return .inl (c.advance ws)
  else return .inr c

/-- The loop over bytes where `d` is below `s`. -/
def bytesForward (c : Cursor) : Copier (Cursor ⊕ Unit) := do
  if c.n ≠ 0 then
    copyBytes 1 c.d c.s
    return .inl (c.advance 1)
  else return .inr ()

/-- The part of `memmove` for equal alignments, where `d` is below `s`. -/
def alignedForward (rounds : Nat) (c : Cursor) : Copier (Option Cursor) := do
  if c.s % ws = c.d % ws then
    match ← loop () alignForward rounds c with
    | none => return none
    | some c =>
      let c ← loop () wordsForward rounds c
      return some c
  else return some c

/-- `memmove`, where `d` is below `s`. -/
def moveForward (rounds : Nat) (dest src n : U64) : Copier U64 := do
  match ← alignedForward rounds ⟨dest, src, n⟩ with
  | none => return dest
  | some c =>
    loop () bytesForward rounds c
    return dest

/-- The first loop where `s` is below `d`, which returns from the function when no byte is left. -/
def alignBackward (d s n : U64) : Copier (U64 ⊕ Option U64) := do
  if (d + n) % ws ≠ 0 then
    if n = 0 then return .inr none
    else
      copyBytes 1 (n - 1 + d) (n - 1 + s)
      return .inl (n - 1)
  else return .inr (some n)

/-- The loop over words where `s` is below `d`. -/
def wordsBackward (d s n : U64) : Copier (U64 ⊕ U64) := do
  if ws ≤ n then
    copyBytes 8 (n - ws + d) (n - ws + s)
    return .inl (n - ws)
  else return .inr n

/-- The loop over bytes where `s` is below `d`. -/
def bytesBackward (d s n : U64) : Copier (U64 ⊕ Unit) := do
  if n ≠ 0 then
    copyBytes 1 (n - 1 + d) (n - 1 + s)
    return .inl (n - 1)
  else return .inr ()

/-- The part of `memmove` for equal alignments, where `s` is below `d`. -/
def alignedBackward (rounds : Nat) (d s n : U64) : Copier (Option U64) := do
  if s % ws = d % ws then
    match ← loop () (alignBackward d s) rounds n with
    | none => return none
    | some n =>
      let n ← loop () (wordsBackward d s) rounds n
      return some n
  else return some n

/-- `memmove`, where `s` is below `d`. -/
def moveBackward (rounds : Nat) (dest src n : U64) : Copier U64 := do
  match ← alignedBackward rounds dest src n with
  | none => return dest
  | some n =>
    loop () (bytesBackward dest src) rounds n
    return dest

/-- `memmove`. -/
def memmove (rounds : Nat) (dest src n : U64) : Copier U64 := do
  if dest = src then return dest
  else if src - dest - n ≤ -2 * n then memcpy rounds dest src n
  else if dest < src then moveForward rounds dest src n
  else moveBackward rounds dest src n

/-! ## Pieces -/

/-- The offsets of an interval. -/
def between (lo hi : Nat) : Set U64 := {x | lo ≤ x.toNat ∧ x.toNat < hi}

/-- The indices from one number to another. -/
@[simp] theorem mem_between {lo hi : Nat} {x : U64} :
    x ∈ between lo hi ↔ lo ≤ x.toNat ∧ x.toNat < hi := Iff.rfl

section Pieces

variable {dest src k : U64} {m m₀ : Bytes} {I : Set U64} {w : Nat}

/-- A copy of some bytes moves them. -/
theorem moved_copied : Moved dest src (between 0 w) m (m.copied w dest src) := by
  refine ⟨fun a ha => if_pos ha.2, fun a ha => if_neg fun hlt => ha ⟨Nat.zero_le _, hlt⟩⟩

/-- A piece is added to what was moved, when it is read from where nothing was written. -/
theorem moved_join (h : Moved dest src I m₀ m) (hk : k.toNat + w ≤ 2 ^ 64)
    (hfresh : ∀ i ∈ between k.toNat (k.toNat + w), i + (src - dest) ∉ I) :
    Moved dest src (I ∪ between k.toNat (k.toNat + w)) m₀
      (m.copied w (k + dest) (k + src)) := by
  have hpiece : ∀ y : U64, y - k ∈ between 0 w ↔ y ∈ between k.toNat (k.toNat + w) := by
    intro y
    have hy := y.isLt
    simp only [mem_between, BitVec.toNat_sub]
    omega
  refine (h.trans moved_copied fun y hy => ?_).congr fun y => ?_
  · apply hfresh
    rw [← hpiece, add_sub_cancel_right]
    exact hy
  · simp only [Set.mem_union, Set.mem_ofPred_eq, hpiece]

end Pieces

/-! ## Blocks -/

/-- Neither block wraps. -/
structure Fits (dest src n : U64) : Prop where
  dest : dest.toNat + n.toNat ≤ 2 ^ 64
  src : src.toNat + n.toNat ≤ 2 ^ 64

section Blocks

variable {dest src n i k : U64} {m m₀ : Bytes} {x w rounds : Nat} {c : Cursor}

/-- Where a byte of the source lies, seen from a destination below it. -/
theorem Fits.toNat_read_of_lt (h : Fits dest src n) (hlt : dest.toNat < src.toNat)
    (hi : i.toNat < n.toNat) :
    (i + (src - dest)).toNat = i.toNat + (src.toNat - dest.toNat) := by
  have hsrc := h.src
  rw [BitVec.toNat_add, BitVec.toNat_sub]
  omega

/-- Where a byte of the source lies, seen from a destination above it. -/
theorem Fits.toNat_read_of_gt (h : Fits dest src n) (hgt : src.toNat < dest.toNat)
    (hi : i.toNat < n.toNat) :
    (i + (src - dest)).toNat < i.toNat ∨ n.toNat ≤ (i + (src - dest)).toNat := by
  have hdest := h.dest
  rw [BitVec.toNat_add, BitVec.toNat_sub]
  omega

/-! ## Copying forward -/

/-- The bytes up to the cursor were moved. -/
structure ForwardDone (dest src n : U64) (m₀ : Bytes) (c : Cursor) (m : Bytes) : Prop where
  left : c.n.toNat ≤ n.toNat
  d : c.d = n - c.n + dest
  s : c.s = n - c.n + src
  moved : Moved dest src (between 0 (n.toNat - c.n.toNat)) m₀ m

/-- Nothing is done at the start. -/
theorem ForwardDone.start : ForwardDone dest src n m ⟨dest, src, n⟩ m := by
  refine ⟨le_rfl, ?_, ?_, ?_⟩
  · simp
  · simp
  · rw [Nat.sub_self]
    exact Moved.none.congr fun y => by simp [between]

/-- A copy forward does the next bytes. -/
theorem ForwardDone.advance (hfits : Fits dest src n) (hlt : dest.toNat < src.toNat)
    (h : ForwardDone dest src n m₀ c m) (hwidth : w ≤ c.n.toNat) :
    ForwardDone dest src n m₀ (c.advance (BitVec.ofNat 64 w)) (m.copied w c.d c.s) ∧
      (c.advance (BitVec.ofNat 64 w)).n.toNat + w = c.n.toNat := by
  have hn := n.isLt
  have hleft := h.left
  have hnext : (c.n - BitVec.ofNat 64 w).toNat = c.n.toNat - w := by
    rw [BitVec.toNat_sub, BitVec.toNat_ofNat]
    omega
  have hdone : (n - c.n).toNat = n.toNat - c.n.toNat := by
    rw [BitVec.toNat_sub]
    omega
  refine ⟨⟨?_, ?_, ?_, ?_⟩, ?_⟩
  · change (c.n - _).toNat ≤ _
    omega
  · change c.d + _ = n - (c.n - _) + dest
    rw [h.d]
    ring
  · change c.s + _ = n - (c.n - _) + src
    rw [h.s]
    ring
  · change Moved dest src (between 0 (n.toNat - (c.n - _).toNat)) _ _
    rw [h.d, h.s, hnext]
    refine (moved_join h.moved (by omega) fun j hj hmoved => ?_).congr fun j => ?_
    · rw [mem_between] at hj hmoved
      have hread := hfits.toNat_read_of_lt hlt (i := j) (by omega)
      omega
    · simp only [Set.mem_union, mem_between]
      omega
  · change (c.n - _).toNat + _ = _
    omega

/-- One byte is moved, where one is left. -/
theorem ForwardDone.advance_byte (hfits : Fits dest src n) (hlt : dest.toNat < src.toNat)
    (h : ForwardDone dest src n m₀ c m) (hne : c.n ≠ 0) :
    ForwardDone dest src n m₀ (c.advance 1) (m.copied 1 c.d c.s) ∧
      (c.advance 1).n.toNat < c.n.toNat := by
  have hpos : 1 ≤ c.n.toNat := Nat.one_le_iff_ne_zero.mpr fun h0 => hne (BitVec.eq_of_toNat_eq h0)
  obtain ⟨hdone, hsum⟩ := h.advance hfits hlt hpos
  exact ⟨hdone, lt_of_lt_of_eq (Nat.lt_succ_self _) hsum⟩

/-- The copy up to an aligned address ends, or does all bytes. -/
theorem alignForward_returns (hfits : Fits dest src n) (hlt : dest.toNat < src.toNat)
    (h : ForwardDone dest src n m₀ c m) (hrounds : c.n.toNat < rounds) :
    ReturnsWith (loop () alignForward rounds c m) fun r m' => match r with
      | none => Moved dest src (between 0 n.toNat) m₀ m'
      | some c' => c'.n.toNat ≤ c.n.toNat ∧ ForwardDone dest src n m₀ c' m' := by
  refine loop_returns (fun c' m' => c'.n.toNat ≤ c.n.toNat ∧ ForwardDone dest src n m₀ c' m')
    (fun c' _ => c'.n.toNat) ?_ ⟨le_rfl, h⟩ hrounds
  rintro c' m' ⟨hle, hc'⟩
  rw [alignForward]
  split
  · split
    · rename_i hzero
      refine ReturnsWith.pure ?_
      have hmoved := hc'.moved
      rwa [hzero] at hmoved
    · rename_i hne
      obtain ⟨hdone, hless⟩ := hc'.advance_byte hfits hlt hne
      rw [copyBytes_bind]
      exact ReturnsWith.pure ⟨⟨hless.le.trans hle, hdone⟩, hless⟩
  · exact ReturnsWith.pure ⟨hle, hc'⟩

/-- The copy of whole words ends. -/
theorem wordsForward_returns (hfits : Fits dest src n) (hlt : dest.toNat < src.toNat)
    (h : ForwardDone dest src n m₀ c m) (hrounds : c.n.toNat < rounds) :
    ReturnsWith (loop () wordsForward rounds c m) fun c' m' =>
      c'.n.toNat ≤ c.n.toNat ∧ ForwardDone dest src n m₀ c' m' := by
  refine loop_returns (fun c' m' => c'.n.toNat ≤ c.n.toNat ∧ ForwardDone dest src n m₀ c' m')
    (fun c' _ => c'.n.toNat) ?_ ⟨le_rfl, h⟩ hrounds
  rintro c' m' ⟨hle, hc'⟩
  rw [wordsForward]
  split
  · rename_i hword
    obtain ⟨hdone, hsum⟩ := hc'.advance hfits hlt (w := 8) hword
    have hless : (c'.advance ws).n.toNat < c'.n.toNat :=
      lt_of_lt_of_eq (Nat.lt_add_of_pos_right (by decide)) hsum
    rw [copyBytes_bind]
    exact ReturnsWith.pure ⟨⟨hless.le.trans hle, hdone⟩, hless⟩
  · exact ReturnsWith.pure ⟨hle, hc'⟩

/-- The copy of the last bytes ends, with all of them moved. -/
theorem bytesForward_returns (hfits : Fits dest src n) (hlt : dest.toNat < src.toNat)
    (h : ForwardDone dest src n m₀ c m) (hrounds : c.n.toNat < rounds) :
    ReturnsWith (loop () bytesForward rounds c m) fun _ m' =>
      Moved dest src (between 0 n.toNat) m₀ m' := by
  refine loop_returns (ForwardDone dest src n m₀) (fun c' _ => c'.n.toNat) ?_ h hrounds
  intro c' m' hc'
  rw [bytesForward]
  split
  · rename_i hne
    obtain ⟨hdone, hless⟩ := hc'.advance_byte hfits hlt hne
    rw [copyBytes_bind]
    exact ReturnsWith.pure ⟨hdone, hless⟩
  · rename_i hzero
    have hmoved := hc'.moved
    rw [not_not.mp hzero] at hmoved
    exact ReturnsWith.pure hmoved

/-- Copying forward moves the block to a destination below it. -/
theorem moveForward_returns (hfits : Fits dest src n) (hlt : dest.toNat < src.toNat)
    (hrounds : n.toNat < rounds) :
    ReturnsWith (moveForward rounds dest src n m) fun r m' =>
      r = dest ∧ Moved dest src (between 0 n.toNat) m m' := by
  have hrest : ReturnsWith (alignedForward rounds ⟨dest, src, n⟩ m) fun r m' => match r with
      | none => Moved dest src (between 0 n.toNat) m m'
      | some c => c.n.toNat ≤ n.toNat ∧ ForwardDone dest src n m c m' := by
    rw [alignedForward]
    split
    · refine ReturnsWith.bind (alignForward_returns hfits hlt .start hrounds) fun r m' hr => ?_
      cases r with
      | none => exact ReturnsWith.pure hr
      | some c =>
        refine ReturnsWith.bind (wordsForward_returns hfits hlt hr.2 (hr.1.trans_lt hrounds))
          fun c' m'' hc' => ?_
        exact ReturnsWith.pure ⟨hc'.1.trans hr.1, hc'.2⟩
    · exact ReturnsWith.pure ⟨le_rfl, .start⟩
  rw [moveForward]
  refine ReturnsWith.bind hrest fun r m' hr => ?_
  cases r with
  | none => exact ReturnsWith.pure ⟨rfl, hr⟩
  | some c =>
    refine ReturnsWith.bind (bytesForward_returns hfits hlt hr.2 (hr.1.trans_lt hrounds))
      fun _ m'' hmoved => ?_
    exact ReturnsWith.pure ⟨rfl, hmoved⟩

/-! ## Copying backward -/

/-- The bytes behind an offset were moved. -/
structure BackwardDone (dest src n : U64) (m₀ : Bytes) (k : U64) (m : Bytes) : Prop where
  left : k.toNat ≤ n.toNat
  moved : Moved dest src (between k.toNat n.toNat) m₀ m

/-- Nothing is done at the start. -/
theorem BackwardDone.start : BackwardDone dest src n m n m :=
  ⟨le_rfl, Moved.none.congr fun y => by simp [between]⟩

/-- A copy backward does the next bytes before those that are done. -/
theorem BackwardDone.retreat (hfits : Fits dest src n) (hgt : src.toNat < dest.toNat)
    (h : BackwardDone dest src n m₀ k m) (hwidth : w ≤ k.toNat) :
    BackwardDone dest src n m₀ (k - BitVec.ofNat 64 w)
        (m.copied w (k - BitVec.ofNat 64 w + dest) (k - BitVec.ofNat 64 w + src)) ∧
      (k - BitVec.ofNat 64 w).toNat + w = k.toNat := by
  have hk := k.isLt
  have hleft := h.left
  have hnext : (k - BitVec.ofNat 64 w).toNat = k.toNat - w := by
    rw [BitVec.toNat_sub, BitVec.toNat_ofNat]
    omega
  refine ⟨⟨by omega, ?_⟩, by omega⟩
  refine (moved_join h.moved (by omega) fun j hj hmoved => ?_).congr fun j => ?_
  · rw [mem_between] at hj hmoved
    have hread := hfits.toNat_read_of_gt hgt (i := j) (by omega)
    omega
  · simp only [Set.mem_union, mem_between]
    omega

/-- One byte is moved, where one is left. -/
theorem BackwardDone.retreat_byte (hfits : Fits dest src n) (hgt : src.toNat < dest.toNat)
    (h : BackwardDone dest src n m₀ k m) (hne : k ≠ 0) :
    BackwardDone dest src n m₀ (k - 1) (m.copied 1 (k - 1 + dest) (k - 1 + src)) ∧
      (k - 1).toNat < k.toNat := by
  have hpos : 1 ≤ k.toNat := Nat.one_le_iff_ne_zero.mpr fun h0 => hne (BitVec.eq_of_toNat_eq h0)
  obtain ⟨hdone, hsum⟩ := h.retreat hfits hgt hpos
  exact ⟨hdone, lt_of_lt_of_eq (Nat.lt_succ_self _) hsum⟩

/-- The copy down to an aligned address ends, or does all bytes. -/
theorem alignBackward_returns (hfits : Fits dest src n) (hgt : src.toNat < dest.toNat)
    (h : BackwardDone dest src n m₀ k m) (hrounds : k.toNat < rounds) :
    ReturnsWith (loop () (alignBackward dest src) rounds k m) fun r m' => match r with
      | none => Moved dest src (between 0 n.toNat) m₀ m'
      | some k' => k'.toNat ≤ k.toNat ∧ BackwardDone dest src n m₀ k' m' := by
  refine loop_returns (fun k' m' => k'.toNat ≤ k.toNat ∧ BackwardDone dest src n m₀ k' m')
    (fun k' _ => k'.toNat) ?_ ⟨le_rfl, h⟩ hrounds
  rintro k' m' ⟨hle, hk'⟩
  rw [alignBackward]
  split
  · split
    · rename_i hzero
      refine ReturnsWith.pure ?_
      have hmoved := hk'.moved
      rwa [hzero] at hmoved
    · rename_i hne
      obtain ⟨hdone, hless⟩ := hk'.retreat_byte hfits hgt hne
      rw [copyBytes_bind]
      exact ReturnsWith.pure ⟨⟨hless.le.trans hle, hdone⟩, hless⟩
  · exact ReturnsWith.pure ⟨hle, hk'⟩

/-- The copy of whole words ends. -/
theorem wordsBackward_returns (hfits : Fits dest src n) (hgt : src.toNat < dest.toNat)
    (h : BackwardDone dest src n m₀ k m) (hrounds : k.toNat < rounds) :
    ReturnsWith (loop () (wordsBackward dest src) rounds k m) fun k' m' =>
      k'.toNat ≤ k.toNat ∧ BackwardDone dest src n m₀ k' m' := by
  refine loop_returns (fun k' m' => k'.toNat ≤ k.toNat ∧ BackwardDone dest src n m₀ k' m')
    (fun k' _ => k'.toNat) ?_ ⟨le_rfl, h⟩ hrounds
  rintro k' m' ⟨hle, hk'⟩
  rw [wordsBackward]
  split
  · rename_i hword
    obtain ⟨hdone, hsum⟩ := hk'.retreat hfits hgt (w := 8) hword
    have hless : (k' - ws).toNat < k'.toNat :=
      lt_of_lt_of_eq (Nat.lt_add_of_pos_right (by decide)) hsum
    rw [copyBytes_bind]
    exact ReturnsWith.pure ⟨⟨hless.le.trans hle, hdone⟩, hless⟩
  · exact ReturnsWith.pure ⟨hle, hk'⟩

/-- The copy of the last bytes ends, with all of them moved. -/
theorem bytesBackward_returns (hfits : Fits dest src n) (hgt : src.toNat < dest.toNat)
    (h : BackwardDone dest src n m₀ k m) (hrounds : k.toNat < rounds) :
    ReturnsWith (loop () (bytesBackward dest src) rounds k m) fun _ m' =>
      Moved dest src (between 0 n.toNat) m₀ m' := by
  refine loop_returns (BackwardDone dest src n m₀) (fun k' _ => k'.toNat) ?_ h hrounds
  intro k' m' hk'
  rw [bytesBackward]
  split
  · rename_i hne
    obtain ⟨hdone, hless⟩ := hk'.retreat_byte hfits hgt hne
    rw [copyBytes_bind]
    exact ReturnsWith.pure ⟨hdone, hless⟩
  · rename_i hzero
    have hmoved := hk'.moved
    rw [not_not.mp hzero] at hmoved
    exact ReturnsWith.pure hmoved

/-- Copying backward moves the block to a destination above it. -/
theorem moveBackward_returns (hfits : Fits dest src n) (hgt : src.toNat < dest.toNat)
    (hrounds : n.toNat < rounds) :
    ReturnsWith (moveBackward rounds dest src n m) fun r m' =>
      r = dest ∧ Moved dest src (between 0 n.toNat) m m' := by
  have hrest : ReturnsWith (alignedBackward rounds dest src n m) fun r m' => match r with
      | none => Moved dest src (between 0 n.toNat) m m'
      | some k => k.toNat ≤ n.toNat ∧ BackwardDone dest src n m k m' := by
    rw [alignedBackward]
    split
    · refine ReturnsWith.bind (alignBackward_returns hfits hgt .start hrounds) fun r m' hr => ?_
      cases r with
      | none => exact ReturnsWith.pure hr
      | some k =>
        refine ReturnsWith.bind (wordsBackward_returns hfits hgt hr.2 (hr.1.trans_lt hrounds))
          fun k' m'' hk' => ?_
        exact ReturnsWith.pure ⟨hk'.1.trans hr.1, hk'.2⟩
    · exact ReturnsWith.pure ⟨le_rfl, .start⟩
  rw [moveBackward]
  refine ReturnsWith.bind hrest fun r m' hr => ?_
  cases r with
  | none => exact ReturnsWith.pure ⟨rfl, hr⟩
  | some k =>
    refine ReturnsWith.bind (bytesBackward_returns hfits hgt hr.2 (hr.1.trans_lt hrounds))
      fun _ m'' hmoved => ?_
    exact ReturnsWith.pure ⟨rfl, hmoved⟩

/-! ## Copying in chunks -/

/-- No byte of the source lies in the destination. -/
def ReadsOutside (dest src n : U64) : Prop :=
  ∀ i : U64, i.toNat < n.toNat → n.toNat ≤ (i + (src - dest)).toNat

/-- Bytes whose source is not overwritten are moved beside those that were. -/
theorem ReadsOutside.join {I : Set U64} (h : ReadsOutside dest src n)
    (hmoved : Moved dest src I m₀ m) (hI : ∀ i ∈ I, i.toNat < n.toNat)
    (hk : k.toNat + w ≤ n.toNat) :
    Moved dest src (I ∪ between k.toNat (k.toNat + w)) m₀
      (m.copied w (k + dest) (k + src)) := by
  have hn := n.isLt
  refine moved_join hmoved (by omega) fun i hi hread => ?_
  rw [mem_between] at hi
  have hbehind := h i (by omega)
  have hbefore := hI _ hread
  omega

/-- The length without a width that it has. -/
theorem toNat_sub_ofNat (h : w ≤ n.toNat) :
    (n - BitVec.ofNat 64 w).toNat = n.toNat - w := by
  have hn := n.isLt
  rw [BitVec.toNat_sub, BitVec.toNat_ofNat]
  omega

/-- A piece from each end, which may overlap. -/
theorem ReadsOutside.two_pieces (h : ReadsOutside dest src n) (hle : w ≤ n.toNat) :
    Moved dest src (between 0 w ∪ between (n.toNat - w) n.toNat) m
      ((m.copied w dest src).copied w (n - BitVec.ofNat 64 w + dest)
        (n - BitVec.ofNat 64 w + src)) := by
  have hk := toNat_sub_ofNat hle
  refine (h.join moved_copied (fun i hi => lt_of_lt_of_le hi.2 hle)
    (k := n - BitVec.ofNat 64 w) (w := w) (by omega)).congr fun j => ?_
  rw [hk, Nat.sub_add_cancel hle]

/-- Two copies, one from either end, cover what is no longer than both. -/
theorem ReadsOutside.two_pieces_cover (h : ReadsOutside dest src n) (hle : w ≤ n.toNat)
    (hge : n.toNat ≤ 2 * w) :
    Moved dest src (between 0 n.toNat) m
      ((m.copied w dest src).copied w (n - BitVec.ofNat 64 w + dest)
        (n - BitVec.ofNat 64 w + src)) := by
  refine (h.two_pieces hle).congr fun j => ?_
  simp only [Set.mem_union, mem_between]
  omega

/-- Short blocks are copied in pieces from both ends. -/
theorem memcpy_returns_of_le (h : ReadsOutside dest src n) (hle : n.toNat ≤ 32) :
    ReturnsWith (memcpy rounds dest src n m) fun r m' =>
      r = dest ∧ Moved dest src (between 0 n.toNat) m m' := by
  have hplace : ∀ a w : U64, a + n - w = n - w + a := fun a w => by ring
  rw [memcpy]
  split
  · rename_i hlt
    have hlt : n.toNat < 5 := hlt
    split
    · rename_i hzero
      refine ReturnsWith.pure ⟨rfl, Moved.none.congr fun j => ?_⟩
      rw [hzero]
      simp [between]
    · rename_i hne
      have hpos : 1 ≤ n.toNat := Nat.one_le_iff_ne_zero.mpr fun h0 =>
        hne (BitVec.eq_of_toNat_eq h0)
      rw [copyBytes_bind, copyBytes_bind]
      split
      · rename_i htwo
        exact ReturnsWith.pure ⟨rfl, h.two_pieces_cover hpos htwo⟩
      · rename_i htwo
        have htwo : ¬ n.toNat ≤ 2 := htwo
        rw [copyBytes_bind, copyBytes_bind]
        have hends := h.two_pieces (m := m) hpos
        have hone := h.join hends (fun i hi => by
          simp only [Set.mem_union, mem_between] at hi
          omega) (k := 1) (w := 1) (by change 1 + 1 ≤ _; omega)
        have hall := h.join hone (fun i hi => by
          simp only [Set.mem_union, mem_between] at hi
          change _ ∨ (1 ≤ _ ∧ _ < 1 + 1) at hi
          omega) (k := 2) (w := 1) (by change 2 + 1 ≤ _; omega)
        refine ReturnsWith.pure ⟨rfl, hall.congr fun j => ?_⟩
        simp only [Set.mem_union, mem_between]
        change (_ ∨ (1 ≤ _ ∧ _ < 1 + 1)) ∨ (2 ≤ _ ∧ _ < 2 + 1) ↔ _
        omega
  · rename_i hfive
    have hfive : ¬ n.toNat < 5 := hfive
    split
    · rename_i hsixteen
      have hsixteen : n.toNat ≤ 16 := hsixteen
      split
      · rename_i height
        rw [copyBytes_bind, copyBytes_bind, hplace, hplace]
        exact ReturnsWith.pure ⟨rfl, h.two_pieces_cover height hsixteen⟩
      · rename_i height
        have height : ¬ 8 ≤ n.toNat := height
        rw [copyBytes_bind, copyBytes_bind, hplace, hplace]
        exact ReturnsWith.pure ⟨rfl, h.two_pieces_cover (w := 4) (by omega) (by omega)⟩
    · rename_i hsixteen
      have hsixteen : ¬ n.toNat ≤ 16 := hsixteen
      rw [if_pos (show n ≤ 32 from hle), copyBytes_bind, copyBytes_bind, hplace, hplace]
      exact ReturnsWith.pure ⟨rfl, h.two_pieces_cover (w := 16) (by omega) hle⟩

/-- How many bytes the loop of `memcpy` copies: whole chunks, until no more than one is left. -/
def stamped (n : U64) : Nat := roundUp (n.toNat - 32) 32

/-- What every chunk keeps holds when the loop of `memcpy` ends. -/
theorem stamp_returns (P : U64 → Bytes → Prop) (hlong : 32 < n.toNat)
    (hdest : dest.toNat + n.toNat ≤ 2 ^ 64) (hstart : P 0 m)
    (hstep : ∀ k m, k.toNat + 32 < n.toNat → P k m →
      P (k + 32) (m.copied 32 (k + dest) (k + src))) (hrounds : n.toNat < rounds) :
    ReturnsWith (loop () (stampRound (dest + n - 32)) rounds (dest, src) m) fun _ m' =>
      P (BitVec.ofNat 64 (stamped n)) m' := by
  have hn := n.isLt
  refine loop_returns (fun p m' => ∃ k : U64, p = (k + dest, k + src) ∧ 32 ∣ k.toNat ∧
    k.toNat + 32 < n.toNat ∧ P k m') (fun p _ => (n - (p.1 - dest)).toNat) ?_
    ⟨0, by simp, by decide, hlong, hstart⟩ (by simpa using hrounds)
  rintro p m' ⟨k, rfl, hdvd, hk, hP⟩
  have hnext : (k + 32).toNat = k.toNat + 32 := by
    rw [BitVec.toNat_add]
    exact Nat.mod_eq_of_lt (by change _ + 32 < _; omega)
  have hd : k + dest + 32 = k + 32 + dest := by ring
  have hs : k + src + 32 = k + 32 + src := by ring
  have hlt : k + 32 + dest < dest + n - 32 ↔ k.toNat + 64 < n.toNat := by
    rw [BitVec.lt_def, BitVec.toNat_add, hnext, BitVec.toNat_sub, BitVec.toNat_add]
    have h32 : (32 : U64).toNat = 32 := rfl
    omega
  have hcopied := hstep k m' hk hP
  rw [stampRound, copyBytes_bind, hd, hs]
  split
  · rename_i hmore
    have hmore := hlt.mp hmore
    refine ReturnsWith.pure ⟨⟨k + 32, rfl, ?_, ?_, hcopied⟩, ?_⟩
    · rw [hnext]
      exact Nat.dvd_add hdvd (dvd_refl 32)
    · omega
    · rw [add_sub_cancel_right, add_sub_cancel_right, BitVec.toNat_sub, BitVec.toNat_sub, hnext]
      omega
  · rename_i hmore
    have hmore := mt hlt.mpr hmore
    refine ReturnsWith.pure ?_
    have hend : BitVec.ofNat 64 (stamped n) = k + 32 := by
      apply BitVec.eq_of_toNat_eq
      rw [hnext, BitVec.toNat_ofNat, stamped, roundUp]
      omega
    rwa [hend]

/-- The stamps leave at most 32 bytes and at least one. -/
theorem stamped_lt (hlong : 32 < n.toNat) :
    n.toNat ≤ stamped n + 32 ∧ stamped n < n.toNat ∧
      (BitVec.ofNat 64 (stamped n)).toNat = stamped n := by
  have hn := n.isLt
  rw [BitVec.toNat_ofNat, stamped, roundUp]
  omega

/-- The chunks move a part of the block, when none is read from behind where it is written. -/
theorem stamp_moves (hlong : 32 < n.toNat) (hdest : dest.toNat + n.toNat ≤ 2 ^ 64)
    (hforward : ∀ i : U64, i.toNat < n.toNat → i.toNat ≤ (i + (src - dest)).toNat)
    (hrounds : n.toNat < rounds) :
    ReturnsWith (loop () (stampRound (dest + n - 32)) rounds (dest, src) m) fun _ m' =>
      Moved dest src (between 0 (stamped n)) m m' := by
  have hloop : ReturnsWith (loop () (stampRound (dest + n - 32)) rounds (dest, src) m) fun _ m' =>
      Moved dest src (between 0 (BitVec.ofNat 64 (stamped n)).toNat) m m' := by
    refine stamp_returns (fun k m' => Moved dest src (between 0 k.toNat) m m') hlong hdest
      (Moved.none.congr fun j => by simp [between]) (fun k m' hk hmoved => ?_) hrounds
    have hn := n.isLt
    have hnext : (k + 32).toNat = k.toNat + 32 := by
      rw [BitVec.toNat_add]
      exact Nat.mod_eq_of_lt (by change _ + 32 < _; omega)
    refine (moved_join hmoved (by omega) fun i hi hread => ?_).congr fun j => ?_
    · rw [mem_between] at hi hread
      have hle := hforward i (by omega)
      omega
    · simp only [Set.mem_union, mem_between, hnext]
      omega
  rwa [(stamped_lt hlong).2.2] at hloop

/-- More than 32 bytes are stamped, and the last 32 copied again. -/
theorem memcpy_of_lt (hlong : 32 < n.toNat) : memcpy rounds dest src n = do
    loop () (stampRound (dest + n - 32)) rounds (dest, src)
    copyBytes 32 (n - 32 + dest) (n - 32 + src)
    return dest := by
  have hplace : ∀ a : U64, a + n - 32 = n - 32 + a := fun a => by ring
  have hfive : ¬ n < 5 := fun h => absurd (BitVec.lt_def.mp h) (by change ¬ _ < 5; omega)
  have hsixteen : ¬ n ≤ 16 := fun h => absurd (BitVec.le_def.mp h) (by change ¬ _ ≤ 16; omega)
  have hshort : ¬ n ≤ 32 := fun h => absurd (BitVec.le_def.mp h) (by change ¬ _ ≤ 32; omega)
  rw [memcpy, if_neg hfive, if_neg hsixteen, if_neg hshort, ← hplace, ← hplace]

/-- Long blocks are copied in chunks, and the last chunk once more from the end. -/
theorem memcpy_returns_of_lt (hlong : 32 < n.toNat) (hdest : dest.toNat + n.toNat ≤ 2 ^ 64)
    (hforward : ∀ i : U64, i.toNat < n.toNat → i.toNat ≤ (i + (src - dest)).toNat)
    (hlast : ∀ i : U64, n.toNat ≤ i.toNat + 32 → i.toNat < n.toNat →
      stamped n ≤ (i + (src - dest)).toNat) (hrounds : n.toNat < rounds) :
    ReturnsWith (memcpy rounds dest src n m) fun r m' =>
      r = dest ∧ Moved dest src (between 0 n.toNat) m m' := by
  have hsub := toNat_sub_ofNat hlong.le
  have hstamped := stamped_lt hlong
  have hn := n.isLt
  rw [memcpy_of_lt hlong]
  refine ReturnsWith.bind (stamp_moves hlong hdest hforward hrounds) fun _ m' hmoved => ?_
  rw [copyBytes_bind]
  refine ReturnsWith.pure ⟨rfl, (moved_join hmoved (k := n - BitVec.ofNat 64 32) (w := 32)
    (by omega) fun i hi hread => ?_).congr fun j => ?_⟩
  · rw [mem_between] at hi hread
    have hbehind := hlast i (by omega) (by omega)
    omega
  · simp only [Set.mem_union, mem_between]
    omega

/-- Blocks that do not overlap are copied. -/
theorem ReadsOutside.memcpy_returns (h : ReadsOutside dest src n)
    (hdest : dest.toNat + n.toNat ≤ 2 ^ 64) (hrounds : n.toNat < rounds) :
    ReturnsWith (memcpy rounds dest src n m) fun r m' =>
      r = dest ∧ Moved dest src (between 0 n.toNat) m m' := by
  rcases Nat.lt_or_ge 32 n.toNat with hlong | hle
  · exact memcpy_returns_of_lt hlong hdest (fun i hi => hi.le.trans (h i hi))
      (fun i _ hi => (stamped_lt hlong).2.1.le.trans (h i hi)) hrounds
  · exact memcpy_returns_of_le h hle

/-- The blocks do not overlap. -/
def Apart (dest src n : U64) : Prop :=
  dest.toNat + n.toNat ≤ src.toNat ∨ src.toNat + n.toNat ≤ dest.toNat

/-- Ranges that are apart are read outside of what is written. -/
theorem Fits.readsOutside_of_apart (hfits : Fits dest src n) (hapart : Apart dest src n) :
    ReadsOutside dest src n := by
  intro i hi
  rcases hapart with hbelow | habove
  · have hsrc := hfits.src
    rw [hfits.toNat_read_of_lt (by omega) hi]
    omega
  · have hdest := hfits.dest
    rw [BitVec.toNat_add, BitVec.toNat_sub]
    omega

/-- `memcpy` moves blocks that do not overlap, and nothing else. -/
theorem memcpy_moves (hfits : Fits dest src n) (hapart : Apart dest src n)
    (hrounds : n.toNat < rounds) :
    ReturnsWith (memcpy rounds dest src n m) fun r m' =>
      r = dest ∧ Moved dest src (between 0 n.toNat) m m' :=
  (hfits.readsOutside_of_apart hapart).memcpy_returns hfits.dest hrounds

/-- Seventy bytes, in two chunks and the last one. -/
theorem memcpy_moves_seventy : ReturnsWith (memcpy 71 100 7 70 fun a => a.setWidth 8) fun r m' =>
    r = 100 ∧ Moved 100 7 (between 0 70) (fun a => a.setWidth 8) m' :=
  memcpy_moves (n := 70) ⟨by decide, by decide⟩ (.inr (by decide)) (by decide)

/-! ## Where the copy is wrong -/

/-- Memory that holds a one at one address, and zeros elsewhere. -/
def oneAt (p : U64) : Bytes := fun a => if a = p then 1 else 0

/-- Below the source, the last chunk is read from where the chunks before it were written. -/
theorem memcpy_stale_of_lt (hfits : Fits dest src n) (hlong : 32 < n.toNat)
    (hlt : dest.toNat < src.toNat) (hshort : n.toNat + (src.toNat - dest.toNat) < stamped n + 32)
    (hrounds : n.toNat < rounds) :
    ReturnsWith (memcpy rounds dest src n (oneAt (n - 32 + src))) fun _ m' =>
      m' (n - 32 + dest) = 0 := by
  have hsub : (n - 32).toNat = n.toNat - 32 := toNat_sub_ofNat hlong.le
  have hn := n.isLt
  have hread := hfits.toNat_read_of_lt hlt (i := n - 32) (by omega)
  have hforward : ∀ i : U64, i.toNat < n.toNat → i.toNat ≤ (i + (src - dest)).toNat := by
    intro i hi
    rw [hfits.toNat_read_of_lt hlt hi]
    exact Nat.le_add_right _ _
  rw [memcpy_of_lt hlong]
  refine ReturnsWith.bind (stamp_moves hlong hfits.dest hforward hrounds) fun _ m' hmoved => ?_
  rw [copyBytes_bind]
  refine ReturnsWith.pure ?_
  have hoffset : n - 32 + src - dest = n - 32 + (src - dest) := by ring
  have hstale := hmoved.moved (n - 32 + src) (by
    rw [hoffset, mem_between]
    omega)
  rw [Bytes.copied, if_pos (by rw [sub_self]; decide), sub_self, zero_add, hstale, hoffset, oneAt,
    if_neg]
  intro heq
  have hzero : src - dest = 0 := by
    have hsum : n - 32 + (src - dest) + src = n - 32 + src + (src - dest) := by ring
    rw [hsum] at heq
    exact add_eq_left.mp heq
  rw [sub_eq_zero.mp hzero] at hlt
  exact lt_irrefl _ hlt

/-- A copy within zeroed memory changes nothing. -/
theorem copied_of_zero (hzero : ∀ a, m a = 0) (a : U64) : m.copied w dest src a = 0 := by
  rw [Bytes.copied, hzero, hzero, ite_self]

/-- Above the source, the first chunk overwrites a byte before it is read. -/
theorem copied_of_gt (hfits : Fits dest src n) (hgt : src.toNat < dest.toNat)
    (hk : k.toNat = max 32 (dest.toNat - src.toNat)) (hlt : k.toNat < n.toNat) (a : U64) :
    (oneAt (k + src)).copied 32 dest src a = 0 := by
  have hsrc := hfits.src
  have hdest := hfits.dest
  have hn := n.isLt
  rw [Bytes.copied]
  split
  · rename_i hwindow
    rw [oneAt, if_neg]
    intro heq
    rw [add_right_cancel heq] at hwindow
    omega
  · rename_i hwindow
    rw [oneAt, if_neg]
    rintro rfl
    apply hwindow
    rw [BitVec.toNat_sub, BitVec.toNat_add]
    omega

/-- A destination that overlaps behind the source misses a byte. -/
theorem memcpy_stale_of_gt (hfits : Fits dest src n) (hgt : src.toNat < dest.toNat)
    (hk : k.toNat = max 32 (dest.toNat - src.toNat)) (hlt : k.toNat < n.toNat)
    (hrounds : n.toNat < rounds) :
    ReturnsWith (memcpy rounds dest src n (oneAt (k + src))) fun _ m' => m' (k + dest) = 0 := by
  have hlong : 32 < n.toNat := by omega
  have hn := n.isLt
  rw [memcpy_of_lt hlong]
  refine ReturnsWith.bind (stamp_returns (fun j m' => (j = 0 → m' = oneAt (k + src)) ∧
    (j ≠ 0 → ∀ a, m' a = 0)) hlong hfits.dest ⟨fun _ => rfl, fun h => absurd rfl h⟩
    (fun j m' hj hm' => ⟨fun hzero => ?_, fun _ a => ?_⟩) hrounds) fun _ m' hm' => ?_
  · have hnext : (j + 32).toNat = j.toNat + 32 := by
      rw [BitVec.toNat_add]
      exact Nat.mod_eq_of_lt (by change _ + 32 < _; omega)
    rw [hzero] at hnext
    change 0 = _ at hnext
    omega
  · by_cases hj0 : j = 0
    · rw [hm'.1 hj0, hj0, zero_add, zero_add]
      exact copied_of_gt hfits hgt hk hlt a
    · exact copied_of_zero (hm'.2 hj0) a
  · obtain ⟨hcover, -, hstamped⟩ := stamped_lt hlong
    rw [copyBytes_bind]
    refine ReturnsWith.pure (copied_of_zero (hm'.2 fun hzero => ?_) _)
    rw [hzero] at hstamped
    change 0 = _ at hstamped
    omega

/-! ## When the block is moved -/

/-- The doubled length does not wrap, or nothing needs to be moved, or the chunks of `memcpy` are
read ahead of where they are written: the last one overlaps the one before it by no more than the
source lies above the destination. -/
def LengthSuits (dest src n : U64) : Prop :=
  n.toNat ≤ 2 ^ 63 ∨ dest = src ∨
    dest.toNat < src.toNat ∧ roundUp n.toNat 32 ≤ n.toNat + (src.toNat - dest.toNat)

instance (dest src n : U64) : Decidable (LengthSuits dest src n) :=
  inferInstanceAs (Decidable (_ ∨ _ ∨ _))

/-- The test for an overlap, in numbers. -/
theorem toNat_overlapTest : src - dest - n ≤ -2 * n ↔
    (2 ^ 64 - n.toNat + (2 ^ 64 - dest.toNat + src.toNat) % 2 ^ 64) % 2 ^ 64 ≤
      (2 ^ 64 - 2) * n.toNat % 2 ^ 64 := by
  rw [BitVec.le_def, BitVec.toNat_sub, BitVec.toNat_sub, BitVec.toNat_mul]
  rfl

/-- Up to half of all addresses the test is passed by blocks that do not overlap. -/
theorem Fits.readsOutside (h : Fits dest src n) (hn : n.toNat ≤ 2 ^ 63) (hne : dest ≠ src)
    (htest : src - dest - n ≤ -2 * n) : ReadsOutside dest src n := by
  have hdest := h.dest
  have hsrc := h.src
  have hne : dest.toNat ≠ src.toNat := fun heq => hne (BitVec.eq_of_toNat_eq heq)
  rw [toNat_overlapTest] at htest
  intro i hi
  rw [BitVec.toNat_add, BitVec.toNat_sub]
  omega

/-- Beyond that it is passed by every two blocks. -/
theorem Fits.overlapTest (h : Fits dest src n) (hn : 2 ^ 63 < n.toNat) (hne : dest ≠ src) :
    src - dest - n ≤ -2 * n := by
  have hdest := h.dest
  have hsrc := h.src
  have hlt := n.isLt
  have hne : dest.toNat ≠ src.toNat := fun heq => hne (BitVec.eq_of_toNat_eq heq)
  rw [toNat_overlapTest]
  omega

/-- Where the length suits, `memmove` returns and has moved all bytes. -/
theorem memmove_returns (hfits : Fits dest src n) (hsuits : LengthSuits dest src n)
    (hrounds : n.toNat < rounds) :
    ReturnsWith (memmove rounds dest src n m) fun r m' =>
      r = dest ∧ Moved dest src (between 0 n.toNat) m m' := by
  rw [memmove]
  split
  · rename_i hsame
    subst hsame
    exact ReturnsWith.pure ⟨rfl, Moved.self _⟩
  · rename_i hne
    have hdiffer : dest.toNat ≠ src.toNat := fun heq => hne (BitVec.eq_of_toNat_eq heq)
    split
    · rename_i htest
      rcases hsuits with hshort | hsame | ⟨hlt, hahead⟩
      · exact (hfits.readsOutside hshort hne htest).memcpy_returns hfits.dest hrounds
      · exact absurd hsame hne
      · by_cases hshort : n.toNat ≤ 2 ^ 63
        · exact (hfits.readsOutside hshort hne htest).memcpy_returns hfits.dest hrounds
        · have hread : ∀ i : U64, i.toNat < n.toNat → (i + (src - dest)).toNat =
              i.toNat + (src.toNat - dest.toNat) := fun i hi => hfits.toNat_read_of_lt hlt hi
          rw [roundUp] at hahead
          refine memcpy_returns_of_lt (by omega) hfits.dest (fun i hi => ?_)
            (fun i hge hi => ?_) hrounds
          · rw [hread i hi]
            exact Nat.le_add_right _ _
          · rw [hread i hi, stamped, roundUp]
            omega
    · split
      · rename_i hlt
        exact moveForward_returns hfits (BitVec.lt_def.mp hlt) hrounds
      · rename_i hlt
        rw [BitVec.lt_def] at hlt
        exact moveBackward_returns hfits (by omega) hrounds

/-- Where the length does not suit, the copy of some memory is wrong in some byte. -/
theorem memmove_stale (hfits : Fits dest src n) (hsuits : ¬ LengthSuits dest src n) :
    ∃ k p, k.toNat < n.toNat ∧ p = k + src ∧ ∀ rounds, n.toNat < rounds →
      ReturnsWith (memmove rounds dest src n (oneAt p)) fun _ m' => m' (k + dest) = 0 := by
  have hdest := hfits.dest
  have hn := n.isLt
  obtain ⟨hlong, hne, hahead⟩ : 2 ^ 63 < n.toNat ∧ dest ≠ src ∧
      ¬ (dest.toNat < src.toNat ∧ roundUp n.toNat 32 ≤ n.toNat + (src.toNat - dest.toNat)) := by
    rw [LengthSuits, not_or, not_or, not_le] at hsuits
    exact hsuits
  have hdiffer : dest.toNat ≠ src.toNat := fun heq => hne (BitVec.eq_of_toNat_eq heq)
  have hmemcpy : ∀ rounds, memmove rounds dest src n = memcpy rounds dest src n := fun rounds => by
    rw [memmove, if_neg hne, if_pos (hfits.overlapTest hlong hne)]
  rcases Nat.lt_or_gt_of_ne hdiffer with hlt | hgt
  · have hsub : (n - 32).toNat = n.toNat - 32 :=
      toNat_sub_ofNat (show 32 ≤ n.toNat by omega)
    refine ⟨n - 32, _, by omega, rfl, fun rounds hrounds => ?_⟩
    rw [hmemcpy]
    refine memcpy_stale_of_lt hfits (by omega) hlt ?_ hrounds
    rw [not_and, not_le, roundUp] at hahead
    have hshort := hahead hlt
    rw [stamped, roundUp]
    omega
  · have hk : (BitVec.ofNat 64 (max 32 (dest.toNat - src.toNat))).toNat =
        max 32 (dest.toNat - src.toNat) := by
      rw [BitVec.toNat_ofNat]
      omega
    have hlt : max 32 (dest.toNat - src.toNat) < n.toNat := by omega
    refine ⟨BitVec.ofNat 64 (max 32 (dest.toNat - src.toNat)), _, by omega, rfl,
      fun rounds hrounds => ?_⟩
    rw [hmemcpy]
    exact memcpy_stale_of_gt hfits hgt hk (by omega) hrounds

/-- A byte that is not what it should be. -/
theorem not_moved_of_stale {r : EStateM.Result Unit Bytes U64} {p : U64} (hk : k.toNat < n.toNat)
    (hp : p = k + src) (hstale : ReturnsWith r fun _ m' => m' (k + dest) = 0) :
    ¬ ReturnsWith r fun r m' => r = dest ∧ Moved dest src (between 0 n.toNat) (oneAt p) m' := by
  rintro ⟨_, m', rfl, -, hmoved⟩
  obtain ⟨_, _, heq, hzero⟩ := hstale
  cases heq
  have hone := hmoved.moved (k + dest) (by
    rw [add_sub_cancel_right, mem_between]
    exact ⟨Nat.zero_le _, hk⟩)
  rw [hzero, add_sub_cancel_right, ← hp, oneAt, if_pos rfl] at hone
  exact absurd hone (by decide)

/-- `memmove` moves every content of memory right if and only if the length suits. -/
theorem memmove_moves_iff (hfits : Fits dest src n) (hrounds : n.toNat < rounds) :
    (∀ m, ReturnsWith (memmove rounds dest src n m) fun r m' =>
      r = dest ∧ Moved dest src (between 0 n.toNat) m m') ↔ LengthSuits dest src n := by
  constructor
  · intro hmoves
    by_contra hsuits
    obtain ⟨k, p, hk, hp, hstale⟩ := memmove_stale hfits hsuits
    exact not_moved_of_stale hk hp (hstale rounds hrounds) (hmoves _)
  · exact fun hsuits m => memmove_returns hfits hsuits hrounds

/-- Three bytes, of which one is overwritten before it would be read forward. -/
theorem memmove_moves_three : ReturnsWith (memmove 4 2 0 3 fun a => a.setWidth 8) fun r m' =>
    r = 2 ∧ Moved 2 0 (between 0 3) (fun a => a.setWidth 8) m' :=
  (memmove_moves_iff (n := 3) ⟨by decide, by decide⟩ (by decide)).mpr
    (by decide) _

/-- A block of more than half of all addresses that moves up by one byte. -/
theorem memmove_not_moved : ∃ m : Bytes, ∀ rounds, 2 ^ 63 + 1 < rounds →
    ¬ ReturnsWith (memmove rounds 1 0 0x8000000000000001 m) fun r m' =>
      r = 1 ∧ Moved 1 0 (between 0 (2 ^ 63 + 1)) m m' := by
  obtain ⟨k, p, hk, hp, hstale⟩ := memmove_stale (n := 0x8000000000000001)
    (show Fits 1 0 _ from ⟨by decide, by decide⟩) (by decide)
  exact ⟨oneAt p, fun rounds hrounds => not_moved_of_stale hk hp (hstale rounds hrounds)⟩

end Blocks

end Homegrown.Freestanding
