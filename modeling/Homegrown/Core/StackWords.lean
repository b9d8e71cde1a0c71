import Mathlib.Algebra.Order.Ring.Nat
import Mathlib.Data.List.Basic
import Mathlib.Data.Set.Basic
import Mathlib.Logic.Function.Basic

/-!
# Words on a stack

A stack grows towards lower addresses, by a word of eight bytes at a time. `Holds` says which words
lie on it, from its top on, and `Slots` are the places below a top. What a stack has grown by is on
top of it, and nothing has changed but the places below its old top (`Grown`). Each address has a
word of its own here, so this is memory by bytes only where no two of the words in use have a byte
in common (`WordsApart`), as the slots of one top have none.
-/

namespace Homegrown.StackWords

section Words

variable {α : Type}

/-- The words on a stack, from its top on. -/
def Holds (memory : BitVec 64 → α) : BitVec 64 → List α → Prop
  | _, [] => True
  | top, word :: words => memory top = word ∧ Holds memory (top + 8) words

/-- The memory behind the push of a word. -/
def push (memory : BitVec 64 → α) (top : BitVec 64) (word : α) : BitVec 64 → α :=
  Function.update memory (top - 8) word

/-- The memory behind the store of words, from an address on. -/
def write (memory : BitVec 64 → α) : BitVec 64 → List α → BitVec 64 → α
  | _, [] => memory
  | top, word :: words => write (Function.update memory top word) (top + 8) words

/-- The place of a word, counted upwards from a top. -/
def slot (top : BitVec 64) (i : Nat) : BitVec 64 := top + BitVec.ofNat 64 (8 * i)

/-- The places of so many words below a top. -/
def Slots (top : BitVec 64) (n : Nat) : Set (BitVec 64) := {a | ∃ i < n, slot a (i + 1) = top}

/-- The words at two addresses have no byte in common. -/
def WordsApart (x y : BitVec 64) : Prop := 8 ≤ x - y ∧ 8 ≤ y - x

/-- A stack has grown by some words, and memory has not changed elsewhere. -/
structure Grown (memory : BitVec 64 → α) (top : BitVec 64) (memory' : BitVec 64 → α)
    (top' : BitVec 64) (words : List α) : Prop where
  holds : Holds memory' top' words
  top_eq : slot top' words.length = top
  beside : ∀ a ∉ Slots top words.length, memory' a = memory a

end Words

section Lemmas

variable {α : Type} {memory memory' : BitVec 64 → α} {top a : BitVec 64} {word : α}
  {words words' : List α} {i j n k : Nat}

/-- Words without a common byte are at different addresses. -/
theorem WordsApart.ne {x y : BitVec 64} (h : WordsApart x y) : x ≠ y := by
  rintro rfl
  have hle := h.1
  rw [BitVec.sub_self] at hle
  exact absurd hle (by decide)

/-- A word that ends before another one begins is apart from it. -/
theorem wordsApart_of_le {x y : BitVec 64} (h : x.toNat + 8 ≤ y.toNat)
    (hwrap : y.toNat + 8 ≤ 2 ^ 64 + x.toNat) : WordsApart x y := by
  have height : (8 : BitVec 64).toNat = 8 := rfl
  rw [WordsApart, BitVec.le_def, BitVec.le_def, BitVec.toNat_sub, BitVec.toNat_sub, height]
  omega

/-- The first slot is the top. -/
theorem slot_zero : slot top 0 = top := by
  simp [slot]

/-- The address of a slot. -/
theorem toNat_slot : (slot top i).toNat = (top.toNat + 8 * i) % 2 ^ 64 := by
  rw [slot, BitVec.toNat_add, BitVec.toNat_ofNat]
  omega

/-- The slots behind the first one. -/
theorem slot_succ : slot top (i + 1) = slot (top + 8) i := by
  have height : (8 : BitVec 64).toNat = 8 := rfl
  apply BitVec.eq_of_toNat_eq
  simp only [slot, BitVec.toNat_add, BitVec.toNat_ofNat, height]
  omega

/-- Slots count on from each other. -/
theorem slot_slot : slot (slot top i) j = slot top (i + j) := by
  apply BitVec.eq_of_toNat_eq
  simp only [slot, BitVec.toNat_add, BitVec.toNat_ofNat]
  omega

/-- The places of fewer than 2⁶¹ words are different. -/
theorem slot_inj (hi : i < 2 ^ 61) (hj : j < 2 ^ 61) (h : slot top i = slot top j) : i = j := by
  have h := congrArg BitVec.toNat h
  have hlt := top.isLt
  simp only [slot, BitVec.toNat_add, BitVec.toNat_ofNat] at h
  omega

/-- Only the places of the words matter. -/
theorem Holds.congr (h : Holds memory top words)
    (hsame : ∀ i < words.length, memory' (slot top i) = memory (slot top i)) :
    Holds memory' top words := by
  induction words generalizing top with
  | nil => trivial
  | cons word words ih =>
    refine ⟨?_, ih h.2 fun i hi => ?_⟩
    · have hfirst := hsame 0 (Nat.succ_pos _)
      rw [slot_zero] at hfirst
      exact hfirst.trans h.1
    · rw [← slot_succ]
      exact hsame (i + 1) (Nat.succ_lt_succ hi)

/-- What lies on a stack lies there in parts. -/
theorem holds_append : Holds memory top (words ++ words') ↔
    Holds memory top words ∧ Holds memory (slot top words.length) words' := by
  induction words generalizing top with
  | nil => simp [Holds, slot_zero]
  | cons word words ih =>
    rw [List.cons_append, List.length_cons, slot_succ]
    simp only [Holds, ih, and_assoc]

/-- Words are not stored elsewhere. -/
theorem write_of_notMem (h : ∀ i < words.length, a ≠ slot top i) :
    write memory top words a = memory a := by
  induction words generalizing memory top with
  | nil => rfl
  | cons word words ih =>
    have hfirst := h 0 (Nat.succ_pos _)
    rw [slot_zero] at hfirst
    rw [write, ih fun i hi => slot_succ ▸ h (i + 1) (Nat.succ_lt_succ hi),
      Function.update_of_ne hfirst]

/-- Words that are stored are held. -/
theorem holds_write (h : words.length < 2 ^ 60) : Holds (write memory top words) top words := by
  induction words generalizing memory top with
  | nil => trivial
  | cons word words ih =>
    rw [List.length_cons] at h
    refine ⟨?_, ih (by omega)⟩
    rw [write, write_of_notMem fun i hi heq => ?_, Function.update_self]
    rw [← slot_succ] at heq
    have hzero := slot_inj (by omega) (by omega) (slot_zero.trans heq)
    omega

/-- A push writes to the first place below. -/
theorem push_of_notMem (h : a ∉ Slots top 1) : StackWords.push memory top word a = memory a := by
  refine Function.update_of_ne (fun heq => h ⟨0, Nat.one_pos, ?_⟩) _ _
  rw [heq, slot_succ, slot_zero, BitVec.sub_add_cancel]

/-- More pushes write to more places. -/
theorem slots_mono (h : n ≤ k) : Slots top n ⊆ Slots top k :=
  fun _ ⟨i, hi, hslot⟩ => ⟨i, lt_of_lt_of_le hi h, hslot⟩

/-- What lies on the stack is not below it. -/
theorem slot_notMem_slots (hi : i < 2 ^ 60) (hn : n < 2 ^ 60) : slot top i ∉ Slots top n := by
  rintro ⟨j, hj, hslot⟩
  rw [slot_slot] at hslot
  have hzero := slot_inj (by omega) (by omega) (hslot.trans slot_zero.symm)
  omega

/-- The word of a place. -/
theorem Holds.get (h : Holds memory top words) (hi : i < words.length) :
    memory (slot top i) = words[i] := by
  induction words generalizing top i with
  | nil => exact absurd hi (Nat.not_lt_zero _)
  | cons word words ih =>
    cases i with
    | zero =>
      rw [slot_zero]
      exact h.1
    | succ i =>
      rw [slot_succ]
      exact ih h.2 (Nat.lt_of_succ_lt_succ hi)

/-- A stack has grown by nothing. -/
theorem Grown.refl : Grown memory top memory top [] := ⟨trivial, slot_zero, fun _ _ => rfl⟩

/-- A stack grows by what it grows by first, and then by what lies on top of that. -/
theorem Grown.trans {memory'' : BitVec 64 → α} {top' top'' : BitVec 64}
    (h : Grown memory top memory' top' words) (h' : Grown memory' top' memory'' top'' words')
    (hlen : words.length + words'.length < 2 ^ 60) :
    Grown memory top memory'' top'' (words' ++ words) := by
  refine ⟨holds_append.mpr ⟨h'.holds, ?_⟩, ?_, fun a ha => ?_⟩
  · rw [h'.top_eq]
    exact h.holds.congr fun i hi => h'.beside _ (slot_notMem_slots (by omega) (by omega))
  · rw [List.length_append, ← slot_slot, h'.top_eq, h.top_eq]
  · rw [List.length_append] at ha
    rw [h'.beside a fun hmem => ha ?_, h.beside a fun hmem => ha (slots_mono (by omega) hmem)]
    obtain ⟨i, hi, hslot⟩ := hmem
    refine ⟨i + words.length, by omega, ?_⟩
    rw [← h.top_eq, ← hslot, slot_slot]
    exact congrArg (slot a) (by omega)

/-- A push is the least growth. -/
theorem grown_push : Grown memory top (StackWords.push memory top word) (top - 8) [word] := by
  refine ⟨⟨Function.update_self .., trivial⟩, ?_, fun _ => push_of_notMem⟩
  rw [List.length_singleton, slot_succ, slot_zero, BitVec.sub_add_cancel]

end Lemmas

end Homegrown.StackWords
