import Homegrown.Shared.Hash.StringU16Map
import Homegrown.Shared.Hash.TrieIterator

/-!
# The trie sets

The sets of strings and of 16-bit numbers. Insertions tell which keys are new, and an iterator
on what they have led to returns each key once, whatever the hashes of the keys: a 16-bit hash
is zero after eight levels, and further ones are the first children of one another.
-/

namespace Homegrown.Hash

section Sets

variable {K H : Type} [DecidableEq K]

/-- Insertions one after the other, with their results. -/
def insertKeys (insert : K → TrieRootProgram K Unit Bool) :
    List K → TrieRootProgram K Unit (List Bool)
  | [] => return []
  | key :: keys => do
    let isNew ← insert key
    return isNew :: (← insertKeys insert keys)

/-- Which keys of a list are new, after some others. -/
def newKeys (before : List K) : List K → List Bool
  | [] => []
  | key :: keys => decide (key ∉ before) :: newKeys (before ++ [key]) keys

/-- The set has the keys of a list, each in one node. -/
structure HasKeys (path : TriePath K H) (set : HashTrie (BitVec 2) K Unit) (keys : List K) :
    Prop where
  find : ∀ key, path.find? key set = if key ∈ keys then some () else none
  nodup : (set.keys trieDigits).Nodup
  mem_iff : ∀ key, key ∈ set.keys trieDigits ↔ key ∈ keys

variable {path : TriePath K H} {posix asserted : Bool} {request : AllocRequest} {key : K}
  {before keys : List K} {s s' : TrieRoot K Unit}

theorem mem_trieDigits (d : BitVec 2) : d ∈ trieDigits := by
  revert d
  decide

/-- An insertion that returns tells whether its key is new, and adds it. -/
theorem HasKeys.insert {isNew : Bool} (h : HasKeys path s.set before)
    (hrun : trieInsert posix request path asserted key () (fun _ => false) true s = .ok isNew s') :
    isNew = decide (key ∉ before) ∧ HasKeys path s'.set (before ++ [key]) := by
  have hfind := h.find key
  rcases trieInsert_cases hrun with ⟨found, hfound, rfl, rfl⟩ | ⟨fill, hwalk, rfl, hset⟩
  · have hmem : key ∈ before := by
      by_contra hnot
      rw [if_neg hnot, hfound] at hfind
      cases hfind
    have hsame (key' : K) : key' ∈ before ++ [key] ↔ key' ∈ before := by
      rw [List.mem_append, List.mem_singleton, or_iff_left_iff_imp]
      rintro rfl
      exact hmem
    exact ⟨by simp [hmem], fun key' => by simp only [hsame]; exact h.find key', h.nodup,
      fun key' => (h.mem_iff key').trans (hsame key').symm⟩
  · have hnot : key ∉ before := by
      intro hmem
      rw [if_pos hmem, TriePath.find?, HashTrie.find?_of_walk_inr hwalk] at hfind
      cases hfind
    have hperm : (s'.set.keys trieDigits).Perm (key :: s.set.keys trieDigits) :=
      hset ▸ HashTrie.keys_fill (by decide) mem_trieDigits hwalk
    refine ⟨by simp [hnot], fun key' => ?_, ?_, fun key' => ?_⟩
    · by_cases hkey : key' = key
      · rw [hkey, if_pos (by simp), TriePath.find?, hset, HashTrie.find?_fill hwalk]
      · rw [TriePath.find?, hset, HashTrie.find?_fill_of_ne hwalk hkey]
        change path.find? key' s.set = _
        simp [hkey, h.find key']
    · rw [hperm.nodup_iff, List.nodup_cons, h.mem_iff]
      exact ⟨hnot, h.nodup⟩
    · rw [hperm.mem_iff, List.mem_cons, h.mem_iff, List.mem_append, List.mem_singleton, or_comm]

/-- Insertions that return tell which keys are new, and add them. -/
theorem HasKeys.insertKeys {isKey : K → Bool} {results : List Bool}
    (h : HasKeys path s.set before)
    (hrun : Hash.insertKeys (fun key => trieInsert posix request path (isKey key) key ()
      (fun _ => false) true) keys s = .ok results s') :
    results = newKeys before keys ∧ HasKeys path s'.set (before ++ keys) := by
  induction keys generalizing before s results with
  | nil =>
    obtain ⟨rfl, rfl⟩ := pure_eq_ok.mp hrun
    rw [List.append_nil]
    exact ⟨rfl, h⟩
  | cons key keys ih =>
    obtain ⟨isNew, s₁, hinsert, hrest⟩ := bind_eq_ok.mp hrun
    obtain ⟨rest, s₂, hloop, hreturn⟩ := bind_eq_ok.mp hrest
    obtain ⟨rfl, rfl⟩ := pure_eq_ok.mp hreturn
    obtain ⟨rfl, h₁⟩ := h.insert hinsert
    obtain ⟨rfl, h₂⟩ := ih h₁ hloop
    rw [List.append_assoc] at h₂
    exact ⟨rfl, h₂⟩

end Sets

end Homegrown.Hash
