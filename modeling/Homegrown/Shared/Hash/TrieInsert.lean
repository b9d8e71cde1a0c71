import Homegrown.Shared.Hash.StringAutoU16Map

/-!
# Insertion into a trie

The sets of strings and of 16-bit numbers and the map from strings to 16-bit numbers are tries
with the same code: an insertion follows the hash of its key from the root pointer, and puts a
node from the arena where it meets the null pointer.
-/

namespace Homegrown.Hash

/-- Why a call on a trie does not return. -/
inductive TrieInsertFault where
  /-- An `ASSERT` on the arguments failed. -/
  | assertion
  /-- Control went to `jmp_buf`: the arena has no room for a node. -/
  | longjmp
  /-- The arena handed out a node that is not within it. -/
  | overrun
  deriving DecidableEq, Repr

/-- A root pointer, and the arena of the nodes. -/
structure TrieRoot (K V : Type) where
  set : HashTrie (BitVec 2) K V
  perm : Arena

/-- Programs on a trie. -/
abbrev TrieRootProgram (K V : Type) := EStateM TrieInsertFault (TrieRoot K V)

/-- How the hashes of keys lead through a trie. -/
structure TriePath (K H : Type) where
  hash : K → H
  /-- The child a hash leads to. -/
  digit : H → BitVec 2
  /-- The hash at that child. -/
  next : H → H

/-- The value of a key. -/
def TriePath.find? {K V H : Type} [DecidableEq K] (path : TriePath K H) (key : K)
    (set : HashTrie (BitVec 2) K V) : Option V :=
  set.find? path.digit path.next key (path.hash key)

/-- The trie has for each key the value of its first insertion. -/
def TriePath.KeepsFirst {K V H : Type} [DecidableEq K] (path : TriePath K H)
    (set : HashTrie (BitVec 2) K V) (calls : List (K × V)) : Prop :=
  ∀ key, path.find? key set = calls.lookup key

section Insert

variable {K V H R : Type} [DecidableEq K]

/-- `NEW(perm, T, 1, ZERO_MEMORY)`, for a node of some type. -/
def newTrieNode (posix : Bool) (request : AllocRequest) : TrieRootProgram K V Unit := do
  let s ← get
  let call := s.perm.call posix request
  match call.result with
  | .block p total _ =>
    if p.toNat + total.toNat ≤ call.after.limit.toNat then
      set { s with perm := call.after }
    else
      throw .overrun
  | _ => throw .longjmp

/-- The code that the insertions have in common. -/
def trieInsert (posix : Bool) (request : AllocRequest) (path : TriePath K H) (asserted : Bool)
    (key : K) (value : V) (whenFound : V → R) (whenNew : R) : TrieRootProgram K V R := do
  if ¬ asserted then throw .assertion
  match (← get).set.walk path.digit path.next key (path.hash key) with
  | .inl found => return whenFound found
  | .inr set =>
    newTrieNode posix request
    modify fun s => { s with set := set (.leaf key value) }
    return whenNew

/-! ## Insertions that return -/

variable {posix asserted : Bool} {request : AllocRequest} {path : TriePath K H} {key : K}
  {value : V} {whenFound : V → R} {whenNew : R} {s : TrieRoot K V}

/-- An insertion that returns has found the key, or has put it where its path ended. -/
theorem trieInsert_cases {result : R} {s' : TrieRoot K V}
    (hrun : trieInsert posix request path asserted key value whenFound whenNew s =
      .ok result s') :
    (∃ found, path.find? key s.set = some found ∧ result = whenFound found ∧ s' = s) ∨
      ∃ fill, s.set.walk path.digit path.next key (path.hash key) = .inr fill ∧
        result = whenNew ∧ s'.set = fill (.leaf key value) := by
  cases asserted with
  | false => cases hrun
  | true =>
    change (get >>= fun s => _ : TrieRootProgram K V R) s = _ at hrun
    rw [get_bind] at hrun
    cases hwalk : s.set.walk path.digit path.next key (path.hash key) with
    | inl found =>
      rw [hwalk] at hrun
      obtain ⟨rfl, rfl⟩ := pure_eq_ok.mp hrun
      exact .inl ⟨found, HashTrie.find?_of_walk_inl hwalk, rfl, rfl⟩
    | inr fill =>
      rw [hwalk] at hrun
      simp only [bind_eq_ok, modify_eq_ok, pure_eq_ok] at hrun
      obtain ⟨_, s₁, hroom, _, _, rfl, rfl, rfl⟩ := hrun
      exact .inr ⟨fill, rfl, rfl, rfl⟩

/-- A key that is there already keeps its value. -/
theorem lookup_append_of_some {calls : List (K × V)} {found : V}
    (h : calls.lookup key = some found) (key' : K) :
    (calls ++ [(key, value)]).lookup key' = calls.lookup key' := by
  rw [List.lookup_append]
  by_cases hkey : key' = key
  · rw [hkey, h, Option.some_or]
  · rw [List.lookup_cons, beq_eq_false_iff_ne.mpr hkey]
    exact Option.or_none

/-- A new key has the value it comes with, and changes no other. -/
theorem lookup_append_of_none {calls : List (K × V)}
    (h : calls.lookup key = none) (key' : K) :
    (calls ++ [(key, value)]).lookup key' =
      if key' = key then some value else calls.lookup key' := by
  rw [List.lookup_append]
  by_cases hkey : key' = key
  · rw [if_pos hkey, hkey, h, List.lookup_cons_self, Option.none_or]
  · rw [if_neg hkey, List.lookup_cons, beq_eq_false_iff_ne.mpr hkey]
    exact Option.or_none

/-- An insertion that returns keeps the first value of each key, and tells what it found. -/
theorem TriePath.KeepsFirst.insert {result : R} {s' : TrieRoot K V} {calls : List (K × V)}
    (h : path.KeepsFirst s.set calls)
    (hrun : trieInsert posix request path asserted key value whenFound whenNew s =
      .ok result s') :
    path.KeepsFirst s'.set (calls ++ [(key, value)]) ∧
      result = ((calls.lookup key).map whenFound).getD whenNew := by
  rcases trieInsert_cases hrun with ⟨found, hfind, rfl, rfl⟩ | ⟨fill, hwalk, rfl, hset⟩
  · rw [h key] at hfind
    exact ⟨fun key' => (h key').trans (lookup_append_of_some hfind key').symm, by rw [hfind]; rfl⟩
  · have hnone : calls.lookup key = none :=
      (h key).symm.trans (HashTrie.find?_of_walk_inr hwalk)
    refine ⟨fun key' => ?_, by rw [hnone]; rfl⟩
    rw [lookup_append_of_none hnone, hset, TriePath.find?]
    by_cases hkey : key' = key
    · rw [if_pos hkey, hkey, HashTrie.find?_fill hwalk]
    · rw [if_neg hkey, HashTrie.find?_fill_of_ne hwalk hkey]
      exact h key'

/-! ## Insertions return -/

end Insert

end Homegrown.Hash
