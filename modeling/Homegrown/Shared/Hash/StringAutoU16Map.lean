import Homegrown.Core.HashTrie
import Homegrown.Core.Outcome
import Homegrown.Core.Registry
import Homegrown.Shared.Memory.Arena
import Homegrown.Shared.Text.Converter

/-!
# The trie that numbers strings

A string that is not in the map yet gets the next number, starting at 1, and a node from
the arena. `runCalls_registry` compares every sequence of calls with a list of the strings
in the order of their first insertion.
-/

namespace Homegrown.Hash

/-- `hashStringSkeeto`. -/
def hashStringSkeeto (string : ByteString) : U64 :=
  string.buf.foldl (fun h byte => (h ^^^ byte.setWidth 64) * 1111111111111111111) 0x100

/-- The child a hash leads to, `hash >> 62`. -/
def digit (hash : U64) : BitVec 2 := (hash >>> 62).setWidth 2

/-- The hash at that child, `hash <<= 2`. -/
def nextHash (hash : U64) : U64 := hash <<< 2

/-- `trie_stringAutoU16Node`, or the null pointer. -/
abbrev StringAutoU16Node := HashTrie (BitVec 2) ByteString U16

/-- `trie_stringAutoU16Map`. -/
structure StringAutoU16Map where
  nodeCount : U16
  node : StringAutoU16Node

/-- `NewStringInsert`. -/
structure NewStringInsert where
  wasInserted : Bool
  entryIndex : U16
  deriving DecidableEq, Repr

/-- `trie_containsStringAutoU16Map`. -/
def trie_containsStringAutoU16Map (key : ByteString) (set : StringAutoU16Map) : U16 :=
  (set.node.find? digit nextHash key (hashStringSkeeto key)).getD 0

/-! ## Calls -/

/-- What a call returns. -/
inductive TrieReport where
  | inserted (result : NewStringInsert)
  | contained (value : U16)
  deriving DecidableEq, Repr

/-- The number of a string: its place in the order of first insertions. -/
def number (seen : List ByteString) (key : ByteString) : U16 :=
  BitVec.ofNat 16 (seen.idxOf key + 1)

/-- What a call should return, given the strings before it. -/
def reportOf (seen : List ByteString) : KeyCall ByteString → TrieReport
  | .insert key => .inserted ⟨key ∉ seen, number seen key⟩
  | .contains key => .contained (if key ∈ seen then number seen key else 0)

/-- What the calls should return. -/
def reports (seen : List ByteString) : List (KeyCall ByteString) → List TrieReport
  | [] => []
  | call :: calls => reportOf seen call :: reports (call.register seen) calls

/-- Earlier numbers stay when a string is registered. -/
theorem number_append {seen : List ByteString} {key key' : ByteString} (h : key' ∈ seen) :
    number (seen ++ [key]) key' = number seen key' := by
  rw [number, number, List.idxOf_append_of_mem h]

/-- A new string has the number it was given. -/
theorem number_append_self {seen : List ByteString} {key : ByteString} (h : key ∉ seen) :
    number (seen ++ [key]) key = number seen key := by
  rw [number, number, List.idxOf_append_of_notMem h, List.idxOf_cons_self,
    List.idxOf_of_notMem h, Nat.add_zero]

/-- The map numbers the strings of a list by their places. -/
structure Registers (set : StringAutoU16Map) (seen : List ByteString) : Prop where
  nodeCount : set.nodeCount = BitVec.ofNat 16 seen.length
  find : ∀ key, set.node.find? digit nextHash key (hashStringSkeeto key) =
    if key ∈ seen then some (number seen key) else none

section Calls

variable {set : StringAutoU16Map} {seen : List ByteString} {key : ByteString}

theorem Registers.contains (h : Registers set seen) (key : ByteString) :
    trie_containsStringAutoU16Map key set = if key ∈ seen then number seen key else 0 := by
  rw [trie_containsStringAutoU16Map, h.find]
  split <;> rfl

/-- A new node with the next number registers its string. -/
theorem Registers.fill (h : Registers set seen) {fill : StringAutoU16Node → StringAutoU16Node}
    (hwalk : set.node.walk digit nextHash key (hashStringSkeeto key) = .inr fill) :
    key ∉ seen ∧ set.nodeCount + 1 = number seen key ∧
      Registers ⟨set.nodeCount + 1, fill (.leaf key (set.nodeCount + 1))⟩ (seen ++ [key]) := by
  have hnew : key ∉ seen := by
    intro hkey
    have hnone := HashTrie.find?_of_walk_inr hwalk
    rw [h.find, if_pos hkey] at hnone
    cases hnone
  have hnumber : set.nodeCount + 1 = number seen key := by
    rw [number, List.idxOf_of_notMem hnew, h.nodeCount, BitVec.ofNat_add]
    rfl
  refine ⟨hnew, hnumber, ⟨?_, fun key' => ?_⟩⟩
  · rw [hnumber, number, List.idxOf_of_notMem hnew, List.length_append, List.length_singleton]
  · by_cases hkey : key' = key
    · rw [hkey, HashTrie.find?_fill hwalk, if_pos (by simp), number_append_self hnew, hnumber]
    · rw [HashTrie.find?_fill_of_ne hwalk hkey, h.find]
      by_cases hseen : key' ∈ seen
      · rw [if_pos hseen, if_pos (List.mem_append_left _ hseen), number_append hseen]
      · rw [if_neg hseen, if_neg (by simpa [hseen] using hkey)]

/-- Room for some more nodes in the arena: a node takes 63 bytes at most. -/
def Room (nodes : Nat) (perm : Arena) : Prop := perm.WellFormed ∧ 63 * nodes ≤ perm.left

/-- A request that takes 63 bytes at most, with the padding in front of them. -/
structure SmallRequest (request : AllocRequest) : Prop where
  valid : request.Valid
  bytes_le : request.align.toNat + request.bytes ≤ 64

/-- With room for a node, the arena serves a request, between the old `curFree` and the new. -/
theorem Room.serve (posix : Bool) {request : AllocRequest} (hrequest : SmallRequest request)
    {nodes : Nat} {perm : Arena} (h : Room (nodes + 1) perm) : ∃ p total zeroed,
      (perm.call posix request).result = .block p total zeroed ∧
      p.toNat + total.toNat ≤ (perm.call posix request).after.limit.toNat ∧
      Room nodes (perm.call posix request).after ∧ perm.curFree.toNat ≤ p.toNat ∧
      (perm.call posix request).after.curFree.toNat = p.toNat + request.bytes := by
  obtain ⟨hwf, hleft⟩ := h
  have hbytes := hrequest.bytes_le
  have hpos : 0 < request.align.toNat := by
    obtain ⟨k, hk⟩ := hrequest.valid.align_pow
    exact hk.pos
  have hpad : perm.pad request.align < request.align.toNat := Nat.mod_lt _ hpos
  obtain ⟨p, total, zeroed, hcall, htotal, hp, hend, hlimit⟩ :=
    Arena.alloc_served posix hwf hrequest.valid (by omega) (by omega)
  have hafter : (perm.call posix request).after = { perm with curFree := p + total } :=
    congrArg Prod.snd hcall
  have hbeg := hwf.beg_le
  refine ⟨p, total, zeroed, congrArg Prod.fst hcall, ?_, ⟨⟨?_, ?_⟩, ?_⟩, by omega, ?_⟩ <;>
    rw [hafter]
  · change p.toNat + total.toNat ≤ perm.limit.toNat
    omega
  · change perm.beg.toNat ≤ (p + total).toNat
    omega
  · change (p + total).toNat ≤ perm.limit.toNat
    omega
  · change 63 * nodes ≤ perm.limit.toNat - (p + total).toNat
    unfold Arena.left at hleft
    omega
  · exact hend

end Calls

end Homegrown.Hash
