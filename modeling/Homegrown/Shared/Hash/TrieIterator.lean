import Homegrown.Core.Chain
import Homegrown.Core.Loop
import Homegrown.Shared.Hash.TrieInsert

/-!
# The iterator of the trie sets

An iterator is a chain of nodes from `head` on, one for each node of the trie on the path to
where it is, and a chain of free ones. The node in front counts where it goes on: at 0 with its
key, at 1 to 4 with its children, and at 5 it is put in front of the free ones.
-/

namespace Homegrown.Hash

/-- `TRIE_ITER_NODE`; the null pointer is 0. -/
structure IterNode (K : Type) where
  next : U64
  set : HashTrie (BitVec 2) K Unit
  index : U8

/-- `TRIE_ITERATOR`. -/
structure TrieIterator where
  head : U64
  free : U64
  deriving DecidableEq, Repr

/-- An iterator, the memory its nodes are in, and the arena they come from. -/
structure IterState (K : Type) where
  nodes : U64 → IterNode K
  it : TrieIterator
  perm : Arena

/-- Why a call on an iterator does not return. -/
inductive IterFault where
  /-- Control went to `jmp_buf`: the arena has no room. -/
  | longjmp
  /-- The null pointer was followed. -/
  | nullDereference
  /-- The bound on rounds given to the model ran out. -/
  | outOfFuel
  deriving DecidableEq, Repr

/-- Programs on an iterator. -/
abbrev IterProgram (K : Type) := EStateM IterFault (IterState K)

/-- `NEW(perm, iterNodeType, 1, ZERO_MEMORY)`. -/
def iterNodeRequest : AllocRequest := ⟨24, 8, 1, zeroMemory⟩

theorem iterNodeRequest_small : SmallRequest iterNodeRequest :=
  ⟨⟨by decide, 3, by decide⟩, by decide⟩

section Iterator

variable {K : Type}

/-- A block of the arena. -/
def iterAlloc (posix : Bool) (request : AllocRequest) : IterProgram K U64 := do
  let s ← get
  let call := s.perm.call posix request
  match call.result with
  | .block p _ _ =>
    set { s with perm := call.after }
    return p
  | _ => throw .longjmp

/-- A change of a node. -/
def modifyNode (p : U64) (f : IterNode K → IterNode K) : IterProgram K Unit :=
  modify fun s => { s with nodes := Function.update s.nodes p (f (s.nodes p)) }

/-- `NEW(perm, iterNodeType, 1, ZERO_MEMORY)`, a node of zeros. -/
def newIterNode (posix : Bool) : IterProgram K U64 := do
  let p ← iterAlloc posix iterNodeRequest
  modifyNode p fun _ => ⟨0, .empty, 0⟩
  return p

/-- A node is put in front of the others. -/
def linkNode (nextIter : U64) (child : HashTrie (BitVec 2) K Unit) : IterProgram K Unit := do
  modifyNode nextIter fun node => { node with set := child }
  modify fun s => { s with
    nodes := Function.update s.nodes nextIter { s.nodes nextIter with next := s.it.head } }
  modify fun s => { s with it := { s.it with head := nextIter } }

/-- The branch of `TRIE_NEXT_ITERATOR` that goes to a child. -/
def enterChild (posix : Bool) (child : HashTrie (BitVec 2) K Unit) : IterProgram K Unit := do
  let s ← get
  let nextIter ←
    if s.it.free ≠ 0 then do
      let nextIter := s.it.free
      modify fun s => { s with it := { s.it with free := (s.nodes nextIter).next } }
      modifyNode nextIter fun node => { node with index := 0 }
      pure nextIter
    else newIterNode posix
  linkNode nextIter child

/-- The branch of `TRIE_NEXT_ITERATOR` that leaves a node. -/
def leaveNode : IterProgram K Unit := do
  let dead := (← get).it.head
  modify fun s => { s with it := { s.it with head := (s.nodes dead).next } }
  modify fun s => { s with
    nodes := Function.update s.nodes dead { s.nodes dead with next := s.it.free } }
  modify fun s => { s with it := { s.it with free := dead } }

/-- A round of the loop of `TRIE_NEXT_ITERATOR`. -/
def nextRound (posix : Bool) (zero : K) : IterProgram K (Unit ⊕ K) := do
  let head := (← get).it.head
  if head = 0 then return .inr zero
  let index := ((← get).nodes head).index
  modifyNode head fun node => { node with index := node.index + 1 }
  if index = 0 then
    match ((← get).nodes head).set with
    | .empty => throw .nullDereference
    | .node key _ _ => return .inr key
  else if index = 5 then
    leaveNode
    return .inl ()
  else
    match ((← get).nodes head).set with
    | .empty => throw .nullDereference
    | .node _ _ child =>
      match child ((index - 1).setWidth 2) with
      | .empty => return .inl ()
      | .node key value child =>
        enterChild posix (.node key value child)
        return .inl ()

/-- The digits of a trie, in the order of its children. -/
def trieDigits : List (BitVec 2) := [0, 1, 2, 3]

/-- A node of the trie, and where an iterator goes on at it. -/
structure Frame (K : Type) where
  key : K
  child : BitVec 2 → HashTrie (BitVec 2) K Unit
  index : Nat
  index_le : index ≤ 5

namespace Frame

/-- The keys below the children that are to come. -/
def below (f : Frame K) : List K :=
  (trieDigits.drop (f.index - 1)).flatMap fun d => (f.child d).keys trieDigits

/-- The keys that are to come. -/
def pending (f : Frame K) : List K := (if f.index = 0 then [f.key] else []) ++ f.below

/-- The rounds that are to come, without those of the nodes below. -/
def rounds (f : Frame K) : Nat := 6 - f.index

/-- A node that was not entered yet. -/
def start (key : K) (child : BitVec 2 → HashTrie (BitVec 2) K Unit) : Frame K :=
  ⟨key, child, 0, by decide⟩

/-- The place after this one. -/
def advance (f : Frame K) (h : f.index < 5) : Frame K := ⟨f.key, f.child, f.index + 1, h⟩

end Frame

/-- The node of an iterator is at a place. -/
structure IterNode.Holds (node : IterNode K) (f : Frame K) : Prop where
  set : node.set = .node f.key () f.child
  index : node.index = BitVec.ofNat 8 f.index

/-- The nodes of an iterator are those of a stack, and some that are free. -/
structure Represents (s : IterState K) (stack : List (U64 × Frame K)) (free : List (U64 × Unit)) :
    Prop where
  headChain : Chain IterNode.next IterNode.Holds 0 s.nodes s.it.head stack
  freeChain : Chain IterNode.next (fun _ _ => True) 0 s.nodes s.it.free free
  nodup : (stack.map Prod.fst ++ free.map Prod.fst).Nodup
  lt_curFree : ∀ p ∈ stack.map Prod.fst ++ free.map Prod.fst, p.toNat < s.perm.curFree.toNat

/-- The keys that are to come. -/
def pendingKeys (stack : List (U64 × Frame K)) : List K := stack.flatMap fun x => x.2.pending

/-- The keys below the nodes of a stack, each of which may take a node. -/
def keysBelow (stack : List (U64 × Frame K)) : Nat := (stack.map fun x => x.2.below.length).sum

/-- The rounds that are to come: six for each node of the trie. -/
def roundsLeft (stack : List (U64 × Frame K)) : Nat :=
  (stack.map fun x => x.2.rounds).sum + 6 * keysBelow stack

/-- An iterator at some place, with room for the nodes to come. -/
structure At (s : IterState K) (stack : List (U64 × Frame K)) : Prop where
  represents : ∃ free, Represents s stack free
  room : Room (keysBelow stack) s.perm
  curFree_pos : 0 < s.perm.curFree.toNat

section Rounds

variable (posix : Bool) (zero : K) {s : IterState K} {stack : List (U64 × Frame K)}
  {free : List (U64 × Unit)} {p : U64} {f : Frame K}

/-- A state with another node in front. -/
def IterState.withHead (s : IterState K) (node : IterNode K) : IterState K :=
  { s with nodes := Function.update s.nodes s.it.head node }

theorem IterState.withHead_nodes_head (s : IterState K) (node : IterNode K) :
    (s.withHead node).nodes s.it.head = node := Function.update_self ..

/-- What a round does at a node of the trie, after its place was counted up. -/
theorem nextRound_eq {key : K} {child : BitVec 2 → HashTrie (BitVec 2) K Unit}
    (hp : s.it.head ≠ 0) (hset : (s.nodes s.it.head).set = .node key () child) :
    nextRound posix zero s =
      (if (s.nodes s.it.head).index = 0 then pure (.inr key)
      else if (s.nodes s.it.head).index = 5 then leaveNode >>= fun _ => pure (.inl ())
      else match child (((s.nodes s.it.head).index - 1).setWidth 2) with
        | .empty => pure (.inl ())
        | .node key' value child' => enterChild posix (.node key' value child') >>= fun _ =>
            pure (.inl ()) : IterProgram K (Unit ⊕ K))
      (s.withHead { s.nodes s.it.head with index := (s.nodes s.it.head).index + 1 }) := by
  have hcount (next : PUnit → IterProgram K (Unit ⊕ K)) :
      (modifyNode s.it.head (fun node => { node with index := node.index + 1 }) >>= next) s =
        next () (s.withHead
          { s.nodes s.it.head with index := (s.nodes s.it.head).index + 1 }) := rfl
  rw [nextRound, get_bind, if_neg hp, get_bind, hcount]
  have hset' : ((s.withHead { s.nodes s.it.head with
      index := (s.nodes s.it.head).index + 1 }).nodes s.it.head).set = .node key () child := by
    rw [IterState.withHead_nodes_head]
    exact hset
  by_cases hzero : (s.nodes s.it.head).index = 0
  · rw [if_pos hzero, if_pos hzero, get_bind, hset']
  · rw [if_neg hzero, if_neg hzero]
    by_cases hfive : (s.nodes s.it.head).index = 5
    · rw [if_pos hfive, if_pos hfive]
    · rw [if_neg hfive, if_neg hfive, get_bind, hset']

/-- To leave a node is to put it in front of the free ones. -/
theorem leaveNode_eq (s : IterState K) (node : IterNode K) :
    leaveNode (s.withHead node) = .ok () ⟨Function.update s.nodes s.it.head
      { node with next := s.it.free }, ⟨node.next, s.it.head⟩, s.perm⟩ := by
  have hnext : ((s.withHead node).nodes s.it.head).next = node.next := by
    rw [IterState.withHead_nodes_head]
  have hrun : leaveNode (s.withHead node) = .ok () ⟨Function.update (s.withHead node).nodes
      s.it.head { (s.withHead node).nodes s.it.head with next := s.it.free },
      ⟨((s.withHead node).nodes s.it.head).next, s.it.head⟩, s.perm⟩ := rfl
  rw [hrun, hnext]
  simp only [IterState.withHead, Function.update_self, Function.update_idem]

/-- The node in front is nowhere else. -/
theorem Represents.notMem (h : Represents s ((p, f) :: stack) free) :
    p ∉ stack.map Prod.fst ∧ p ∉ free.map Prod.fst := by
  have hnodup : (p :: (stack.map Prod.fst ++ free.map Prod.fst)).Nodup := h.nodup
  rw [List.nodup_cons, List.mem_append, not_or] at hnodup
  exact hnodup.1

/-- A frame that has been everywhere is left, and its node is free. -/
theorem nextRound_leave (h : Represents s ((p, f) :: stack) free) (hindex : f.index = 5) :
    ∃ s', nextRound posix zero s = .ok (.inl ()) s' ∧ Represents s' stack ((p, ()) :: free) ∧
      s'.perm = s.perm := by
  obtain ⟨rfl, hp, hholds, hrest⟩ := h.headChain
  have hnode : (s.nodes s.it.head).index = 5 := by rw [hholds.index, hindex]; rfl
  have hrun := nextRound_eq posix zero hp hholds.set
  rw [hnode, if_neg (by decide), if_pos rfl, bind_of_ok (leaveNode_eq s _)] at hrun
  obtain ⟨hstack, hfree⟩ := h.notMem
  refine ⟨_, hrun, ⟨hrest.update hstack, h.freeChain.cons hfree hp rfl trivial, ?_, ?_⟩, rfl⟩
  · rw [List.map_cons]
    exact List.nodup_middle.mpr h.nodup
  · intro q hq
    rw [List.map_cons, List.mem_append, List.mem_cons, or_left_comm, ← List.mem_append] at hq
    exact h.lt_curFree q (List.mem_cons.mpr hq)

/-- The node in front goes on at the next place. -/
theorem Represents.advance (h : Represents s ((p, f) :: stack) free) (hindex : f.index < 5) :
    Represents (s.withHead { s.nodes s.it.head with index := (s.nodes s.it.head).index + 1 })
      ((p, f.advance hindex) :: stack) free := by
  obtain ⟨rfl, hp, hholds, hrest⟩ := h.headChain
  obtain ⟨hstack, hfree⟩ := h.notMem
  refine ⟨hrest.cons hstack hp rfl ⟨hholds.set, ?_⟩, h.freeChain.update hfree, h.nodup,
    h.lt_curFree⟩
  change (s.nodes s.it.head).index + 1 = BitVec.ofNat 8 (f.index + 1)
  rw [hholds.index, BitVec.ofNat_add]
  rfl

/-- A frame that is entered gives its key. -/
theorem nextRound_key (h : Represents s ((p, f) :: stack) free) (hindex : f.index = 0) :
    ∃ s', nextRound posix zero s = .ok (.inr f.key) s' ∧
      Represents s' ((p, f.advance (by omega)) :: stack) free ∧ s'.perm = s.perm := by
  have hrep := h.advance (show f.index < 5 by omega)
  obtain ⟨rfl, hp, hholds, hrest⟩ := h.headChain
  have hnode : (s.nodes s.it.head).index = 0 := by rw [hholds.index, hindex]; rfl
  have hrun := nextRound_eq posix zero hp hholds.set
  rw [if_pos hnode] at hrun
  exact ⟨_, hrun, hrep, rfl⟩

/-- The places at the children. -/
theorem index_at_child {i : Nat} (hpos : 0 < i) (hlt : i < 5) :
    (BitVec.ofNat 8 i : U8) ≠ 0 ∧ (BitVec.ofNat 8 i : U8) ≠ 5 ∧
      (BitVec.ofNat 8 i - 1 : U8).setWidth 2 = BitVec.ofNat 2 (i - 1) := by
  obtain rfl | rfl | rfl | rfl : i = 1 ∨ i = 2 ∨ i = 3 ∨ i = 4 := by omega
  all_goals decide

/-- What a round does at a child. -/
theorem nextRound_child (h : Represents s ((p, f) :: stack) free) (hpos : 0 < f.index)
    (hlt : f.index < 5) :
    nextRound posix zero s =
      (match f.child (BitVec.ofNat 2 (f.index - 1)) with
        | .empty => pure (.inl ())
        | .node key value child => enterChild posix (.node key value child) >>= fun _ =>
            pure (.inl ()) : IterProgram K (Unit ⊕ K))
      (s.withHead { s.nodes s.it.head with index := (s.nodes s.it.head).index + 1 }) := by
  obtain ⟨rfl, hp, hholds, hrest⟩ := h.headChain
  obtain ⟨hzero, hfive, hchild⟩ := index_at_child hpos hlt
  rw [← hholds.index] at hzero hfive hchild
  rw [nextRound_eq posix zero hp hholds.set, if_neg hzero, if_neg hfive, hchild]

/-- A node with another set goes in front of the others. -/
theorem linkNode_eq (s : IterState K) (q : U64) (child : HashTrie (BitVec 2) K Unit) :
    linkNode q child s = .ok () ⟨Function.update s.nodes q
      ⟨s.it.head, child, (s.nodes q).index⟩, ⟨q, s.it.free⟩, s.perm⟩ := by
  have hrun : linkNode q child s = .ok () ⟨Function.update (Function.update s.nodes q
      { s.nodes q with set := child }) q { Function.update s.nodes q
        { s.nodes q with set := child } q with next := s.it.head }, ⟨q, s.it.free⟩, s.perm⟩ := rfl
  rw [hrun]
  simp only [Function.update_self, Function.update_idem]

/-- A node that was used before is put in front. -/
theorem enterChild_recycle {chain : List (U64 × Frame K)} {key : K}
    {child : BitVec 2 → HashTrie (BitVec 2) K Unit} {q : U64}
    (h : Represents s chain ((q, ()) :: free)) :
    ∃ s', enterChild posix (.node key () child) s = .ok () s' ∧
      Represents s' ((q, .start key child) :: chain) free ∧ s'.perm = s.perm := by
  obtain ⟨rfl, hnull, -, hfree⟩ := h.freeChain
  have hrun : enterChild posix (.node key () child) s = linkNode s.it.free (.node key () child)
      ⟨Function.update s.nodes s.it.free { s.nodes s.it.free with index := 0 },
        { s.it with free := (s.nodes s.it.free).next }, s.perm⟩ := by
    rw [enterChild, get_bind, if_pos hnull]
    rfl
  rw [linkNode_eq] at hrun
  simp only [Function.update_self, Function.update_idem] at hrun
  have hnodup : (s.it.free :: (chain.map Prod.fst ++ free.map Prod.fst)).Nodup :=
    List.nodup_middle.mp h.nodup
  obtain ⟨hnotMem, -⟩ := List.nodup_cons.mp hnodup
  rw [List.mem_append, not_or] at hnotMem
  refine ⟨_, hrun, ⟨h.headChain.cons hnotMem.1 hnull rfl ⟨rfl, rfl⟩, hfree.update hnotMem.2, hnodup,
    fun r hr => h.lt_curFree r ?_⟩, rfl⟩
  rw [List.map_cons, List.mem_append, List.mem_cons, or_left_comm, ← List.mem_append]
  exact List.mem_cons.mp hr

/-- A node from the arena lies above all that were handed out before. -/
theorem newIterNode_returns {nodes : Nat} (hroom : Room (nodes + 1) s.perm)
    (hpos : 0 < s.perm.curFree.toNat) : ∃ p perm, newIterNode posix s =
      .ok p ⟨Function.update s.nodes p ⟨0, .empty, 0⟩, s.it, perm⟩ ∧ Room nodes perm ∧
      p ≠ 0 ∧ s.perm.curFree.toNat ≤ p.toNat ∧ p.toNat < perm.curFree.toNat := by
  obtain ⟨p, total, zeroed, hresult, -, hroom', hp, hnext⟩ :=
    hroom.serve posix iterNodeRequest_small
  have hbytes : iterNodeRequest.bytes = 24 := by decide
  refine ⟨p, _, ?_, hroom', ?_, hp, by omega⟩
  · simp only [newIterNode, iterAlloc, bind_assoc, get_bind, hresult]
    rfl
  · rintro rfl
    exact absurd (hpos.trans_le hp) (Nat.lt_irrefl 0)

/-- A node from the arena is put in front. -/
theorem enterChild_new {chain : List (U64 × Frame K)} {key : K} {nodes : Nat}
    {child : BitVec 2 → HashTrie (BitVec 2) K Unit}
    (h : Represents s chain []) (hroom : Room (nodes + 1) s.perm)
    (hpos : 0 < s.perm.curFree.toNat) :
    ∃ s' q, enterChild posix (.node key () child) s = .ok () s' ∧
      Represents s' ((q, .start key child) :: chain) [] ∧ Room nodes s'.perm ∧
      0 < s'.perm.curFree.toNat := by
  have hfree : s.it.free = 0 := h.freeChain
  obtain ⟨p, perm, halloc, hroom', hnull, hp, hlt⟩ := newIterNode_returns posix hroom hpos
  have hrun : enterChild posix (.node key () child) s = linkNode p (.node key () child)
      ⟨Function.update s.nodes p ⟨0, .empty, 0⟩, s.it, perm⟩ := by
    rw [enterChild, get_bind, if_neg (not_not.mpr hfree)]
    exact bind_of_ok halloc
  rw [linkNode_eq] at hrun
  simp only [Function.update_self, Function.update_idem] at hrun
  -- The nodes that there are lie below what was left of the arena.
  have hnew : p ∉ chain.map Prod.fst := by
    intro hmem
    have hbelow := h.lt_curFree p (List.mem_append_left _ hmem)
    omega
  refine ⟨_, p, hrun, ⟨h.headChain.cons hnew hnull rfl ⟨rfl, rfl⟩, hfree, ?_, fun r hr => ?_⟩,
    hroom', (Nat.zero_le _).trans_lt hlt⟩
  · exact List.nodup_cons.mpr ⟨by simpa using hnew, h.nodup⟩
  · rcases List.mem_cons.mp hr with rfl | hr
    · exact hlt
    · exact (h.lt_curFree r hr).trans (hp.trans_lt hlt)

/-! ## Calls -/

theorem pendingKeys_cons : pendingKeys ((p, f) :: stack) = f.pending ++ pendingKeys stack :=
  List.flatMap_cons

theorem keysBelow_cons : keysBelow ((p, f) :: stack) = f.below.length + keysBelow stack :=
  List.sum_cons

theorem roundsLeft_cons : roundsLeft ((p, f) :: stack) =
    f.rounds + 6 * f.below.length + roundsLeft stack := by
  rw [roundsLeft, roundsLeft, keysBelow_cons, List.map_cons, List.sum_cons]
  dsimp only
  omega

namespace Frame

theorem pending_of_zero (h : f.index = 0) : f.pending = f.key :: f.below := by
  rw [pending, if_pos h]
  rfl

theorem pending_of_pos (h : 0 < f.index) : f.pending = f.below := by
  rw [pending, if_neg h.ne', List.nil_append]

theorem pending_advance (h : f.index < 5) : (f.advance h).pending = (f.advance h).below :=
  pending_of_pos (Nat.succ_pos _)

theorem rounds_advance (h : f.index < 5) : (f.advance h).rounds + 1 = f.rounds := by
  change 6 - (f.index + 1) + 1 = 6 - f.index
  omega

/-- After its key, a node goes on with all of its children. -/
theorem below_advance_zero (hlt : f.index < 5) (h : f.index = 0) :
    (f.advance hlt).below = f.below := by
  obtain ⟨key, child, index, hle⟩ := f
  dsimp only at h
  subst h
  rfl

/-- A node goes from a child to the next. -/
theorem below_advance (hpos : 0 < f.index) (hlt : f.index < 5) :
    f.below =
      (f.child (BitVec.ofNat 2 (f.index - 1))).keys trieDigits ++ (f.advance hlt).below := by
  obtain ⟨key, child, index, hle⟩ := f
  dsimp only at hpos hlt
  obtain rfl | rfl | rfl | rfl : index = 1 ∨ index = 2 ∨ index = 3 ∨ index = 4 := by omega
  all_goals rfl

/-- A node that has been everywhere has nothing to come. -/
theorem below_end (h : f.index = 5) : f.below = [] := by
  rw [below, h]
  rfl

/-- What is to come from a node of the trie, its own key first. -/
theorem keys_node (key : K) (child : BitVec 2 → HashTrie (BitVec 2) K Unit) :
    (HashTrie.node key () child).keys trieDigits = key :: (start key child).below := rfl

end Frame

/-- Room for some nodes is room for fewer. -/
theorem Room.mono {nodes fewer : Nat} {perm : Arena} (h : Room nodes perm) (hle : fewer ≤ nodes) :
    Room fewer perm :=
  ⟨h.1, (Nat.mul_le_mul_left 63 hle).trans h.2⟩

/-- A round gives the next key, or none, and leaves fewer rounds. -/
structure RoundsTo (stack : List (U64 × Frame K)) (result : Unit ⊕ K) (s' : IterState K) :
    Prop where
  goesOn : ∃ stack', At s' stack' ∧ roundsLeft stack' < roundsLeft stack ∧
    pendingKeys stack = result.getRight?.toList ++ pendingKeys stack'

/-- At a node that was just entered, a round returns its key. -/
theorem At.round_key (h : At s ((p, f) :: stack)) (hindex : f.index = 0) :
    ReturnsWith (nextRound posix zero s) (RoundsTo ((p, f) :: stack)) := by
  obtain ⟨⟨free, hrep⟩, hroom, hpos⟩ := h
  have hlt : f.index < 5 := by omega
  obtain ⟨s', hrun, hrep', hperm⟩ := nextRound_key posix zero hrep hindex
  have hbelow := Frame.below_advance_zero hlt hindex
  have hrounds := Frame.rounds_advance hlt
  refine ⟨.inr f.key, s', hrun, ⟨(p, f.advance hlt) :: stack, ⟨⟨free, hrep'⟩, ?_, ?_⟩, ?_, ?_⟩⟩
  · rw [keysBelow_cons] at hroom
    rwa [keysBelow_cons, hperm, hbelow]
  · rwa [hperm]
  · rw [roundsLeft_cons, roundsLeft_cons, hbelow]
    omega
  · rw [pendingKeys_cons, pendingKeys_cons, Frame.pending_of_zero hindex, Frame.pending_advance,
      hbelow]
    rfl

/-- Behind the last child, a round leaves the node. -/
theorem At.round_leave (h : At s ((p, f) :: stack)) (hindex : f.index = 5) :
    ReturnsWith (nextRound posix zero s) (RoundsTo ((p, f) :: stack)) := by
  obtain ⟨⟨free, hrep⟩, hroom, hpos⟩ := h
  obtain ⟨s', hrun, hrep', hperm⟩ := nextRound_leave posix zero hrep hindex
  have hbelow := Frame.below_end hindex
  rw [keysBelow_cons, hbelow] at hroom
  refine ⟨.inl (), s', hrun, ⟨stack, ⟨⟨_, hrep'⟩, ?_, ?_⟩, ?_, ?_⟩⟩
  · rw [hperm]
    exact hroom.mono (Nat.le_add_left ..)
  · rwa [hperm]
  · rw [roundsLeft_cons, Frame.rounds, hindex]
    omega
  · rw [pendingKeys_cons, Frame.pending_of_pos (by omega), hbelow]
    rfl

/-- A child is entered. -/
theorem enterChild_returns {key : K} {child : BitVec 2 → HashTrie (BitVec 2) K Unit} {nodes : Nat}
    (h : Represents s stack free) (hroom : Room (nodes + 1) s.perm)
    (hpos : 0 < s.perm.curFree.toNat) :
    ∃ s' q free', enterChild posix (.node key () child) s = .ok () s' ∧
      Represents s' ((q, .start key child) :: stack) free' ∧ Room nodes s'.perm ∧
      0 < s'.perm.curFree.toNat := by
  cases free with
  | nil =>
    obtain ⟨s', q, hrun, hrep, hroom', hpos'⟩ := enterChild_new posix h hroom hpos
    exact ⟨s', q, [], hrun, hrep, hroom', hpos'⟩
  | cons first free =>
    obtain ⟨q, ⟨⟩⟩ := first
    obtain ⟨s', hrun, hrep, hperm⟩ := enterChild_recycle posix h
    rw [← hperm] at hroom hpos
    exact ⟨s', q, free, hrun, hrep, hroom.mono (Nat.le_succ _), hpos⟩

/-- Before a child, a round enters it or passes over it. -/
theorem At.round_child (h : At s ((p, f) :: stack)) (hpos : 0 < f.index) (hlt : f.index < 5) :
    ReturnsWith (nextRound posix zero s) (RoundsTo ((p, f) :: stack)) := by
  obtain ⟨⟨free, hrep⟩, hroom, hcurFree⟩ := h
  have hadvance := hrep.advance hlt
  have hrun := nextRound_child posix zero hrep hpos hlt
  have hbelow := Frame.below_advance hpos hlt
  have hrounds := Frame.rounds_advance hlt
  rw [keysBelow_cons] at hroom
  cases hchild : f.child (BitVec.ofNat 2 (f.index - 1)) with
  | empty =>
    rw [hchild] at hrun hbelow
    rw [hbelow] at hroom
    refine ⟨.inl (), _, hrun, ⟨_, ⟨⟨free, hadvance⟩, ?_, hcurFree⟩, ?_, ?_⟩⟩
    · rwa [keysBelow_cons]
    · rw [roundsLeft_cons, roundsLeft_cons, hbelow]
      change _ + 6 * (f.advance hlt).below.length + _ < _ + 6 * (f.advance hlt).below.length + _
      omega
    · rw [pendingKeys_cons, pendingKeys_cons, Frame.pending_of_pos hpos, Frame.pending_advance,
        hbelow]
      rfl
  | node key value child =>
    rw [hchild] at hrun hbelow
    rw [Frame.keys_node, List.cons_append] at hbelow
    have hlength : f.below.length = (Frame.start key child).below.length +
        (f.advance hlt).below.length + 1 := by
      rw [hbelow, List.length_cons, List.length_append]
    rw [hlength, show _ + 1 + keysBelow stack = _ + keysBelow stack + 1 from
      Nat.add_right_comm ..] at hroom
    obtain ⟨s', q, free', henter, hrep', hroom', hcurFree'⟩ :=
      enterChild_returns posix hadvance hroom hcurFree
    refine ⟨.inl (), s', hrun.trans (bind_of_ok henter),
      ⟨_, ⟨⟨free', hrep'⟩, ?_, hcurFree'⟩, ?_, ?_⟩⟩
    · rwa [keysBelow_cons, keysBelow_cons, ← Nat.add_assoc]
    · rw [roundsLeft_cons, roundsLeft_cons, roundsLeft_cons, hlength]
      have hstart : (Frame.start key child).rounds = 6 := rfl
      omega
    · rw [pendingKeys_cons, pendingKeys_cons, pendingKeys_cons, Frame.pending_of_pos hpos, hbelow,
        Frame.pending_of_zero rfl, Frame.pending_advance, List.cons_append, List.append_assoc]
      rfl

/-- What a round does while the iterator has a node. -/
theorem At.round (h : At s ((p, f) :: stack)) :
    ReturnsWith (nextRound posix zero s) (RoundsTo ((p, f) :: stack)) := by
  have hle := f.index_le
  by_cases hzero : f.index = 0
  · exact h.round_key posix zero hzero
  · by_cases hfive : f.index = 5
    · exact h.round_leave posix zero hfive
    · exact h.round_child posix zero (by omega) (by omega)

end Rounds

end Iterator

end Homegrown.Hash
