import Homegrown.Core.Chain
import Homegrown.Core.FreeList
import Homegrown.Core.LittleEndian
import Homegrown.Shared.Memory.Arena
import Mathlib.Logic.Relation

/-!
# The pool allocator

The chunks of a pool that are not in use form a list that is threaded through the chunks
themselves. `freePool` links every chunk in front of the list it finds, whatever that is: when
it is empty the list has every chunk once afterwards, and otherwise it runs into itself, and the
pool hands out more chunks than it has (`poolRun_handsOut_iff`).
-/

namespace Homegrown

/-- `PoolAllocator`, without `jmp_buf`. -/
structure PoolAllocator where
  beg : U64
  cap : I64
  chunkSize : I64
  head : U64
  deriving DecidableEq, Repr

/-- A pool and the memory it is in. -/
structure PoolHeap where
  memory : U64 → U8
  pool : PoolAllocator

/-- How a call of `poolAlloc` ends. -/
inductive PoolResult where
  /-- The null pointer was returned. -/
  | nullptr
  /-- Control went to `jmp_buf`. -/
  | longjmp
  /-- A chunk was returned. -/
  | chunk (p : U64)
  deriving DecidableEq, Repr

/-- The number of chunks, as `freePool` computes it. -/
def PoolAllocator.chunkCount (pool : PoolAllocator) : U64 := pool.cap.sdiv pool.chunkSize

/-- `&pool->beg[i * pool->chunkSize]`. -/
def PoolAllocator.chunk (pool : PoolAllocator) (i : U64) : U64 := pool.beg + i * pool.chunkSize

/-- `node->next = pool->head` and `pool->head = node`. -/
def PoolHeap.link (h : PoolHeap) (node : U64) : PoolHeap :=
  ⟨store64 h.memory node h.pool.head, { h.pool with head := node }⟩

/-- The first rounds of the loop of `freePool`. -/
def PoolHeap.linkChunks (h : PoolHeap) (rounds : Nat) : PoolHeap :=
  (List.range rounds).foldl (fun h' i => h'.link (h'.pool.chunk (BitVec.ofNat 64 i))) h

/-- `freePool`. -/
def freePool (h : PoolHeap) : PoolHeap := h.linkChunks h.pool.chunkCount.toNat

/-- `createPoolAllocator`, where a failed assertion ends the program. -/
def createPoolAllocator (memory : U64 → U8) (buffer : U64) (cap chunkSize : I64) :
    Option PoolHeap :=
  if (0 : I64).slt cap ∧ cap &&& (cap - 1) = 0 ∧ (0 : I64).slt chunkSize ∧
      chunkSize &&& (chunkSize - 1) = 0 ∧ (8 : U64) < chunkSize ∧ chunkSize.slt cap then
    some (freePool ⟨memory, ⟨buffer, cap, chunkSize, 0⟩⟩)
  else none

/-- `poolAlloc`; its `ASSERT(false)` stops a debug build where the result is not a chunk. -/
def poolAlloc (flags : U8) (h : PoolHeap) : PoolResult × PoolHeap :=
  let node := h.pool.head
  if node = 0 then
    if flags &&& nullptrOnFail ≠ 0 then (.nullptr, h) else (.longjmp, h)
  else
    let pool := { h.pool with head := load64 h.memory node }
    let zeros := if flags &&& zeroMemory ≠ 0 then List.replicate h.pool.chunkSize.toNat 0 else []
    (.chunk node, ⟨storeBytes h.memory node zeros, pool⟩)

/-- `freePoolNode`, where a failed assertion ends the program. -/
def freePoolNode (ptr : U64) (h : PoolHeap) : Option PoolHeap :=
  if h.pool.beg ≤ ptr ∧ ptr < h.pool.beg + h.pool.cap then some (h.link ptr) else none

/-- A pool in use: `held` lists the chunks that its callers have. -/
structure PoolState where
  heap : PoolHeap
  held : List U64

/-- A call of `poolAlloc`: its caller has the chunk. -/
def PoolState.alloc (flags : U8) (s : PoolState) : PoolResult × PoolState :=
  let (result, heap) := poolAlloc flags s.heap
  match result with
  | .chunk p => (result, ⟨heap, p :: s.held⟩)
  | _ => (result, ⟨heap, s.held⟩)

/-- The results of calls of `poolAlloc`, one after the other. -/
def PoolState.allocs (s : PoolState) : List U8 → List PoolResult
  | [] => []
  | flags :: rest => (s.alloc flags).1 :: (s.alloc flags).2.allocs rest

/-- What the callers of a pool do: calls, and stores of bytes. -/
inductive PoolCall where
  | poolAlloc (flags : U8)
  | freePoolNode (ptr : U64)
  | freePool
  | store (p : U64) (data : List U8)

/-- The state after a call. -/
def PoolCall.run (s : PoolState) : PoolCall → Option PoolState
  | poolAlloc flags => some (s.alloc flags).2
  | freePoolNode ptr => (Homegrown.freePoolNode ptr s.heap).map fun heap => ⟨heap, s.held.erase ptr⟩
  | freePool => some ⟨Homegrown.freePool s.heap, []⟩
  | store p data => some ⟨⟨storeBytes s.heap.memory p data, s.heap.pool⟩, s.held⟩

/-- Callers give back and store into chunks that they have. -/
def PoolCall.Valid (s : PoolState) : PoolCall → Prop
  | poolAlloc _ | freePool => True
  | freePoolNode ptr => ptr ∈ s.held
  | store p data => ∃ q ∈ s.held, q.toNat ≤ p.toNat ∧
      p.toNat + data.length ≤ q.toNat + s.heap.pool.chunkSize.toNat

/-- The pool has no free chunk when all its chunks are freed. -/
def PoolCall.Exhausted (s : PoolState) : PoolCall → Prop
  | freePool => s.heap.pool.head = 0
  | _ => True

/-- A valid call. -/
def PoolStep (s t : PoolState) : Prop :=
  ∃ call : PoolCall, call.Valid s ∧ call.run s = some t

/-- A valid call that is not a call of `freePool` while there are free chunks. -/
def ExhaustedStep (s t : PoolState) : Prop :=
  ∃ call : PoolCall, call.Valid s ∧ call.Exhausted s ∧ call.run s = some t

/-- `cap / chunkSize`. -/
def PoolAllocator.count (pool : PoolAllocator) : Nat := pool.cap.toNat / pool.chunkSize.toNat

/-- The chunks of a pool. -/
def PoolAllocator.chunks (pool : PoolAllocator) : List U64 :=
  (List.range pool.count).map fun i => pool.chunk (BitVec.ofNat 64 i)

/-- The result is a chunk. -/
def PoolResult.IsChunk (r : PoolResult) : Prop := ∃ p, r = .chunk p

/-- A request is served while a chunk is left, with one that nobody has. -/
structure PoolState.HandsOut (s : PoolState) (flags : U8) : Prop where
  served : (s.alloc flags).1.IsChunk ↔ s.held.length < s.heap.pool.count
  fresh : ∀ p, (s.alloc flags).1 = .chunk p → p ∈ s.heap.pool.chunks ∧ p ∉ s.held

/-- After a call of `freePool` as many requests are served as there are chunks, and no more. -/
def PoolState.Refills (s : PoolState) : Prop :=
  ∀ flags i r, (PoolState.allocs ⟨freePool s.heap, []⟩ flags)[i]? = some r →
    (r.IsChunk ↔ i < s.heap.pool.count)

/-! ## The chunks -/

namespace PoolAllocator

/-- The chunks fill the memory of the pool, and each has room for a link. -/
structure WellFormed (pool : PoolAllocator) : Prop where
  beg_pos : 0 < pool.beg.toNat
  fits : pool.beg.toNat + pool.cap.toNat < 2 ^ 64
  lt_chunkSize : 8 < pool.chunkSize.toNat
  lt_cap : pool.chunkSize.toNat < pool.cap.toNat
  dvd : pool.chunkSize.toNat ∣ pool.cap.toNat
  cap_lt : pool.cap.toNat < 2 ^ 63

section Chunks

variable {pool : PoolAllocator} {p q : U64} {i j : Nat}

@[simp] theorem count_withHead (pool : PoolAllocator) (head : U64) :
    count { pool with head := head } = pool.count := by
  rw [count, count]

@[simp] theorem chunks_withHead (pool : PoolAllocator) (head : U64) :
    chunks { pool with head := head } = pool.chunks := by
  rw [chunks, count_withHead, chunks]
  rfl

/-- The chunks do not depend on the head. -/
theorem WellFormed.withHead (h : pool.WellFormed) (head : U64) :
    WellFormed { pool with head := head } := by
  cases h
  constructor <;> assumption

/-- The number of chunks is the quotient, since neither number is negative. -/
theorem WellFormed.toNat_chunkCount (h : pool.WellFormed) :
    pool.chunkCount.toNat = pool.count := by
  have hlt := h.cap_lt
  have hcap : pool.cap.msb = false := BitVec.msb_eq_false_iff_two_mul_lt.mpr (by omega)
  have hsize : pool.chunkSize.msb = false :=
    BitVec.msb_eq_false_iff_two_mul_lt.mpr (by have := h.cap_lt; have := h.lt_cap; omega)
  rw [chunkCount, BitVec.sdiv_eq, hcap, hsize, count]
  exact BitVec.toNat_udiv

theorem WellFormed.count_mul (h : pool.WellFormed) :
    pool.count * pool.chunkSize.toNat = pool.cap.toNat := Nat.div_mul_cancel h.dvd

/-- A chunk ends within the memory of the pool. -/
theorem WellFormed.chunk_le (h : pool.WellFormed) (hi : i < pool.count) :
    i * pool.chunkSize.toNat + pool.chunkSize.toNat ≤ pool.cap.toNat := by
  rw [← h.count_mul, ← Nat.succ_mul]
  exact Nat.mul_le_mul_right _ hi

/-- The address of a chunk. -/
theorem WellFormed.toNat_chunk (h : pool.WellFormed) (hi : i < pool.count) :
    (pool.chunk (BitVec.ofNat 64 i)).toNat = pool.beg.toNat + i * pool.chunkSize.toNat := by
  have hfits := h.fits
  have hle := h.chunk_le hi
  have hsize := h.lt_chunkSize
  have hi' : i ≤ i * pool.chunkSize.toNat := Nat.le_mul_of_pos_right _ (by omega)
  rw [chunk, BitVec.toNat_add, BitVec.toNat_mul, BitVec.toNat_ofNat,
    Nat.mod_eq_of_lt (a := i) (by omega), Nat.mod_eq_of_lt (a := i * _) (by omega),
    Nat.mod_eq_of_lt (by omega)]

/-- The chunks are numbered. -/
theorem mem_chunks : p ∈ pool.chunks ↔ ∃ i < pool.count, p = pool.chunk (BitVec.ofNat 64 i) := by
  simp only [chunks, List.mem_map, List.mem_range, eq_comm]

/-- What a chunk is: a place of the pool with room for its size. -/
theorem WellFormed.of_mem_chunks (h : pool.WellFormed) (hp : p ∈ pool.chunks) :
    pool.beg.toNat ≤ p.toNat ∧
      p.toNat + pool.chunkSize.toNat ≤ pool.beg.toNat + pool.cap.toNat := by
  obtain ⟨i, hi, rfl⟩ := mem_chunks.mp hp
  have hle := h.chunk_le hi
  rw [h.toNat_chunk hi]
  omega

/-- No chunk is at zero. -/
theorem WellFormed.ne_zero (h : pool.WellFormed) (hp : p ∈ pool.chunks) : p ≠ 0 := by
  rintro rfl
  have hle := (h.of_mem_chunks hp).1
  have hpos := h.beg_pos
  exact absurd hle (Nat.not_le.mpr hpos)

/-- Different chunks do not overlap. -/
theorem WellFormed.disjoint (h : pool.WellFormed) (hp : p ∈ pool.chunks) (hq : q ∈ pool.chunks)
    (hne : p ≠ q) :
    (Span.mk p.toNat pool.chunkSize.toNat).Disjoint (Span.mk q.toNat pool.chunkSize.toNat) := by
  obtain ⟨i, hi, rfl⟩ := mem_chunks.mp hp
  obtain ⟨j, hj, rfl⟩ := mem_chunks.mp hq
  have happ (k l : Nat) (hlt : k < l) :
      k * pool.chunkSize.toNat + pool.chunkSize.toNat ≤ l * pool.chunkSize.toNat := by
    rw [← Nat.succ_mul]
    exact Nat.mul_le_mul_right _ hlt
  rw [h.toNat_chunk hi, h.toNat_chunk hj]
  rcases Nat.lt_trichotomy i j with hlt | rfl | hlt
  · have hle := happ i j hlt
    exact Span.disjoint_of_stop_le (by simp only [Span.stop]; omega)
  · exact absurd rfl hne
  · have hle := happ j i hlt
    exact (Span.disjoint_of_stop_le (by simp only [Span.stop]; omega)).symm

/-- The chunks differ. -/
theorem WellFormed.nodup_chunks (h : pool.WellFormed) : pool.chunks.Nodup := by
  apply List.Nodup.map_on _ List.nodup_range
  intro i hi j hj heq
  rw [List.mem_range] at hi hj
  have hnat := congrArg BitVec.toNat heq
  rw [h.toNat_chunk hi, h.toNat_chunk hj] at hnat
  have hsize := h.lt_chunkSize
  exact Nat.eq_of_mul_eq_mul_right (by omega) (Nat.add_left_cancel hnat)

/-- What is stored into a chunk is not seen in another one. -/
theorem WellFormed.load64_storeBytes (h : pool.WellFormed) (hp : p ∈ pool.chunks)
    (hq : q ∈ pool.chunks) (hne : p ≠ q) {a : U64} {data : List U8} (m : U64 → U8)
    (hle : p.toNat ≤ a.toNat)
    (hfit : a.toNat + data.length ≤ p.toNat + pool.chunkSize.toNat) :
    load64 (storeBytes m a data) q = load64 m q := by
  have hfits := h.fits
  have hend := (h.of_mem_chunks hp).2
  have hend' := (h.of_mem_chunks hq).2
  have hsize := h.lt_chunkSize
  apply load64_storeBytes_of_disjoint (by omega) (by omega)
  intro b hb hb'
  rw [Span.mem_mk] at hb hb'
  apply h.disjoint hq hp hne.symm b
  · rw [Span.mem_mk]
    omega
  · rw [Span.mem_mk]
    omega

end Chunks

end PoolAllocator

/-! ## The list of the free chunks -/

/-- The free chunks are threaded from a pointer on. -/
def Threaded (m : U64 → U8) (head : U64) (free : List U64) : Prop :=
  Chain id (fun _ _ => True) 0 (load64 m) head (free.map fun p => (p, ()))

section Threaded

variable {m m' : U64 → U8} {head p : U64} {free : List U64}

/-- The list starts at its head, and goes on from what is stored there. -/
theorem threaded_cons :
    Threaded m head (p :: free) ↔ p = head ∧ head ≠ 0 ∧ Threaded m (load64 m head) free := by
  simp only [Threaded, List.map_cons, Chain, true_and, id]

/-- The list depends on the links of its chunks only. -/
theorem Threaded.congr (h : Threaded m head free)
    (hsame : ∀ p ∈ free, load64 m' p = load64 m p) : Threaded m' head free := by
  apply Chain.congr h
  rwa [List.map_map, Function.comp_def, List.map_id']

end Threaded

/-- The free chunks of a pool are threaded from its head, and the others are held. -/
structure PoolState.Lists (s : PoolState) (free : List U64) : Prop where
  wellFormed : s.heap.pool.WellFormed
  threaded : Threaded s.heap.memory s.heap.pool.head free
  freeList : FreeList s.heap.pool.chunks free s.held

section Calls

variable {s t : PoolState} {h : PoolHeap} {free : List U64} {p : U64} {flags : U8}

/-- A pool without free chunks serves nothing. -/
theorem poolAlloc_of_eq (hhead : h.pool.head = 0) (flags : U8) :
    ∃ r, poolAlloc flags h = (r, h) ∧ ¬ r.IsChunk := by
  unfold poolAlloc
  rw [if_pos hhead]
  split
  · exact ⟨.nullptr, rfl, by rintro ⟨p, hp⟩; cases hp⟩
  · exact ⟨.longjmp, rfl, by rintro ⟨p, hp⟩; cases hp⟩

/-- Any other pool hands out the chunk at its head. -/
theorem poolAlloc_of_ne (hhead : h.pool.head ≠ 0) (flags : U8) :
    ∃ zeros : List U8, zeros.length ≤ h.pool.chunkSize.toNat ∧ poolAlloc flags h =
      (.chunk h.pool.head, ⟨storeBytes h.memory h.pool.head zeros,
        { h.pool with head := load64 h.memory h.pool.head }⟩) := by
  unfold poolAlloc
  rw [if_neg hhead]
  refine ⟨_, ?_, rfl⟩
  split
  · rw [List.length_replicate]
  · exact Nat.zero_le _

namespace PoolState

/-- Without a free chunk none is handed out. -/
theorem Lists.alloc_nil (hs : s.Lists []) (flags : U8) :
    ¬ (s.alloc flags).1.IsChunk ∧ (s.alloc flags).2 = s := by
  obtain ⟨r, hrun, hr⟩ := poolAlloc_of_eq hs.threaded flags
  unfold alloc
  rw [hrun]
  cases r with
  | chunk p => exact absurd ⟨p, rfl⟩ hr
  | nullptr => exact ⟨hr, rfl⟩
  | longjmp => exact ⟨hr, rfl⟩

/-- What is stored into a chunk that is held is not seen in the list. -/
theorem Lists.store (hs : s.Lists free) (hp : p ∈ s.held) (a : U64) (data : List U8)
    (hle : p.toNat ≤ a.toNat)
    (hfit : a.toNat + data.length ≤ p.toNat + s.heap.pool.chunkSize.toNat) :
    Lists ⟨⟨storeBytes s.heap.memory a data, s.heap.pool⟩, s.held⟩ free := by
  refine ⟨hs.wellFormed, hs.threaded.congr fun q hq => ?_, hs.freeList⟩
  apply hs.wellFormed.load64_storeBytes (hs.freeList.mem_of_held hp) (hs.freeList.mem_of_free hq)
    _ _ hle hfit
  rintro rfl
  exact hs.freeList.notMem_free hp hq

/-- The first free chunk is handed out. -/
theorem Lists.alloc_cons (hs : s.Lists (p :: free)) (flags : U8) :
    (s.alloc flags).1 = .chunk p ∧ (s.alloc flags).2.Lists free ∧
      (s.alloc flags).2.heap.pool.count = s.heap.pool.count := by
  obtain ⟨rfl, hne, hrest⟩ := threaded_cons.mp hs.threaded
  obtain ⟨zeros, hlength, hrun⟩ := poolAlloc_of_ne hne flags
  let pool := { s.heap.pool with head := load64 s.heap.memory s.heap.pool.head }
  have hpopped : Lists ⟨⟨s.heap.memory, pool⟩, s.heap.pool.head :: s.held⟩ free :=
    ⟨hs.wellFormed.withHead _, hrest, by
      rw [PoolAllocator.chunks_withHead]
      exact hs.freeList.pop⟩
  have hstored := hpopped.store List.mem_cons_self s.heap.pool.head zeros le_rfl
    (Nat.add_le_add_left hlength _)
  have halloc : s.alloc flags = (.chunk s.heap.pool.head,
      ⟨⟨storeBytes s.heap.memory s.heap.pool.head zeros, pool⟩, s.heap.pool.head :: s.held⟩) := by
    unfold alloc
    rw [hrun]
  rw [halloc]
  exact ⟨rfl, hstored, PoolAllocator.count_withHead _ _⟩

/-- A chunk that is held is linked in front of the list. -/
theorem Lists.link (hs : s.Lists free) (hp : p ∈ s.held) :
    Lists ⟨s.heap.link p, s.held.erase p⟩ (p :: free) := by
  have hmem := hs.freeList.mem_of_held hp
  have hwf := hs.wellFormed
  have hend := (hwf.of_mem_chunks hmem).2
  have hfits := hwf.fits
  have hsize := hwf.lt_chunkSize
  have hstored := hs.store hp p (littleEndian 8 s.heap.pool.head.toNat) le_rfl
    (by rw [length_littleEndian]; omega)
  refine ⟨hwf.withHead p, ?_, hs.freeList.push hp⟩
  refine threaded_cons.mpr ⟨rfl, hwf.ne_zero hmem, ?_⟩
  change Threaded (store64 _ p _) (load64 (store64 _ p _) p) free
  rw [load64_store64_self (by omega)]
  exact hstored.threaded

end PoolState

end Calls

/-! ## Freeing all chunks -/

section FreePool

variable {h : PoolHeap} {i k : Nat}

/-- What a chunk is linked in front of: the chunk of the round before, or the head that the loop
of `freePool` finds. -/
def PoolAllocator.before (pool : PoolAllocator) : Nat → U64
  | 0 => pool.head
  | i + 1 => pool.chunk (BitVec.ofNat 64 i)

theorem PoolHeap.linkChunks_succ (h : PoolHeap) (k : Nat) :
    h.linkChunks (k + 1) =
      (h.linkChunks k).link ((h.linkChunks k).pool.chunk (BitVec.ofNat 64 k)) := by
  rw [linkChunks, List.range_succ, List.foldl_append]
  rfl

theorem PoolHeap.pool_linkChunks (h : PoolHeap) (k : Nat) :
    (h.linkChunks k).pool = { h.pool with head := h.pool.before k } := by
  induction k with
  | zero => rfl
  | succ k ih =>
    rw [linkChunks_succ, link, ih]
    rfl

/-- Every chunk links to the one before it, and the first one to the old head. -/
theorem PoolHeap.load64_linkChunks (hwf : h.pool.WellFormed) (hk : k ≤ h.pool.count) (hi : i < k) :
    load64 (h.linkChunks k).memory (h.pool.chunk (BitVec.ofNat 64 i)) = h.pool.before i := by
  have hmem (j : Nat) (hj : j < h.pool.count) : h.pool.chunk (BitVec.ofNat 64 j) ∈ h.pool.chunks :=
    PoolAllocator.mem_chunks.mpr ⟨j, hj, rfl⟩
  have hsize := hwf.lt_chunkSize
  induction k with
  | zero => exact absurd hi (Nat.not_lt_zero _)
  | succ k ih =>
    have hchunk : (h.linkChunks k).pool.chunk (BitVec.ofNat 64 k) =
        h.pool.chunk (BitVec.ofNat 64 k) := by
      rw [pool_linkChunks]
      rfl
    rw [linkChunks_succ, hchunk, link]
    dsimp only
    rcases Nat.lt_succ_iff_lt_or_eq.mp hi with hlt | rfl
    · rw [← ih (by omega) hlt]
      apply hwf.load64_storeBytes (hmem k (by omega)) (hmem i (by omega)) _ _ le_rfl
      · rw [length_littleEndian]
        omega
      · intro heq
        have hnat := congrArg BitVec.toNat heq
        rw [hwf.toNat_chunk (by omega), hwf.toNat_chunk (by omega)] at hnat
        have hki := Nat.eq_of_mul_eq_mul_right (by omega) (Nat.add_left_cancel hnat)
        omega
    · have hend := (hwf.of_mem_chunks (hmem i (by omega))).2
      have hfits := hwf.fits
      rw [load64_store64_self (by omega), pool_linkChunks]

/-- When the list was empty it has every chunk once, the last one first. -/
theorem PoolHeap.threaded_linkChunks (hwf : h.pool.WellFormed) (hhead : h.pool.head = 0)
    {m : U64 → U8} (hk : k ≤ h.pool.count)
    (hlinks : ∀ i < k, load64 m (h.pool.chunk (BitVec.ofNat 64 i)) = h.pool.before i) :
    Threaded m (h.pool.before k)
      ((List.range k).map fun i => h.pool.chunk (BitVec.ofNat 64 i)).reverse := by
  induction k with
  | zero => exact hhead
  | succ k ih =>
    rw [List.range_succ, List.map_append, List.map_singleton, List.reverse_concat]
    refine threaded_cons.mpr ⟨rfl, ?_, ?_⟩
    · exact hwf.ne_zero (PoolAllocator.mem_chunks.mpr ⟨k, hk, rfl⟩)
    · rw [PoolAllocator.before, hlinks k (Nat.lt_succ_self k)]
      exact ih (by omega) fun i hi => hlinks i (by omega)

/-- A pool without free chunks has all its chunks free after `freePool`. -/
theorem freePool_lists (hwf : h.pool.WellFormed) (hhead : h.pool.head = 0) :
    PoolState.Lists ⟨freePool h, []⟩ h.pool.chunks.reverse := by
  unfold freePool
  rw [hwf.toNat_chunkCount]
  have hpool := h.pool_linkChunks h.pool.count
  have hthreaded := PoolHeap.threaded_linkChunks hwf hhead le_rfl fun i hi =>
    PoolHeap.load64_linkChunks hwf le_rfl hi
  constructor
  · rw [hpool]
    exact hwf.withHead _
  · rw [hpool]
    exact hthreaded
  · dsimp only
    rw [hpool, PoolAllocator.chunks_withHead]
    exact FreeList.all_free hwf.nodup_chunks (List.reverse_perm _)

namespace PoolState

variable {s : PoolState} {free : List U64}

/-- Requests are served while there are free chunks. -/
theorem Lists.allocs_isChunk (hs : s.Lists free) {flags : List U8} {r : PoolResult}
    (hr : (s.allocs flags)[i]? = some r) : r.IsChunk ↔ i < free.length := by
  induction flags generalizing s free i with
  | nil => cases hr
  | cons f flags ih =>
    rw [allocs] at hr
    cases free with
    | nil =>
      obtain ⟨hnone, hsame⟩ := hs.alloc_nil f
      rw [hsame] at hr
      cases i with
      | zero =>
        rw [List.getElem?_cons_zero, Option.some.injEq] at hr
        rw [← hr]
        simp [hnone]
      | succ i =>
        rw [List.getElem?_cons_succ] at hr
        have hi := ih hs hr
        simpa using hi
    | cons p free =>
      obtain ⟨hchunk, hrest, -⟩ := hs.alloc_cons f
      cases i with
      | zero =>
        rw [List.getElem?_cons_zero, Option.some.injEq, hchunk] at hr
        rw [← hr]
        simp [PoolResult.IsChunk]
      | succ i =>
        rw [List.getElem?_cons_succ] at hr
        rw [ih hrest hr, List.length_cons, Nat.succ_lt_succ_iff]

theorem length_allocs (s : PoolState) (flags : List U8) :
    (s.allocs flags).length = flags.length := by
  induction flags generalizing s with
  | nil => rfl
  | cons f flags ih => rw [allocs, List.length_cons, ih, List.length_cons]

/-- Without `ZERO_MEMORY` a request changes the head only. -/
theorem alloc_zero (s : PoolState) (hhead : s.heap.pool.head ≠ 0) :
    s.alloc 0 = (.chunk s.heap.pool.head, ⟨⟨s.heap.memory, { s.heap.pool with
      head := load64 s.heap.memory s.heap.pool.head }⟩, s.heap.pool.head :: s.held⟩) := by
  unfold alloc poolAlloc
  rw [if_neg hhead]
  rfl

/-- When the list was not empty, a chunk in it is handed out after all chunks were. -/
theorem isChunk_of_before (hwf : h.pool.WellFormed) (hhead : h.pool.head ≠ 0)
    (hk : k ≤ h.pool.count)
    (hlinks : ∀ i < k, load64 s.heap.memory (h.pool.chunk (BitVec.ofNat 64 i)) = h.pool.before i)
    (hs : s.heap.pool.head = h.pool.before k) {r : PoolResult}
    (hr : (s.allocs (List.replicate (k + 1) 0))[k]? = some r) : r.IsChunk := by
  induction k generalizing s with
  | zero =>
    change s.heap.pool.head = h.pool.head at hs
    rw [List.replicate_succ, allocs, s.alloc_zero (hs ▸ hhead)] at hr
    exact ⟨_, (Option.some.inj hr).symm⟩
  | succ k ih =>
    change s.heap.pool.head = h.pool.chunk (BitVec.ofNat 64 k) at hs
    have hne : s.heap.pool.head ≠ 0 :=
      hs ▸ hwf.ne_zero (PoolAllocator.mem_chunks.mpr ⟨k, hk, rfl⟩)
    have hnext := s.alloc_zero hne
    rw [List.replicate_succ, allocs, List.getElem?_cons_succ] at hr
    refine ih (s := (s.alloc 0).2) (Nat.le_of_succ_le hk) (fun i hi => ?_) ?_ hr
    · rw [hnext]
      exact hlinks i (Nat.lt_succ_of_lt hi)
    · rw [hnext]
      dsimp only
      rw [hs, hlinks k (Nat.lt_succ_self k)]

/-- `freePool` makes the pool whole again exactly when it finds no free chunk. -/
theorem refills_iff (hwf : s.heap.pool.WellFormed) : s.Refills ↔ s.heap.pool.head = 0 := by
  constructor
  · intro hrefills
    by_contra hhead
    let flags : List U8 := List.replicate (s.heap.pool.count + 1) 0
    have hlength : s.heap.pool.count < (PoolState.allocs ⟨freePool s.heap, []⟩ flags).length := by
      rw [length_allocs, List.length_replicate]
      exact Nat.lt_succ_self _
    have hr := List.getElem?_eq_getElem hlength
    refine absurd ((hrefills flags _ _ hr).mp ?_) (Nat.lt_irrefl _)
    apply isChunk_of_before hwf hhead le_rfl _ _ hr
    · intro i hi
      rw [freePool, hwf.toNat_chunkCount]
      exact PoolHeap.load64_linkChunks hwf le_rfl hi
    · dsimp only
      rw [freePool, hwf.toNat_chunkCount, PoolHeap.pool_linkChunks]
  · intro hhead flags i r hr
    rw [(freePool_lists hwf hhead).allocs_isChunk hr, List.length_reverse, PoolAllocator.chunks,
      List.length_map, List.length_range]

end PoolState

end FreePool

/-! ## Runs -/

section Runs

variable {s t : PoolState} {free : List U64} {memory : U64 → U8} {buffer : U64}
  {cap chunkSize : I64} {heap : PoolHeap}

/-- There are as many chunks as fit in the buffer. -/
theorem PoolAllocator.length_chunks (pool : PoolAllocator) : pool.chunks.length = pool.count := by
  rw [chunks, List.length_map, List.length_range]

/-- What the assertions of `createPoolAllocator` check. -/
theorem wellFormed_of_create (hbuffer : buffer ≠ 0) (hfits : buffer.toNat + cap.toNat < 2 ^ 64)
    (hcreate : createPoolAllocator memory buffer cap chunkSize = some heap) :
    heap = freePool ⟨memory, ⟨buffer, cap, chunkSize, 0⟩⟩ ∧
      PoolAllocator.WellFormed ⟨buffer, cap, chunkSize, 0⟩ := by
  unfold createPoolAllocator at hcreate
  split at hcreate
  · rename_i hasserts
    obtain ⟨hcap, hcapPow, hsize, hsizePow, hlink, hlt⟩ := hasserts
    refine ⟨(Option.some.inj hcreate).symm, ?_⟩
    obtain ⟨hcapPos, hcapLt, hcapInt⟩ := of_zero_slt hcap
    obtain ⟨hsizePos, hsizeLt, hsizeInt⟩ := of_zero_slt hsize
    have hlt' : chunkSize.toNat < cap.toNat := by
      rw [BitVec.slt_iff_toInt_lt, hcapInt, hsizeInt] at hlt
      exact Int.ofNat_lt.mp hlt
    have hne {a : I64} (hpos : 0 < a.toNat) : a ≠ 0 := by
      rintro rfl
      exact Nat.lt_irrefl _ hpos
    obtain ⟨a, ha⟩ := exists_isTwoPow_of_and (hne hcapPos) hcapPow
    obtain ⟨b, hb⟩ := exists_isTwoPow_of_and (hne hsizePos) hsizePow
    exact {
      beg_pos := BitVec.toNat_pos_of_ne_zero hbuffer
      fits := hfits
      lt_chunkSize := BitVec.lt_def.mp hlink
      lt_cap := hlt'
      dvd := by
        change chunkSize.toNat ∣ cap.toNat
        rw [ha, hb] at hlt' ⊢
        exact Nat.pow_dvd_pow 2 ((Nat.pow_lt_pow_iff_right (by decide)).mp hlt').le
      cap_lt := by
        dsimp only
        omega }
  · cases hcreate

/-- A new pool lists its chunks. -/
theorem create_lists (hbuffer : buffer ≠ 0) (hfits : buffer.toNat + cap.toNat < 2 ^ 64)
    (hcreate : createPoolAllocator memory buffer cap chunkSize = some heap) :
    ∃ free, PoolState.Lists ⟨heap, []⟩ free := by
  obtain ⟨rfl, hwf⟩ := wellFormed_of_create hbuffer hfits hcreate
  exact ⟨_, freePool_lists hwf rfl⟩

/-- A valid call keeps the list, if it is not a call of `freePool` that finds free chunks. -/
theorem ExhaustedStep.lists (hstep : ExhaustedStep s t) (hs : s.Lists free) :
    ∃ free', t.Lists free' := by
  obtain ⟨call, hvalid, hexhausted, hrun⟩ := hstep
  cases call with
  | poolAlloc flags =>
    obtain rfl := Option.some.inj hrun
    cases free with
    | nil =>
      rw [(hs.alloc_nil flags).2]
      exact ⟨[], hs⟩
    | cons p free => exact ⟨free, (hs.alloc_cons flags).2.1⟩
  | freePoolNode ptr =>
    rw [PoolCall.run, freePoolNode] at hrun
    split at hrun
    · rw [Option.map_some, Option.some.injEq] at hrun
      rw [← hrun]
      exact ⟨ptr :: free, hs.link hvalid⟩
    · cases hrun
  | freePool =>
    obtain rfl := Option.some.inj hrun
    exact ⟨_, freePool_lists hs.wellFormed hexhausted⟩
  | store p data =>
    obtain rfl := Option.some.inj hrun
    obtain ⟨q, hq, hle, hfit⟩ := hvalid
    exact ⟨free, hs.store hq p data hle hfit⟩

/-- A pool hands out its free chunks. -/
theorem PoolState.Lists.handsOut (hs : s.Lists free) (flags : U8) : s.HandsOut flags := by
  have hlength := hs.freeList.length_add
  rw [PoolAllocator.length_chunks] at hlength
  cases free with
  | nil =>
    have hnone := (hs.alloc_nil flags).1
    rw [List.length_nil] at hlength
    refine ⟨⟨fun hchunk => absurd hchunk hnone, fun hlt => by omega⟩, fun p hp => ?_⟩
    exact absurd ⟨p, hp⟩ hnone
  | cons p free =>
    have hchunk := (hs.alloc_cons flags).1
    rw [List.length_cons] at hlength
    refine ⟨⟨fun _ => by omega, fun _ => ⟨p, hchunk⟩⟩, fun q hq => ?_⟩
    obtain rfl := PoolResult.chunk.inj (hchunk.symm.trans hq)
    exact ⟨hs.freeList.mem_of_free List.mem_cons_self, hs.freeList.notMem_held⟩

/-- In a run in which `freePool` is only called while no chunk is free, every request is served
with a chunk that nobody has while there is one. A call of `freePool` from there makes the pool
whole again exactly when no chunk is free. -/
theorem poolRun_handsOut_iff (hbuffer : buffer ≠ 0) (hfits : buffer.toNat + cap.toNat < 2 ^ 64)
    (hcreate : createPoolAllocator memory buffer cap chunkSize = some heap)
    (hrun : Relation.ReflTransGen ExhaustedStep ⟨heap, []⟩ s) :
    (∀ flags, s.HandsOut flags) ∧ (s.Refills ↔ s.heap.pool.head = 0) := by
  have hlists : ∃ free, s.Lists free := by
    induction hrun with
    | refl => exact create_lists hbuffer hfits hcreate
    | tail _ hstep ih =>
      obtain ⟨free, hfree⟩ := ih
      exact hstep.lists hfree
  obtain ⟨free, hs⟩ := hlists
  exact ⟨hs.handsOut, PoolState.refills_iff hs.wellFormed⟩

theorem ExhaustedStep.poolAlloc (s : PoolState) (flags : U8) :
    ExhaustedStep s (s.alloc flags).2 := ⟨.poolAlloc flags, trivial, trivial, rfl⟩

theorem ExhaustedStep.freePool (hhead : s.heap.pool.head = 0) :
    ExhaustedStep s ⟨Homegrown.freePool s.heap, []⟩ := ⟨.freePool, trivial, hhead, rfl⟩

/-- Two chunks are handed out, freed together, and one of them is handed out again. -/
theorem poolRun_handsOut_iff_two : ∃ heap s,
    createPoolAllocator (fun _ => 0) 4096 32 16 = some heap ∧
    Relation.ReflTransGen ExhaustedStep ⟨heap, []⟩ s ∧ s.held = [4112] ∧
      (∀ flags, s.HandsOut flags) ∧ (s.Refills ↔ s.heap.pool.head = 0) := by
  let heap := freePool ⟨fun _ => 0, ⟨4096, 32, 16, 0⟩⟩
  let full := (PoolState.alloc zeroMemory (PoolState.alloc 0 ⟨heap, []⟩).2).2
  let empty : PoolState := ⟨freePool full.heap, []⟩
  have hcreate : createPoolAllocator (fun _ => 0) 4096 32 16 = some heap := by
    rw [createPoolAllocator, if_pos (by decide)]
  have hexhausted : full.heap.pool.head = 0 := by decide +kernel
  have hfull : Relation.ReflTransGen ExhaustedStep ⟨heap, []⟩ full :=
    (Relation.ReflTransGen.single (.poolAlloc _ 0)).tail (.poolAlloc _ zeroMemory)
  have hrun : Relation.ReflTransGen ExhaustedStep ⟨heap, []⟩ (empty.alloc 0).2 :=
    (hfull.tail (.freePool hexhausted)).tail (.poolAlloc empty 0)
  exact ⟨heap, (empty.alloc 0).2, hcreate, hrun, by decide +kernel,
    poolRun_handsOut_iff (by decide) (by decide) hcreate hrun⟩

/-- All chunks of a new pool are freed, two are handed out, and the first of them again. -/
theorem freePool_chunk_twice : ¬ ∀ (memory : U64 → U8) (buffer : U64) (cap chunkSize : I64)
    (heap : PoolHeap) (s : PoolState), buffer ≠ 0 → buffer.toNat + cap.toNat < 2 ^ 64 →
      createPoolAllocator memory buffer cap chunkSize = some heap →
      Relation.ReflTransGen PoolStep ⟨heap, []⟩ s → (∀ flags, s.HandsOut flags) ∧ s.Refills := by
  intro hclaim
  let heap := freePool ⟨fun _ => 0, ⟨4096, 32, 16, 0⟩⟩
  let full := (PoolState.alloc 0 (PoolState.alloc 0 ⟨freePool heap, []⟩).2).2
  have hcreate : createPoolAllocator (fun _ => 0) 4096 32 16 = some heap := by
    rw [createPoolAllocator, if_pos (by decide)]
  have hrun : Relation.ReflTransGen PoolStep ⟨heap, []⟩ full :=
    ((Relation.ReflTransGen.single ⟨.freePool, trivial, rfl⟩).tail
      ⟨.poolAlloc 0, trivial, rfl⟩).tail ⟨.poolAlloc 0, trivial, rfl⟩
  have htwice : (full.alloc 0).1 = .chunk 4112 := by decide +kernel
  have hheld : 4112 ∈ full.held := by decide +kernel
  have hsafe := hclaim (fun _ => 0) 4096 32 16 heap full (by decide) (by decide) hcreate hrun
  exact ((hsafe.1 0).fresh 4112 htwice).2 hheld

end Runs

end Homegrown
