import Homegrown.Core.Bytes
import Homegrown.Core.Outcome
import Homegrown.Shared.Memory.Arena
import Homegrown.Shared.Text.Converter
import Mathlib.Logic.Function.Basic

/-!
# Growable arrays

`grow` and `appendToSimpleBuffer` enlarge an array out of an arena, in place where a comparison
of pointers says that the array ends there. `Owned` is the invariant that the memory of every
array was handed out to that array alone; a call that finds room, and extends nothing in place but
an array the arena really goes on from, keeps it (`grow_returns`, `PUSH_returns`, `append_returns`).
-/

namespace Homegrown.DynamicArray

/-- `DASlice`, and `U8_d_a`. -/
structure DASlice where
  buf : U64
  len : U64
  cap : U64
  deriving DecidableEq, Repr

/-- Size and alignment of the elements of an array. -/
structure ElementType where
  size : U64
  align : U64
  size_pos : 1 ≤ size.toNat
  size_lt : size.toNat < 2 ^ 63
  align_pow : ∃ k, IsTwoPow align k

/-- Why a call does not return. -/
inductive ArrayFault where
  /-- `ASSERT((align & (align - 1)) == 0)` failed. -/
  | assertion
  /-- Control went to `jmp_buf`. -/
  | longjmp
  /-- The null pointer was written to. -/
  | segmentationFault
  deriving DecidableEq, Repr

/-- Arenas, arrays and the memory they share. -/
structure ArrayState (A R : Type) where
  arenas : A → Arena
  arrays : R → DASlice
  memory : U64 → U8
  /-- The blocks the arenas handed out, each with the array it was for, if any. -/
  handed : List (Option R × Span)

namespace ArrayState

variable {A R : Type}

section Arrays

variable [DecidableEq R]

/-- The state after an array was assigned to. -/
def setArray (s : ArrayState A R) (r : R) (slice : DASlice) : ArrayState A R :=
  { s with arrays := Function.update s.arrays r slice }

variable {s : ArrayState A R} {r r' : R} {slice : DASlice}

@[simp] theorem setArray_self : (s.setArray r slice).arrays r = slice := Function.update_self ..

theorem setArray_of_ne (h : r' ≠ r) : (s.setArray r slice).arrays r' = s.arrays r' :=
  Function.update_of_ne h ..

@[simp] theorem setArray_setArray (slice' : DASlice) :
    (s.setArray r slice).setArray r slice' = s.setArray r slice' := by
  rw [setArray, setArray, setArray, Function.update_idem]

@[simp] theorem setArray_memory : (s.setArray r slice).memory = s.memory := rfl

end Arrays

section Arenas

variable [DecidableEq A]

/-- The state after a block of an arena was handed out, and memory changed. -/
def hand (s : ArrayState A R) (owner : Option R) (a : A) (after : Arena) (block : Span)
    (memory : U64 → U8) : ArrayState A R :=
  { s with
    arenas := Function.update s.arenas a after
    memory := memory
    handed := (owner, block) :: s.handed }

variable {s : ArrayState A R} {owner : Option R} {a b : A} {after : Arena} {block : Span}
  {memory : U64 → U8}

@[simp] theorem hand_self : (s.hand owner a after block memory).arenas a = after :=
  Function.update_self ..

theorem hand_of_ne (h : b ≠ a) : (s.hand owner a after block memory).arenas b = s.arenas b :=
  Function.update_of_ne h ..

@[simp] theorem hand_arrays : (s.hand owner a after block memory).arrays = s.arrays := rfl

end Arenas

end ArrayState

/-- Programs on arrays. -/
abbrev ArrayProgram (A R : Type) := EStateM ArrayFault (ArrayState A R)

section Model

variable {A R : Type} [DecidableEq A] [DecidableEq R]

/-- `alloc` on an arena, for an array or for another caller. -/
def allocFor (posix : Bool) (owner : Option R) (a : A) (request : AllocRequest) :
    ArrayProgram A R U64 := do
  let s ← get
  let call := (s.arenas a).call posix request
  match call.result with
  | .assertion => throw .assertion
  | .longjmp => throw .longjmp
  | .nullptr => return 0
  | .block p total zeroed =>
    set (s.hand owner a call.after ⟨p.toNat, total.toNat⟩
      (if zeroed then storeBytes s.memory p (List.replicate total.toNat 0) else s.memory))
    return p

/-- `memcpy` of bytes that are known. -/
def writeBytes (dest : U64) (data : List U8) : ArrayProgram A R Unit := do
  if dest = 0 ∧ data ≠ [] then
    throw .segmentationFault
  modify fun s => { s with memory := storeBytes s.memory dest data }

/-- `memcpy`. -/
def memcpy (dest src n : U64) : ArrayProgram A R Unit := do
  let s ← get
  writeBytes dest (loadBytes s.memory src n.toNat)

/-- `grow` on an array of elements of a type. -/
def grow (posix : Bool) (type : ElementType) (r : R) (a : A) (flags : U8) :
    ArrayProgram A R Unit := do
  let s ← get
  let replica := s.arrays r
  if replica.buf = 0 then
    modify fun s => s.setArray r { replica with cap := 1 }
    let buf ← allocFor posix (some r) a ⟨2 * type.size, type.align, 1, flags⟩
    modify fun s => s.setArray r { s.arrays r with buf := buf }
  else if (s.arenas a).beg = replica.buf + type.size * replica.cap then
    let _ ← allocFor posix (some r) a ⟨type.size, 1, replica.cap, flags⟩
  else
    let data ← allocFor posix (some r) a ⟨2 * type.size, type.align, replica.cap, flags⟩
    memcpy data replica.buf (type.size * replica.len)
    modify fun s => s.setArray r { s.arrays r with buf := data }
  modify fun s => s.setArray r { s.arrays r with cap := (s.arrays r).cap * 2 }

/-- `*PUSH(s, a, f) = value`. -/
def PUSH (posix : Bool) (type : ElementType) (r : R) (a : A) (flags : U8) (value : List U8) :
    ArrayProgram A R Unit := do
  let s ← get
  if (s.arrays r).cap ≤ (s.arrays r).len then
    grow posix type r a flags
  let slice := (← get).arrays r
  modify fun s => s.setArray r { slice with len := slice.len + 1 }
  writeBytes (slice.buf + type.size * slice.len) value

/-- `appendToSimpleBuffer`. -/
def appendToSimpleBuffer (posix : Bool) (data : ByteString) (r : R) (perm : A) :
    ArrayProgram A R Unit := do
  let s ← get
  let array := s.arrays r
  if array.cap < array.len + data.len then
    let newCap := (array.len + data.len) * 2
    if array.buf = 0 then
      modify fun s => s.setArray r { array with cap := data.len }
      let buf ← allocFor posix (some r) perm ⟨1, 1, newCap, 0⟩
      modify fun s => s.setArray r { s.arrays r with buf := buf }
    else if (s.arenas perm).limit = array.buf - array.cap then
      let _ ← allocFor posix (some r) perm ⟨1, 1, newCap, 0⟩
    else
      let buf ← allocFor posix (some r) perm ⟨1, 1, newCap, 0⟩
      memcpy buf array.buf array.len
      modify fun s => s.setArray r { s.arrays r with buf := buf }
    modify fun s => s.setArray r { s.arrays r with cap := newCap }
  let array := (← get).arrays r
  writeBytes (array.buf + array.len) data.buf
  modify fun s => s.setArray r { s.arrays r with len := (s.arrays r).len + data.len }

end Model

/-! ## Ownership -/

/-- The padding and the bytes fit in what is left. -/
def HasRoom (arena : Arena) (align : U64) (bytes : Nat) : Prop :=
  arena.pad align + bytes ≤ arena.left

instance (arena : Arena) (align : U64) (bytes : Nat) : Decidable (HasRoom arena align bytes) :=
  inferInstanceAs (Decidable (_ ≤ _))

/-- The bytes an arena has not handed out yet. -/
def free (arena : Arena) : Span := ⟨arena.curFree.toNat, arena.left⟩

/-- The bytes of the capacity of an array. -/
def DASlice.span (type : ElementType) (slice : DASlice) : Span :=
  ⟨slice.buf.toNat, type.size.toNat * slice.cap.toNat⟩

/-- The bytes of an array. -/
def DASlice.contents (type : ElementType) (memory : U64 → U8) (slice : DASlice) : List U8 :=
  loadBytes memory slice.buf (type.size.toNat * slice.len.toNat)

/-- An array that has nothing yet. -/
def DASlice.zero : DASlice := ⟨0, 0, 0⟩

/-- An array with a capacity, all of which was handed out to it. -/
structure Holds {R : Type} (type : ElementType) (handed : List (Option R × Span)) (r : R)
    (slice : DASlice) : Prop where
  buf_pos : 0 < slice.buf.toNat
  cap_pos : 0 < slice.cap.toNat
  len_le : slice.len.toNat ≤ slice.cap.toNat
  stop_lt : (slice.span type).stop < 2 ^ 64
  covered : ∀ x ∈ slice.span type, ∃ b ∈ handed, b.1 = some r ∧ x ∈ b.2

section Ownership

variable {A R : Type}

/-- Blocks are handed out once, outside of what the arenas have left, and every array has
nothing yet or holds its capacity. -/
structure Owned (types : R → ElementType) (s : ArrayState A R) : Prop where
  wellFormed : ∀ a, (s.arenas a).WellFormed
  curFree_pos : ∀ a, 0 < (s.arenas a).curFree.toNat
  free_disjoint : ∀ a b, a ≠ b → (free (s.arenas a)).Disjoint (free (s.arenas b))
  handed_disjoint : s.handed.Pairwise fun b c => b.2.Disjoint c.2
  handed_free : ∀ b ∈ s.handed, ∀ a, b.2.Disjoint (free (s.arenas a))
  arrays : ∀ r, s.arrays r = .zero ∨ Holds (types r) s.handed r (s.arrays r)

variable {types : R → ElementType} {s s' : ArrayState A R} {a : A} {r r' : R}

/-- Blocks that share a byte are one block. -/
theorem Owned.eq_of_mem (hs : Owned types s) {b c : Option R × Span} (hb : b ∈ s.handed)
    (hc : c ∈ s.handed) {x : Nat} (hxb : x ∈ b.2) (hxc : x ∈ c.2) : b = c := by
  by_contra hne
  have hsymm : Std.Symm fun b c : Option R × Span => b.2.Disjoint c.2 := ⟨fun _ _ h => h.symm⟩
  exact hs.handed_disjoint.forall hb hc hne x hxb hxc

/-- An array without a buffer has nothing yet. -/
theorem Owned.eq_zero (hs : Owned types s) (hbuf : (s.arrays r).buf = 0) :
    s.arrays r = .zero := by
  rcases hs.arrays r with hzero | hr
  · exact hzero
  · have hpos := hr.buf_pos
    rw [hbuf] at hpos
    exact absurd hpos (by decide)

/-- An array with a buffer holds its capacity. -/
theorem Owned.holds (hs : Owned types s) (hbuf : (s.arrays r).buf ≠ 0) :
    Holds (types r) s.handed r (s.arrays r) := by
  rcases hs.arrays r with hzero | hr
  · rw [hzero] at hbuf
    exact absurd rfl hbuf
  · exact hr

/-- What an array holds was handed out to no other caller. -/
theorem Owned.owner_eq (hs : Owned types s) (hr : Holds (types r) s.handed r (s.arrays r))
    {x : Nat} (hx : x ∈ (s.arrays r).span (types r)) {b : Option R × Span} (hb : b ∈ s.handed)
    (hxb : x ∈ b.2) : b.1 = some r := by
  obtain ⟨c, hc, howner, hxc⟩ := hr.covered x hx
  rw [hs.eq_of_mem hb hc hxb hxc, howner]

/-- Arrays share no byte. -/
theorem Owned.span_disjoint (hs : Owned types s) (hne : r ≠ r')
    (hr : Holds (types r) s.handed r (s.arrays r))
    (hr' : Holds (types r') s.handed r' (s.arrays r')) :
    ((s.arrays r).span (types r)).Disjoint ((s.arrays r').span (types r')) := by
  intro x hx hx'
  obtain ⟨b, hb, howner, hxb⟩ := hr'.covered x hx'
  have heq := hs.owner_eq hr hx hb hxb
  rw [howner, Option.some.injEq] at heq
  exact hne heq.symm

/-- An array has nothing in common with what an arena has left. -/
theorem Owned.span_free (hs : Owned types s) (hr : Holds (types r) s.handed r (s.arrays r))
    (a : A) : ((s.arrays r).span (types r)).Disjoint (free (s.arenas a)) := by
  intro x hx
  obtain ⟨b, hb, -, hxb⟩ := hr.covered x hx
  exact hs.handed_free b hb a x hxb

/-! ## Steps of a call -/

/-- A block that is about to be handed out: it lies in what its arena has left, and memory
changes there only. -/
structure Fresh (s : ArrayState A R) (a : A) (after : Arena) (block : Span)
    (memory : U64 → U8) : Prop where
  wellFormed : after.WellFormed
  low : (s.arenas a).curFree.toNat ≤ block.start
  high : block.stop = after.curFree.toNat
  limit : after.limit = (s.arenas a).limit
  same : ∀ x : U64, x.toNat ∉ block → memory x = s.memory x

variable {after : Arena} {block : Span} {memory : U64 → U8} {slice : DASlice}

theorem Fresh.block_free (h : Fresh s a after block memory) {x : Nat} (hx : x ∈ block) :
    x ∈ free (s.arenas a) := by
  have hle := h.wellFormed.le_limit
  have hlow := h.low
  have hhigh := h.high
  simp only [h.limit, Span.mem_iff, Span.stop, free, Arena.left] at *
  omega

theorem Fresh.free_subset (h : Fresh s a after block memory) {x : Nat} (hx : x ∈ free after) :
    x ∈ free (s.arenas a) ∧ x ∉ block := by
  have hlow := h.low
  have hhigh := h.high
  simp only [h.limit, Span.mem_iff, Span.stop, free, Arena.left] at *
  omega

/-- What an array has depends on its own bytes only. -/
theorem contents_congr {type : ElementType} {handed : List (Option R × Span)}
    (h : slice = .zero ∨ Holds type handed r slice) {m m' : U64 → U8}
    (hsame : ∀ x : U64, x.toNat ∈ slice.span type → m' x = m x) :
    slice.contents type m' = slice.contents type m := by
  rcases h with rfl | hr
  · rfl
  · have hle := Nat.mul_le_mul_left type.size.toNat hr.len_le
    have hstop := hr.stop_lt
    simp only [DASlice.span, Span.stop] at hstop
    apply loadBytes_congr (by omega)
    intro x hx
    apply hsame
    simp only [DASlice.span, Span.mem_mk] at hx ⊢
    omega

/-- No array sees the block that is handed out. -/
theorem Owned.contents_fresh (hs : Owned types s) (h : Fresh s a after block memory) (r : R) :
    (s.arrays r).contents (types r) memory = (s.arrays r).contents (types r) s.memory := by
  rcases hs.arrays r with hzero | hr
  · rw [hzero]
    rfl
  · exact contents_congr (Or.inr hr) fun x hx =>
      h.same x fun hblock => hs.span_free hr a _ hx (h.block_free hblock)

/-- What a call that enlarges an array leaves: the array holds its capacity, with the bytes it
had, and the other arrays are as they were. -/
structure Enlarged (types : R → ElementType) (s : ArrayState A R) (r : R)
    (s' : ArrayState A R) : Prop where
  owned : Owned types s'
  holds : Holds (types r) s'.handed r (s'.arrays r)
  len : (s'.arrays r).len = (s.arrays r).len
  contents : ∀ r', (s'.arrays r').contents (types r') s'.memory =
    (s.arrays r').contents (types r') s.memory
  others : ∀ r', r' ≠ r → s'.arrays r' = s.arrays r'

/-- What a call that appends to an array leaves: the array has the bytes it had and then the new
ones, and the other arrays are as they were. -/
structure Appended (types : R → ElementType) (s : ArrayState A R) (r : R) (data : List U8)
    (s' : ArrayState A R) : Prop where
  owned : Owned types s'
  contents : (s'.arrays r).contents (types r) s'.memory =
    (s.arrays r).contents (types r) s.memory ++ data
  others : ∀ r', r' ≠ r → s'.arrays r' = s.arrays r' ∧
    (s'.arrays r').contents (types r') s'.memory = (s.arrays r').contents (types r') s.memory

/-- Appending to an array that was enlarged. -/
theorem Enlarged.appended {s₁ s₂ : ArrayState A R} {data : List U8}
    (h : Enlarged types s r s₁) (h' : Appended types s₁ r data s₂) :
    Appended types s r data s₂ := by
  refine ⟨h'.owned, ?_, fun r' hr => ⟨?_, ?_⟩⟩
  · rw [h'.contents, h.contents]
  · rw [(h'.others r' hr).1, h.others r' hr]
  · rw [(h'.others r' hr).2, h.contents]

section Hand

variable [DecidableEq A]

/-- A block that is handed out belongs to its owner. -/
theorem Owned.hand (hs : Owned types s) (h : Fresh s a after block memory) (owner : Option R) :
    Owned types (s.hand owner a after block memory) := by
  have hfree : ∀ b : A, ∀ x ∈ free ((s.hand owner a after block memory).arenas b),
      x ∈ free (s.arenas b) ∧ x ∉ block := by
    intro b x hx
    by_cases hb : b = a
    · subst hb
      rw [ArrayState.hand_self] at hx
      exact h.free_subset hx
    · rw [ArrayState.hand_of_ne hb] at hx
      exact ⟨hx, fun hblock => hs.free_disjoint b a hb x hx (h.block_free hblock)⟩
  have hstart : ∀ b, 0 < ((s.hand owner a after block memory).arenas b).curFree.toNat ∧
      ((s.hand owner a after block memory).arenas b).WellFormed := by
    intro b
    by_cases hb : b = a
    · subst hb
      rw [ArrayState.hand_self]
      have hpos := hs.curFree_pos b
      have hlow := h.low
      have hhigh := h.high
      rw [Span.stop] at hhigh
      exact ⟨by omega, h.wellFormed⟩
    · rw [ArrayState.hand_of_ne hb]
      exact ⟨hs.curFree_pos b, hs.wellFormed b⟩
  constructor
  · exact fun b => (hstart b).2
  · exact fun b => (hstart b).1
  · exact fun b c hbc x hb hc => hs.free_disjoint b c hbc x (hfree b x hb).1 (hfree c x hc).1
  · rw [ArrayState.hand, List.pairwise_cons]
    exact ⟨fun b hb x hx hxb => hs.handed_free b hb a x hxb (h.block_free hx), hs.handed_disjoint⟩
  · intro b hb c x hxb hx
    rw [ArrayState.hand, List.mem_cons] at hb
    rcases hb with rfl | hb
    · exact (hfree c x hx).2 hxb
    · exact hs.handed_free b hb c x hxb (hfree c x hx).1
  · intro r
    refine (hs.arrays r).imp_right fun hr => { hr with covered := fun x hx => ?_ }
    obtain ⟨b, hb, hrest⟩ := hr.covered x hx
    exact ⟨b, List.mem_cons_of_mem _ hb, hrest⟩

/-- An arena with room hands out a block. -/
theorem allocFor_returns (posix : Bool) (owner : Option R) {request : AllocRequest}
    (hwf : (s.arenas a).WellFormed) (hvalid : request.Valid)
    (hroom : HasRoom (s.arenas a) request.align request.bytes) :
    ∃ p after memory, allocFor posix owner a request s =
        .ok p (s.hand owner a after ⟨p.toNat, request.bytes⟩ memory) ∧
      Fresh s a after ⟨p.toNat, request.bytes⟩ memory ∧
      p.toNat = (s.arenas a).curFree.toNat + (s.arenas a).pad request.align := by
  rw [HasRoom] at hroom
  obtain ⟨p, total, zeroed, hcall, htotal, hp, hstop, hlimit⟩ :=
    Arena.alloc_served posix hwf hvalid (by omega) (by omega)
  have hcleared : ∀ x : U64, x.toNat ∉ Span.mk p.toNat request.bytes →
      (if zeroed then storeBytes s.memory p (List.replicate total.toNat 0) else s.memory) x =
        s.memory x := by
    intro x hx
    split
    · have hlen : (List.replicate total.toNat (0 : U8)).length = request.bytes := by
        rw [List.length_replicate, htotal]
      have hlt := (s.arenas a).limit.isLt
      refine storeBytes_of_notMem (by omega) ?_
      rw [hlen]
      exact hx
    · rfl
  refine ⟨p, { s.arenas a with curFree := p + total }, _, ?_, ⟨⟨?_, ?_⟩, ?_, ?_, rfl, hcleared⟩, hp⟩
  · rw [allocFor, get_bind]
    simp only [Arena.call, hcall]
    rw [htotal]
    rfl
  · have hbeg := hwf.beg_le
    simp only
    omega
  · simp only
    omega
  · simp only
    omega
  · exact hstop.symm

/-- Handing out a block leaves the arrays alone. -/
theorem allocFor_arrays {posix : Bool} {owner : Option R} {a : A} {request : AllocRequest} {p : U64}
    (h : allocFor posix owner a request s = .ok p s') : s'.arrays = s.arrays := by
  rw [allocFor, get_bind] at h
  cases hresult : ((s.arenas a).call posix request).result with
  | block p total zeroed =>
    simp only [hresult, bind_eq_ok, set_eq_ok, pure_eq_ok] at h
    obtain ⟨_, _, rfl, _, rfl⟩ := h
    rfl
  | nullptr =>
    simp only [hresult, pure_eq_ok] at h
    rw [h.2]
  | assertion =>
    simp only [hresult, throw_eq_ok] at h
  | longjmp =>
    simp only [hresult, throw_eq_ok] at h

end Hand

section Update

variable [DecidableEq R]

/-- An array may be set to what it holds, and memory to anything. -/
theorem Owned.setArray (hs : Owned types s) (h : Holds (types r) s.handed r slice)
    (memory : U64 → U8) : Owned types ({ s with memory := memory }.setArray r slice) := by
  refine { hs with arrays := fun r' => ?_ }
  by_cases hr : r' = r
  · subst hr
    rw [ArrayState.setArray_self]
    exact Or.inr h
  · rw [ArrayState.setArray_of_ne hr]
    exact hs.arrays r'

/-- Elements that are written behind the elements of an array with room for them. -/
theorem Owned.store (hs : Owned types s) (hr : Holds (types r) s.handed r (s.arrays r))
    {k len : U64} {data : List U8} (hlen : len.toNat = (s.arrays r).len.toNat + k.toNat)
    (hcap : len.toNat ≤ (s.arrays r).cap.toNat)
    (hdata : data.length = (types r).size.toNat * k.toNat) {dest : U64}
    (hdest : dest.toNat =
      (s.arrays r).buf.toNat + (types r).size.toNat * (s.arrays r).len.toNat) :
    Appended types s r data ({ s with memory := storeBytes s.memory dest data }.setArray r
      { s.arrays r with len := len }) := by
  have hstop := hr.stop_lt
  have hle := Nat.mul_le_mul_left (types r).size.toNat hcap
  rw [hlen, Nat.mul_add, ← hdata] at hle
  simp only [DASlice.span, Span.stop] at hstop
  have hholds : Holds (types r) s.handed r { s.arrays r with len := len } :=
    { hr with len_le := hcap }
  refine ⟨hs.setArray hholds _, ?_, fun r' hne => ⟨?_, ?_⟩⟩
  · have hat : dest = (s.arrays r).buf +
        BitVec.ofNat 64 ((types r).size.toNat * (s.arrays r).len.toNat) := by
      apply BitVec.eq_of_toNat_eq
      rw [hdest, toNat_add_ofNat (by omega)]
    simp only [ArrayState.setArray_self, ArrayState.setArray_memory, DASlice.contents]
    rw [hlen, Nat.mul_add, loadBytes_add, ← hat, ← hdata,
      loadBytes_storeBytes_self (by omega)]
    congr 1
    refine loadBytes_storeBytes_of_disjoint (by omega) (by omega) fun x hx hx' => ?_
    rw [Span.mem_mk] at hx hx'
    omega
  · exact ArrayState.setArray_of_ne hne
  · rw [ArrayState.setArray_of_ne hne]
    refine contents_congr (hs.arrays r') fun x hx => storeBytes_of_notMem (by omega) ?_
    rcases hs.arrays r' with hzero | hr'
    · rw [hzero] at hx
      simp [DASlice.span, DASlice.zero, Span.mem_mk] at hx
    · intro hblock
      refine hs.span_disjoint hne hr' hr _ hx ?_
      simp only [DASlice.span, Span.mem_mk] at hblock ⊢
      omega

variable [DecidableEq A]

/-- An array moves to a block of its own. -/
theorem Owned.move (hs : Owned types s) {p : U64} (cap : U64) {n : Nat}
    (h : Fresh s a after ⟨p.toNat, n⟩ memory) (hn : n = (types r).size.toNat * cap.toNat)
    (hcap : 0 < cap.toNat) (hlen : (s.arrays r).len.toNat ≤ cap.toNat) :
    Enlarged types s r ({ s.hand (some r) a after ⟨p.toNat, n⟩ memory with
      memory := storeBytes memory p
        ((s.arrays r).contents (types r) memory) }.setArray r ⟨p, (s.arrays r).len, cap⟩) := by
  have hlow := h.low
  have hhigh := h.high
  have hpos := hs.curFree_pos a
  have hafter := after.curFree.isLt
  have hle := Nat.mul_le_mul_left (types r).size.toNat hlen
  simp only [Span.stop] at hlow hhigh
  have hholds : Holds (types r) ((some r, ⟨p.toNat, n⟩) :: s.handed) r
      ⟨p, (s.arrays r).len, cap⟩ := by
    refine ⟨hpos.trans_le hlow, hcap, hlen, ?_, fun x hx => ?_⟩
    · simp only [DASlice.span, Span.stop]
      omega
    · refine ⟨_, List.mem_cons_self .., rfl, ?_⟩
      rw [hn]
      exact hx
  have hlength : ((s.arrays r).contents (types r) memory).length =
      (types r).size.toNat * (s.arrays r).len.toNat := length_loadBytes
  have howned := hs.hand h (some r)
  refine ⟨howned.setArray hholds _, ?_, ?_, fun r' => ?_, fun r' hr => ?_⟩
  · rw [ArrayState.setArray_self]
    exact hholds
  · rw [ArrayState.setArray_self]
  · by_cases hr : r' = r
    · subst hr
      rw [ArrayState.setArray_self, ← hs.contents_fresh h, DASlice.contents]
      conv_lhs => rw [← hlength]
      exact loadBytes_storeBytes_self (by omega)
    · rw [ArrayState.setArray_of_ne hr, ← hs.contents_fresh h]
      refine contents_congr (hs.arrays r') fun x hx => storeBytes_of_notMem (by omega) ?_
      rcases hs.arrays r' with hzero | hr'
      · rw [hzero] at hx
        simp [DASlice.span, DASlice.zero, Span.mem_mk] at hx
      · intro hblock
        refine hs.span_free hr' a _ hx (h.block_free ?_)
        rw [Span.mem_mk] at hblock ⊢
        omega
  · rw [ArrayState.setArray_of_ne hr]
    rfl

/-- An array that has nothing yet gets a block. -/
theorem Owned.begin (hs : Owned types s) (hzero : s.arrays r = .zero) {p cap : U64} {n : Nat}
    {tmp : DASlice} (h : Fresh (s.setArray r tmp) a after ⟨p.toNat, n⟩ memory)
    (hn : n = (types r).size.toNat * cap.toNat) (hcap : 0 < cap.toNat) :
    Enlarged types s r (((s.setArray r tmp).hand (some r) a after ⟨p.toNat, n⟩ memory).setArray r
      ⟨p, 0, cap⟩) := by
  have hfresh : Fresh s a after ⟨p.toNat, n⟩ memory :=
    ⟨h.wellFormed, h.low, h.high, h.limit, h.same⟩
  have hmove := hs.move (r := r) cap hfresh hn hcap (by
    rw [hzero]
    exact Nat.zero_le _)
  rw [hzero] at hmove
  rw [show (s.setArray r tmp).hand (some r) a after ⟨p.toNat, n⟩ memory =
    (s.hand (some r) a after ⟨p.toNat, n⟩ memory).setArray r tmp from rfl,
    ArrayState.setArray_setArray]
  exact hmove

/-- An array goes on into a block that begins where it ends. -/
theorem Owned.extend (hs : Owned types s) (hr : Holds (types r) s.handed r (s.arrays r))
    {p : U64} (cap : U64) {n : Nat} (h : Fresh s a after ⟨p.toNat, n⟩ memory)
    (hp : ((s.arrays r).span (types r)).stop = p.toNat)
    (hn : (types r).size.toNat * cap.toNat =
      (types r).size.toNat * (s.arrays r).cap.toNat + n)
    (hle : (s.arrays r).cap.toNat ≤ cap.toNat) :
    Enlarged types s r ((s.hand (some r) a after ⟨p.toNat, n⟩ memory).setArray r
      { s.arrays r with cap := cap }) := by
  have hhigh := h.high
  have hafter := after.curFree.isLt
  simp only [DASlice.span, Span.stop] at hp hhigh
  have hholds : Holds (types r) ((some r, ⟨p.toNat, n⟩) :: s.handed) r
      { s.arrays r with cap := cap } := by
    refine ⟨hr.buf_pos, hr.cap_pos.trans_le hle, hr.len_le.trans hle, ?_, fun x hx => ?_⟩
    · simp only [DASlice.span, Span.stop]
      omega
    · by_cases hold : x ∈ (s.arrays r).span (types r)
      · obtain ⟨b, hb, hrest⟩ := hr.covered x hold
        exact ⟨b, List.mem_cons_of_mem _ hb, hrest⟩
      · refine ⟨_, List.mem_cons_self .., rfl, ?_⟩
        simp only [DASlice.span, Span.mem_mk] at hx hold ⊢
        omega
  have howned := hs.hand h (some r)
  refine ⟨howned.setArray hholds _, ?_, ?_, fun r' => ?_, fun r' hr => ?_⟩
  · rw [ArrayState.setArray_self]
    exact hholds
  · rw [ArrayState.setArray_self]
  · rw [← hs.contents_fresh h]
    by_cases hr' : r' = r
    · subst hr'
      rw [ArrayState.setArray_self]
      rfl
    · rw [ArrayState.setArray_of_ne hr']
      rfl
  · rw [ArrayState.setArray_of_ne hr]
    rfl

end Update

/-! ## Calls that return -/

section Calls

/-- Bytes that are written anywhere but at the null pointer. -/
theorem writeBytes_returns {dest : U64} (data : List U8) (h : 0 < dest.toNat) :
    writeBytes dest data s = .ok () { s with memory := storeBytes s.memory dest data } := by
  have hne : ¬ (dest = 0 ∧ data ≠ []) := by
    rintro ⟨rfl, -⟩
    exact absurd h (by decide)
  rw [writeBytes, if_neg hne]
  rfl

/-- No bytes may go anywhere. -/
theorem writeBytes_nil (dest : U64) : writeBytes dest [] s = .ok () s := by
  rw [writeBytes, if_neg fun h => h.2 rfl]
  rfl

theorem memcpy_returns {dest src n : U64} (h : 0 < dest.toNat) :
    memcpy dest src n s =
      .ok () { s with memory := storeBytes s.memory dest (loadBytes s.memory src n.toNat) } := by
  rw [memcpy, get_bind]
  exact writeBytes_returns _ h

/-- `memcpy` leaves the arrays alone. -/
theorem memcpy_arrays {dest src n : U64} (h : memcpy dest src n s = .ok () s') :
    s'.arrays = s.arrays := by
  rw [memcpy, get_bind, writeBytes] at h
  split at h
  · simp at h
  · rw [← modify_eq_ok.mp h]

variable [DecidableEq R]

/-- The element after the last one is written where there is capacity for it. -/
theorem push_returns (hs : Owned types s) {value : List U8}
    (hvalue : value.length = (types r).size.toNat)
    (hcap : (s.arrays r).len.toNat < (s.arrays r).cap.toNat) :
    ∃ s', (do
      modify fun s' => s'.setArray r { s.arrays r with len := (s.arrays r).len + 1 }
      writeBytes ((s.arrays r).buf + (types r).size * (s.arrays r).len) value :
        ArrayProgram A R Unit) s = .ok () s' ∧ Appended types s r value s' := by
  have hr : Holds (types r) s.handed r (s.arrays r) := by
    rcases hs.arrays r with hzero | hr
    · rw [hzero] at hcap
      exact absurd hcap (Nat.not_lt_zero _)
    · exact hr
  have hpos := hr.buf_pos
  have hstop := hr.stop_lt
  have hle := Nat.mul_le_mul_left (types r).size.toNat hr.len_le
  have hcapLt := (s.arrays r).cap.isLt
  simp only [DASlice.span, Span.stop] at hstop
  have hlen : ((s.arrays r).len + 1).toNat = (s.arrays r).len.toNat + (1 : U64).toNat := by
    rw [BitVec.toNat_add]
    simp only [BitVec.ofNat_eq_ofNat, BitVec.toNat_ofNat, Nat.reducePow, Nat.reduceMod]
    omega
  have hdest : ((s.arrays r).buf + (types r).size * (s.arrays r).len).toNat =
      (s.arrays r).buf.toNat + (types r).size.toNat * (s.arrays r).len.toNat := by
    rw [BitVec.toNat_add, BitVec.toNat_mul, Nat.mod_eq_of_lt (a := _ * _) (by omega),
      Nat.mod_eq_of_lt (by omega)]
  refine ⟨_, ?_, hs.store hr hlen ?_ ?_ hdest⟩
  · rw [modify_bind, writeBytes_returns value (by omega)]
    rfl
  · rw [hlen]
    exact hcap
  · rw [hvalue]
    exact (Nat.mul_one _).symm

/-- The bytes after the last one are written where there is capacity for them. -/
theorem write_returns (hs : Owned types s) (htype : (types r).size = 1) (data : ByteString)
    (hcap : (s.arrays r).len.toNat + data.buf.length ≤ (s.arrays r).cap.toNat) :
    ∃ s', (do
      let array := (← get).arrays r
      writeBytes (array.buf + array.len) data.buf
      modify fun s => s.setArray r { s.arrays r with len := (s.arrays r).len + data.len } :
        ArrayProgram A R Unit) s = .ok () s' ∧ Appended types s r data.buf s' := by
  rcases hs.arrays r with hzero | hr
  · rw [hzero] at hcap
    have hnil : data.buf = [] := by
      simpa [DASlice.zero] using hcap
    have hlen : data.len = 0 := by
      rw [ByteString.len, hnil]
      rfl
    refine ⟨s, ?_, ⟨hs, ?_, fun r' _ => ⟨rfl, rfl⟩⟩⟩
    · rw [get_bind, hnil, bind_of_ok (writeBytes_nil _)]
      apply modify_eq_ok.mpr
      rw [hlen, show (s.arrays r).len + 0 = (s.arrays r).len from BitVec.add_zero _,
        ArrayState.setArray, Function.update_eq_self]
    · rw [hnil, List.append_nil]
  · have hpos := hr.buf_pos
    have hstop := hr.stop_lt
    have hcapLt := (s.arrays r).cap.isLt
    simp only [DASlice.span, Span.stop, htype, BitVec.ofNat_eq_ofNat, BitVec.toNat_ofNat,
      Nat.reducePow, Nat.reduceMod, Nat.one_mul] at hstop
    have hlen : ((s.arrays r).len + data.len).toNat =
        (s.arrays r).len.toNat + data.len.toNat := by
      rw [BitVec.toNat_add, Nat.mod_eq_of_lt]
      rw [ByteString.toNat_len]
      omega
    have hdest : ((s.arrays r).buf + (s.arrays r).len).toNat =
        (s.arrays r).buf.toNat + (types r).size.toNat * (s.arrays r).len.toNat := by
      rw [BitVec.toNat_add, Nat.mod_eq_of_lt (by omega), htype]
      exact congrArg _ (Nat.one_mul _).symm
    refine ⟨_, ?_, hs.store hr hlen ?_ ?_ hdest⟩
    · rw [get_bind, bind_of_ok (writeBytes_returns data.buf (by omega))]
      rfl
    · rw [hlen, ByteString.toNat_len]
      exact hcap
    · rw [htype, ByteString.toNat_len]
      exact (Nat.one_mul _).symm

variable [DecidableEq A]

/-- What `grow` asks the arena for. -/
def growRequest (type : ElementType) (replica : DASlice) (arena : Arena) (flags : U8) :
    AllocRequest :=
  if replica.buf = 0 then ⟨2 * type.size, type.align, 1, flags⟩
  else if arena.beg = replica.buf + type.size * replica.cap then
    ⟨type.size, 1, replica.cap, flags⟩
  else ⟨2 * type.size, type.align, replica.cap, flags⟩

/-- The arena has room for what `grow` asks it for. -/
def GrowRoom (type : ElementType) (replica : DASlice) (arena : Arena) (flags : U8) : Prop :=
  HasRoom arena (growRequest type replica arena flags).align
    (growRequest type replica arena flags).bytes

instance (type : ElementType) (replica : DASlice) (arena : Arena) (flags : U8) :
    Decidable (GrowRoom type replica arena flags) :=
  inferInstanceAs (Decidable (HasRoom _ _ _))

/-- An array that ends where an arena begins finds the arena unused. -/
def GrowsOn (type : ElementType) (replica : DASlice) (arena : Arena) : Prop :=
  replica.buf ≠ 0 → arena.beg = replica.buf + type.size * replica.cap →
    arena.curFree = arena.beg

instance (type : ElementType) (replica : DASlice) (arena : Arena) :
    Decidable (GrowsOn type replica arena) :=
  inferInstanceAs (Decidable (_ → _ → _))

theorem ElementType.toNat_two_mul (type : ElementType) :
    (2 * type.size).toNat = 2 * type.size.toNat := by
  have hlt := type.size_lt
  rw [BitVec.toNat_mul]
  simp only [BitVec.ofNat_eq_ofNat, BitVec.toNat_ofNat, Nat.reducePow, Nat.reduceMod]
  omega

theorem ElementType.valid (type : ElementType) (count : U64) (flags : U8) :
    (AllocRequest.mk (2 * type.size) type.align count flags).Valid := by
  have hsize := type.size_pos
  have htwo := type.toNat_two_mul
  exact ⟨by simp only [htwo]; omega, type.align_pow⟩

/-- `grow` on an array that has nothing yet. -/
theorem grow_begins (posix : Bool) {flags : U8} (hs : Owned types s)
    (hbuf : (s.arrays r).buf = 0)
    (hroom : HasRoom (s.arenas a) (types r).align
      (AllocRequest.mk (2 * (types r).size) (types r).align 1 flags).bytes) :
    ∃ s', grow posix (types r) r a flags s = .ok () s' ∧ Enlarged types s r s' ∧
      (s.arrays r).cap.toNat < (s'.arrays r).cap.toNat := by
  have htwo := (types r).toNat_two_mul
  have hsize := (types r).size_pos
  have hzero := hs.eq_zero hbuf
  obtain ⟨p, after, memory, halloc, hfresh, -⟩ :=
    allocFor_returns (s := s.setArray r { s.arrays r with cap := 1 }) (a := a) posix (some r)
      (hs.wellFormed a) ((types r).valid 1 flags) hroom
  have hn : (AllocRequest.mk (2 * (types r).size) (types r).align 1 flags).bytes =
      (types r).size.toNat * (2 : U64).toNat := by
    rw [AllocRequest.bytes, htwo]
    simp only [BitVec.ofNat_eq_ofNat, BitVec.toNat_ofNat, Nat.reducePow, Nat.reduceMod]
    omega
  refine ⟨_, ?_, hs.begin hzero hfresh hn (by decide), ?_⟩
  · rw [grow, get_bind]
    simp only [if_pos hbuf]
    rw [modify_bind, bind_of_ok halloc, modify_bind]
    apply modify_eq_ok.mpr
    simp only [ArrayState.setArray_setArray, ArrayState.setArray_self, ArrayState.hand_arrays,
      hzero]
    rfl
  · rw [ArrayState.setArray_self, hzero]
    exact show 0 < (2 : U64).toNat by decide

/-- `grow` on an array that ends where its arena begins. -/
theorem grow_extends (posix : Bool) {flags : U8} (hs : Owned types s)
    (hbuf : (s.arrays r).buf ≠ 0)
    (hbeg : (s.arenas a).beg = (s.arrays r).buf + (types r).size * (s.arrays r).cap)
    (hon : (s.arenas a).curFree = (s.arenas a).beg)
    (hroom : HasRoom (s.arenas a) 1
      (AllocRequest.mk (types r).size 1 (s.arrays r).cap flags).bytes) :
    ∃ s', grow posix (types r) r a flags s = .ok () s' ∧ Enlarged types s r s' ∧
      (s.arrays r).cap.toNat < (s'.arrays r).cap.toNat := by
  have hsize := (types r).size_pos
  have hr := hs.holds hbuf
  have hcap := hr.cap_pos
  have hstop := hr.stop_lt
  simp only [DASlice.span, Span.stop] at hstop
  have hle : (s.arrays r).cap.toNat ≤ (types r).size.toNat * (s.arrays r).cap.toNat :=
    Nat.le_mul_of_pos_left _ hsize
  obtain ⟨p, after, memory, halloc, hfresh, hp⟩ :=
    allocFor_returns (s := s) (a := a) posix (some r) (hs.wellFormed a)
      (.mk hsize ⟨0, rfl⟩ : (AllocRequest.mk (types r).size 1 (s.arrays r).cap flags).Valid) hroom
  have hhigh := hfresh.high
  have hafter := after.curFree.isLt
  have hpad : (s.arenas a).pad 1 = 0 := Nat.mod_one _
  simp only [AllocRequest.bytes, Span.stop] at hhigh
  have hmul : ((types r).size * (s.arrays r).cap).toNat =
      (types r).size.toNat * (s.arrays r).cap.toNat := by
    rw [BitVec.toNat_mul, Nat.mod_eq_of_lt (by omega)]
  have hend : (s.arenas a).curFree.toNat =
      (s.arrays r).buf.toNat + (types r).size.toNat * (s.arrays r).cap.toNat := by
    rw [hon, hbeg, BitVec.toNat_add, hmul, Nat.mod_eq_of_lt hstop]
  have hdouble : ((s.arrays r).cap * 2).toNat = (s.arrays r).cap.toNat * 2 := by
    rw [BitVec.toNat_mul]
    simp only [BitVec.ofNat_eq_ofNat, BitVec.toNat_ofNat, Nat.reducePow, Nat.reduceMod]
    omega
  have hextend := hs.extend hr ((s.arrays r).cap * 2) hfresh (by
      simp only [DASlice.span, Span.stop, hp, hpad, hend, Nat.add_zero])
    (by rw [AllocRequest.bytes, hdouble]; ring) (by omega)
  refine ⟨_, ?_, hextend, ?_⟩
  · rw [grow, get_bind]
    simp only [if_neg hbuf, if_pos hbeg]
    rw [bind_of_ok halloc]
    rfl
  · rw [ArrayState.setArray_self]
    simp only
    omega

/-- `grow` on an array that is not at the begin of its arena. -/
theorem grow_moves (posix : Bool) {flags : U8} (hs : Owned types s)
    (hbuf : (s.arrays r).buf ≠ 0)
    (hbeg : (s.arenas a).beg ≠ (s.arrays r).buf + (types r).size * (s.arrays r).cap)
    (hroom : HasRoom (s.arenas a) (types r).align
      (AllocRequest.mk (2 * (types r).size) (types r).align (s.arrays r).cap flags).bytes) :
    ∃ s', grow posix (types r) r a flags s = .ok () s' ∧ Enlarged types s r s' ∧
      (s.arrays r).cap.toNat < (s'.arrays r).cap.toNat := by
  have htwo := (types r).toNat_two_mul
  have hsize := (types r).size_pos
  have hr := hs.holds hbuf
  have hcap := hr.cap_pos
  have hlen := Nat.mul_le_mul_left (types r).size.toNat hr.len_le
  have hstop := hr.stop_lt
  simp only [DASlice.span, Span.stop] at hstop
  obtain ⟨p, after, memory, halloc, hfresh, -⟩ :=
    allocFor_returns (s := s) (a := a) posix (some r) (hs.wellFormed a)
      ((types r).valid (s.arrays r).cap flags) hroom
  have hlow := hfresh.low
  have hhigh := hfresh.high
  have hafter := after.curFree.isLt
  have hpos := hs.curFree_pos a
  simp only [AllocRequest.bytes, htwo, Span.stop] at hlow hhigh
  have hle : (s.arrays r).cap.toNat * 2 ≤ 2 * (types r).size.toNat * (s.arrays r).cap.toNat := by
    nlinarith
  have hdouble : ((s.arrays r).cap * 2).toNat = (s.arrays r).cap.toNat * 2 := by
    rw [BitVec.toNat_mul]
    simp only [BitVec.ofNat_eq_ofNat, BitVec.toNat_ofNat, Nat.reducePow, Nat.reduceMod]
    omega
  have hmul : ((types r).size * (s.arrays r).len).toNat =
      (types r).size.toNat * (s.arrays r).len.toNat := by
    rw [BitVec.toNat_mul, Nat.mod_eq_of_lt (by omega)]
  have hlencap := hr.len_le
  have hmove := hs.move (r := r) ((s.arrays r).cap * 2) hfresh
    (by rw [AllocRequest.bytes, htwo, hdouble]; ring) (by omega) (by omega)
  refine ⟨_, ?_, hmove, ?_⟩
  · rw [grow, get_bind]
    simp only [if_neg hbuf, if_neg hbeg]
    rw [bind_of_ok halloc, bind_of_ok (a := ⟨⟩) (memcpy_returns (by omega)), modify_bind]
    apply modify_eq_ok.mpr
    simp only [ArrayState.setArray_setArray, ArrayState.setArray_self, hmul]
    rfl
  · rw [ArrayState.setArray_self]
    simp only
    omega

/-- With room in the arena, `grow` enlarges the array. -/
theorem grow_returns (posix : Bool) {flags : U8} (hs : Owned types s)
    (hroom : GrowRoom (types r) (s.arrays r) (s.arenas a) flags)
    (hon : GrowsOn (types r) (s.arrays r) (s.arenas a)) :
    ∃ s', grow posix (types r) r a flags s = .ok () s' ∧ Enlarged types s r s' ∧
      (s.arrays r).cap.toNat < (s'.arrays r).cap.toNat := by
  rw [GrowRoom, growRequest] at hroom
  by_cases hbuf : (s.arrays r).buf = 0
  · rw [if_pos hbuf] at hroom
    exact grow_begins posix hs hbuf hroom
  · rw [if_neg hbuf] at hroom
    by_cases hbeg : (s.arenas a).beg = (s.arrays r).buf + (types r).size * (s.arrays r).cap
    · rw [if_pos hbeg] at hroom
      exact grow_extends posix hs hbuf hbeg (hon hbuf hbeg) hroom
    · rw [if_neg hbeg] at hroom
      exact grow_moves posix hs hbuf hbeg hroom

/-- With room where it grows, `PUSH` appends the element. -/
theorem PUSH_returns (posix : Bool) {flags : U8} {value : List U8} (hs : Owned types s)
    (hvalue : value.length = (types r).size.toNat)
    (hgrow : (s.arrays r).cap ≤ (s.arrays r).len →
      GrowRoom (types r) (s.arrays r) (s.arenas a) flags ∧
        GrowsOn (types r) (s.arrays r) (s.arenas a)) :
    ∃ s', PUSH posix (types r) r a flags value s = .ok () s' ∧ Appended types s r value s' := by
  rw [PUSH, get_bind]
  by_cases hfull : (s.arrays r).cap ≤ (s.arrays r).len
  · obtain ⟨s₁, hrun, hbig, hcap⟩ := grow_returns posix hs (hgrow hfull).1 (hgrow hfull).2
    have hlen : (s₁.arrays r).len.toNat < (s₁.arrays r).cap.toNat := by
      rw [hbig.len]
      refine lt_of_le_of_lt ?_ hcap
      rcases hs.arrays r with hzero | hr
      · rw [hzero]
        exact Nat.zero_le _
      · exact hr.len_le
    obtain ⟨s₂, htail, happended⟩ := push_returns hbig.owned hvalue hlen
    refine ⟨s₂, ?_, hbig.appended happended⟩
    simp only [if_pos hfull]
    rw [bind_of_ok hrun, get_bind]
    exact htail
  · simp only [if_neg hfull]
    rw [get_bind]
    exact push_returns hs hvalue (BitVec.not_le.mp hfull)

/-- What `appendToSimpleBuffer` asks the arena for, when the new bytes do not fit. -/
def AppendRoom (array : DASlice) (data : ByteString) (perm : Arena) : Prop :=
  array.cap.toNat < array.len.toNat + data.buf.length →
    HasRoom perm 1 (2 * (array.len.toNat + data.buf.length))

instance (array : DASlice) (data : ByteString) (perm : Arena) :
    Decidable (AppendRoom array data perm) :=
  inferInstanceAs (Decidable (_ → _))

/-- The array does not take the place where the arena ends for its own. -/
def AppendsElsewhere (array : DASlice) (data : ByteString) (perm : Arena) : Prop :=
  array.cap.toNat < array.len.toNat + data.buf.length → array.buf ≠ 0 →
    perm.limit ≠ array.buf - array.cap

instance (array : DASlice) (data : ByteString) (perm : Arena) :
    Decidable (AppendsElsewhere array data perm) :=
  inferInstanceAs (Decidable (_ → _ → _))

/-- With room for twice the bytes, the numbers of `appendToSimpleBuffer` do not wrap. -/
theorem toNat_newCap {array : DASlice} {data : ByteString} {perm : Arena}
    (hroom : HasRoom perm 1 (2 * (array.len.toNat + data.buf.length))) :
    (array.len + data.len).toNat = array.len.toNat + data.buf.length ∧
      ((array.len + data.len) * 2).toNat = 2 * (array.len.toNat + data.buf.length) := by
  have hleft : perm.left < 2 ^ 64 := Arena.left_lt
  rw [HasRoom] at hroom
  have hsum : (array.len + data.len).toNat = array.len.toNat + data.buf.length := by
    rw [BitVec.toNat_add, ByteString.toNat_len, Nat.mod_eq_of_lt (by omega)]
  refine ⟨hsum, ?_⟩
  rw [BitVec.toNat_mul, hsum]
  simp only [BitVec.ofNat_eq_ofNat, BitVec.toNat_ofNat, Nat.reducePow, Nat.reduceMod]
  omega

/-- With room where the bytes do not fit, `appendToSimpleBuffer` appends them. -/
theorem append_returns (posix : Bool) {data : ByteString} (hs : Owned types s)
    (htype : (types r).size = 1) (hroom : AppendRoom (s.arrays r) data (s.arenas a))
    (helse : AppendsElsewhere (s.arrays r) data (s.arenas a)) :
    ∃ s', appendToSimpleBuffer posix data r a s = .ok () s' ∧
      Appended types s r data.buf s' := by
  rw [appendToSimpleBuffer, get_bind]
  by_cases hfit : (s.arrays r).len.toNat + data.buf.length ≤ (s.arrays r).cap.toNat
  · have hcapLt := (s.arrays r).cap.isLt
    have htest : ¬ (s.arrays r).cap < (s.arrays r).len + data.len := by
      rw [BitVec.lt_def, BitVec.toNat_add, ByteString.toNat_len, Nat.mod_eq_of_lt (by omega)]
      omega
    simp only [if_neg htest]
    exact write_returns hs htype data hfit
  · have hgrow := Nat.lt_of_not_le hfit
    replace hroom := hroom hgrow
    replace helse := helse hgrow
    obtain ⟨hsum, hnew⟩ := toNat_newCap hroom
    have htest : (s.arrays r).cap < (s.arrays r).len + data.len := by
      rw [BitVec.lt_def, hsum]
      exact hgrow
    have hbytes : (AllocRequest.mk 1 1 (((s.arrays r).len + data.len) * 2) 0).bytes =
        (types r).size.toNat * (((s.arrays r).len + data.len) * 2).toNat := by
      rw [htype]
      rfl
    have hreq : HasRoom (s.arenas a) 1
        (AllocRequest.mk 1 1 (((s.arrays r).len + data.len) * 2) 0).bytes := by
      rw [hbytes, htype, hnew]
      exact (Nat.one_mul _).symm ▸ hroom
    simp only [if_pos htest]
    by_cases hbuf : (s.arrays r).buf = 0
    · have hzero := hs.eq_zero hbuf
      obtain ⟨p, after, memory, halloc, hfresh, -⟩ :=
        allocFor_returns (s := s.setArray r { s.arrays r with cap := data.len }) (a := a) posix
          (some r) (hs.wellFormed a)
          (.mk Nat.one_pos ⟨0, rfl⟩ :
            (AllocRequest.mk 1 1 (((s.arrays r).len + data.len) * 2) 0).Valid) hreq
      have hbegin := hs.begin hzero hfresh hbytes (by omega)
      obtain ⟨s₂, htail, happended⟩ := write_returns hbegin.owned htype data (by
        rw [ArrayState.setArray_self]
        simp only [hnew]
        change 0 + data.buf.length ≤ _
        omega)
      refine ⟨s₂, ?_, hbegin.appended happended⟩
      simp only [if_pos hbuf]
      rw [modify_bind, bind_of_ok halloc, modify_bind, modify_bind]
      simp only [ArrayState.setArray_setArray, ArrayState.setArray_self, ArrayState.hand_arrays,
        hzero] at htail ⊢
      exact htail
    · have hr := hs.holds hbuf
      obtain ⟨p, after, memory, halloc, hfresh, -⟩ :=
        allocFor_returns (s := s) (a := a) posix (some r) (hs.wellFormed a)
          (.mk Nat.one_pos ⟨0, rfl⟩ :
            (AllocRequest.mk 1 1 (((s.arrays r).len + data.len) * 2) 0).Valid) hreq
      have hlow := hfresh.low
      have hpos := hs.curFree_pos a
      simp only at hlow
      have hmove := hs.move (r := r) (((s.arrays r).len + data.len) * 2) hfresh hbytes
        (by omega) (by omega)
      obtain ⟨s₂, htail, happended⟩ := write_returns hmove.owned htype data (by
        rw [ArrayState.setArray_self]
        simp only [hnew]
        omega)
      refine ⟨s₂, ?_, hmove.appended happended⟩
      simp only [if_neg hbuf, if_neg (helse hbuf)]
      rw [bind_of_ok halloc, bind_of_ok (memcpy_returns (by omega)), modify_bind, modify_bind]
      simp only [ArrayState.setArray_setArray, ArrayState.setArray_self, DASlice.contents, htype]
        at htail ⊢
      rw [show (1 : U64).toNat * (s.arrays r).len.toNat = (s.arrays r).len.toNat from
        Nat.one_mul _] at htail
      exact htail

/-- Twice a capacity is another one. -/
theorem mul_two_ne {cap : U64} (h : 0 < cap.toNat) : cap * 2 ≠ cap := by
  intro heq
  have hlt := cap.isLt
  have hcap := congrArg BitVec.toNat heq
  rw [BitVec.toNat_mul] at hcap
  simp only [BitVec.ofNat_eq_ofNat, BitVec.toNat_ofNat, Nat.reducePow, Nat.reduceMod] at hcap
  omega

/-- A `grow` that returns changes the capacity, whether it got memory or not. -/
theorem grow_changes {posix : Bool} {flags : U8} (hs : Owned types s)
    (h : grow posix (types r) r a flags s = .ok () s') :
    (s'.arrays r).cap ≠ (s.arrays r).cap := by
  rw [grow, get_bind] at h
  by_cases hbuf : (s.arrays r).buf = 0
  · simp only [if_pos hbuf, bind_eq_ok, modify_eq_ok] at h
    obtain ⟨_, _, rfl, p, s₁, halloc, _, _, rfl, rfl⟩ := h
    rw [hs.eq_zero hbuf]
    simp only [ArrayState.setArray_self, allocFor_arrays halloc]
    decide
  · have hpos := (hs.holds hbuf).cap_pos
    by_cases hbeg : (s.arenas a).beg = (s.arrays r).buf + (types r).size * (s.arrays r).cap
    · simp only [if_neg hbuf, if_pos hbeg, bind_eq_ok, modify_eq_ok] at h
      obtain ⟨p, s₁, halloc, rfl⟩ := h
      simp only [ArrayState.setArray_self, allocFor_arrays halloc]
      exact mul_two_ne hpos
    · simp only [if_neg hbuf, if_neg hbeg, bind_eq_ok, modify_eq_ok] at h
      obtain ⟨p, s₁, halloc, _, s₂, hcopy, _, _, rfl, rfl⟩ := h
      simp only [ArrayState.setArray_self, memcpy_arrays hcopy, allocFor_arrays halloc]
      exact mul_two_ne hpos

end Calls

end Ownership

end Homegrown.DynamicArray
