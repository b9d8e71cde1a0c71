import Homegrown.Core.Span
import Homegrown.Shared.Maths

/-!
# The arena allocator

`alloc` bumps `curFree` past the alignment padding and the block. Its capacity
test divides what is left after the padding by the element size, with an
unsigned subtraction: when fewer bytes are left than the padding needs, the
difference wraps to almost `2 ^ 64` and the test passes. `alloc_safe_iff` gives
the exact requests that are served correctly and `alloc_run_safe_iff` lifts this to
every sequence of requests: the blocks of a run are disjoint and inside the
arena exactly when no request meets the wrap.
-/

namespace Homegrown

/-- `ZERO_MEMORY`. -/
def zeroMemory : U8 := 0x01

/-- `NULLPTR_ON_FAIL`. -/
def nullptrOnFail : U8 := 0x02

/-- An arena: `limit` is the field `end` of the source. -/
structure Arena where
  /-- First byte not handed out yet. -/
  curFree : U64
  /-- First byte of the arena. -/
  beg : U64
  /-- One past the last byte. -/
  limit : U64
  deriving DecidableEq, Repr

/-- How a call of `alloc` ends. -/
inductive AllocResult where
  /-- `ASSERT((align & (align - 1)) == 0)` failed. -/
  | assertion
  /-- The null pointer was returned. -/
  | nullptr
  /-- Control went to `jmp_buf`. -/
  | longjmp
  /-- `p` was returned for `total` bytes, which `memset` cleared if `zeroed`. -/
  | block (p total : U64) (zeroed : Bool)
  deriving DecidableEq, Repr

/-- The arguments of a call of `alloc`. -/
structure AllocRequest where
  size : U64
  align : U64
  count : U64
  flags : U8
  deriving DecidableEq, Repr

/-- `alloc`; `posix` is `POSIX_ENVIRONMENT`, where memory is already zero. -/
def alloc (posix : Bool) (a : Arena) (r : AllocRequest) : AllocResult × Arena :=
  if r.align &&& (r.align - 1) ≠ 0 then (.assertion, a)
  else
    let avail := a.limit - a.curFree
    let padding := -a.curFree &&& (r.align - 1)
    if (avail - padding) / r.size < r.count then
      if r.flags &&& nullptrOnFail ≠ 0 then (.nullptr, a) else (.longjmp, a)
    else
      let total := r.size * r.count
      let p := a.curFree + padding
      (.block p total (!posix && r.flags &&& zeroMemory != 0),
        { a with curFree := a.curFree + (padding + total) })

/-- The pointers of an arena are in order. -/
structure Arena.WellFormed (a : Arena) : Prop where
  beg_le : a.beg.toNat ≤ a.curFree.toNat
  le_limit : a.curFree.toNat ≤ a.limit.toNat

/-- A request for elements of at least one byte at a power of two. -/
structure AllocRequest.Valid (r : AllocRequest) : Prop where
  size_pos : 1 ≤ r.size.toNat
  align_pow : ∃ k, IsTwoPow r.align k

/-- Bytes the request asks for. -/
def AllocRequest.bytes (r : AllocRequest) : Nat := r.size.toNat * r.count.toNat

/-- How a request that cannot be served ends. -/
def AllocRequest.failure (r : AllocRequest) : AllocResult :=
  if r.flags &&& nullptrOnFail ≠ 0 then .nullptr else .longjmp

/-- Bytes left in the arena. -/
def Arena.left (a : Arena) : Nat := a.limit.toNat - a.curFree.toNat

/-- Padding from `curFree` to the next multiple of `align`. -/
def Arena.pad (a : Arena) (align : U64) : Nat :=
  (align.toNat - a.curFree.toNat % align.toNat) % align.toNat

/-- A call with the arena before and after it. -/
structure AllocCall where
  before : Arena
  request : AllocRequest
  result : AllocResult
  after : Arena
  deriving DecidableEq, Repr

/-- The call failed the way its flags ask for, or returned an aligned block
between the old `curFree` and the end; `curFree` is still within the arena. -/
structure AllocCall.Safe (c : AllocCall) : Prop where
  outcome :
    (c.result = c.request.failure ∧ c.after = c.before) ∨
    (∃ p total zeroed, c.result = .block p total zeroed ∧ total.toNat = c.request.bytes ∧
      c.request.align.toNat ∣ p.toNat ∧ c.before.curFree.toNat ≤ p.toNat ∧
      p.toNat + c.request.bytes ≤ c.before.limit.toNat)
  le_limit : c.after.curFree.toNat ≤ c.after.limit.toNat

/-- The call does not meet the wrap of `avail - padding`: the padding fits in what
is left, or the request is for so much that it is turned down all the same. -/
def AllocCall.PaddingFits (c : AllocCall) : Prop :=
  c.before.pad c.request.align ≤ c.before.left ∨
    2 ^ 64 + c.before.left < c.before.pad c.request.align + c.request.bytes

/-- One call of `alloc`. -/
def Arena.call (posix : Bool) (a : Arena) (r : AllocRequest) : AllocCall :=
  ⟨a, r, (alloc posix a r).1, (alloc posix a r).2⟩

/-- The calls of a sequence of requests, each on the arena the last one left. -/
def Arena.run (posix : Bool) : Arena → List AllocRequest → List AllocCall
  | _, [] => []
  | a, r :: rs => a.call posix r :: Arena.run posix (a.call posix r).after rs

/-- The bytes handed out by a call. -/
def AllocCall.block? (c : AllocCall) : Option Span :=
  match c.result with
  | .block p _ _ => some ⟨p.toNat, c.request.bytes⟩
  | _ => none

/-! ## One call -/

section Step

variable {a : Arena} {r : AllocRequest}

theorem Arena.toNat_avail (ha : a.WellFormed) : (a.limit - a.curFree).toNat = a.left :=
  BitVec.toNat_sub_of_le ha.le_limit

theorem Arena.toNat_padding (hr : r.Valid) :
    (-a.curFree &&& (r.align - 1)).toNat = a.pad r.align := by
  obtain ⟨k, hk⟩ := hr.align_pow
  rw [hk.toNat_neg_and, Arena.pad, hk]

theorem Arena.pad_lt (hr : r.Valid) : a.pad r.align < 2 ^ 64 := by
  rw [← Arena.toNat_padding hr]
  exact (-a.curFree &&& (r.align - 1)).isLt

theorem Arena.left_lt : a.left < 2 ^ 64 :=
  (Nat.sub_le _ _).trans_lt a.limit.isLt

/-- The padding leads to a multiple of the alignment. -/
theorem Arena.align_dvd (hr : r.Valid) : r.align.toNat ∣ a.curFree.toNat + a.pad r.align := by
  obtain ⟨k, hk⟩ := hr.align_pow
  rw [Arena.pad, add_pad_eq_roundUp hk.pos]
  exact dvd_roundUp

/-- A power of two passes the assertion. -/
theorem AllocRequest.Valid.assert (hr : r.Valid) : r.align &&& (r.align - 1) = 0 := by
  obtain ⟨k, hk⟩ := hr.align_pow
  apply BitVec.eq_of_toNat_eq
  rw [hk.toNat_and_sub_one, hk, Nat.mod_self, BitVec.ofNat_eq_ofNat, BitVec.toNat_ofNat,
    Nat.zero_mod]

/-- The test of the source, on the difference `room` it computes. -/
theorem AllocRequest.Valid.test_iff (hr : r.Valid) (room : U64) :
    room / r.size < r.count ↔ room.toNat < r.bytes := by
  rw [BitVec.lt_def, BitVec.toNat_udiv, Nat.div_lt_iff_lt_mul hr.size_pos, AllocRequest.bytes,
    Nat.mul_comm]

/-- The difference is exact when the padding fits. -/
theorem Arena.toNat_room_of_le (ha : a.WellFormed) (hr : r.Valid)
    (h : a.pad r.align ≤ a.left) :
    (a.limit - a.curFree - (-a.curFree &&& (r.align - 1))).toNat = a.left - a.pad r.align := by
  rw [BitVec.toNat_sub_of_le, Arena.toNat_avail ha, Arena.toNat_padding hr]
  rw [BitVec.le_def, Arena.toNat_avail ha, Arena.toNat_padding hr]
  exact h

/-- The difference wraps when the padding does not fit. -/
theorem Arena.toNat_room_of_lt (ha : a.WellFormed) (hr : r.Valid)
    (h : a.left < a.pad r.align) :
    (a.limit - a.curFree - (-a.curFree &&& (r.align - 1))).toNat =
      2 ^ 64 + a.left - a.pad r.align := by
  have hp := Arena.pad_lt (a := a) hr
  rw [BitVec.toNat_sub, Arena.toNat_avail ha, Arena.toNat_padding hr, Nat.mod_eq_of_lt (by omega)]
  omega

/-- A request the test turns down leaves the arena as it was. -/
theorem Arena.alloc_refused (posix : Bool) (hr : r.Valid)
    (h : (a.limit - a.curFree - (-a.curFree &&& (r.align - 1))).toNat < r.bytes) :
    alloc posix a r = (r.failure, a) := by
  have htest := (hr.test_iff _).mpr h
  unfold alloc AllocRequest.failure
  simp only [hr.assert, ne_eq, not_true_eq_false, ite_false, htest, ite_true]
  split <;> rfl

/-- What a request that passes the test gets. -/
theorem Arena.alloc_passed (posix : Bool) (hr : r.Valid)
    (h : r.bytes ≤ (a.limit - a.curFree - (-a.curFree &&& (r.align - 1))).toNat) :
    ∃ zeroed, alloc posix a r =
      (.block (a.curFree + (-a.curFree &&& (r.align - 1))) (r.size * r.count) zeroed,
        { a with curFree := a.curFree + ((-a.curFree &&& (r.align - 1)) + r.size * r.count) }) := by
  have htest := mt (hr.test_iff _).mp (Nat.not_lt.mpr h)
  refine ⟨!posix && r.flags &&& zeroMemory != 0, ?_⟩
  unfold alloc
  simp only [hr.assert, ne_eq, not_true_eq_false, ite_false, htest]

/-- A block whose padding fits is where it should be, and moves `curFree` to its end. -/
theorem Arena.alloc_served (posix : Bool) (ha : a.WellFormed) (hr : r.Valid)
    (hpad : a.pad r.align ≤ a.left) (h : r.bytes ≤ a.left - a.pad r.align) :
    ∃ p total zeroed, alloc posix a r = (.block p total zeroed, { a with curFree := p + total }) ∧
      total.toNat = r.bytes ∧ p.toNat = a.curFree.toNat + a.pad r.align ∧
      (p + total).toNat = p.toNat + r.bytes ∧ p.toNat + r.bytes ≤ a.limit.toNat := by
  have hroom := Arena.toNat_room_of_le ha hr hpad
  obtain ⟨zeroed, hcall⟩ := Arena.alloc_passed posix hr (h.trans_eq hroom.symm)
  have hlimit := a.limit.isLt
  have hle := ha.le_limit
  have hend : a.curFree.toNat + a.pad r.align + r.bytes ≤ a.limit.toNat := by
    simp only [Arena.left] at hpad h
    omega
  have htotal : (r.size * r.count).toNat = r.bytes := by
    have hlt : r.bytes < 2 ^ 64 := by omega
    rw [BitVec.toNat_mul]
    exact Nat.mod_eq_of_lt hlt
  have hp : (a.curFree + (-a.curFree &&& (r.align - 1))).toNat =
      a.curFree.toNat + a.pad r.align := by
    rw [BitVec.toNat_add, Arena.toNat_padding hr, Nat.mod_eq_of_lt (by omega)]
  refine ⟨_, _, zeroed, ?_, htotal, hp, ?_, hp ▸ hend⟩
  · rw [hcall, BitVec.add_assoc]
  · rw [BitVec.toNat_add, hp, htotal, Nat.mod_eq_of_lt (by omega)]

/-- The three ways a call can go: turned down, served, or served past the end. -/
theorem Arena.alloc_cases (posix : Bool) (ha : a.WellFormed) (hr : r.Valid) :
    (alloc posix a r = (r.failure, a) ∧
      (a.pad r.align ≤ a.left ∨ 2 ^ 64 + a.left < a.pad r.align + r.bytes)) ∨
    (a.pad r.align ≤ a.left ∧ r.bytes ≤ a.left - a.pad r.align) ∨
    (a.left < a.pad r.align ∧ r.bytes ≤ 2 ^ 64 + a.left - a.pad r.align) := by
  have hplt := Arena.pad_lt (a := a) hr
  by_cases hpad : a.pad r.align ≤ a.left
  · by_cases hb : r.bytes ≤ a.left - a.pad r.align
    · exact Or.inr (Or.inl ⟨hpad, hb⟩)
    · refine Or.inl ⟨Arena.alloc_refused posix hr ?_, Or.inl hpad⟩
      rw [Arena.toNat_room_of_le ha hr hpad]
      omega
  · have hlt : a.left < a.pad r.align := by omega
    by_cases hb : r.bytes ≤ 2 ^ 64 + a.left - a.pad r.align
    · exact Or.inr (Or.inr ⟨hlt, hb⟩)
    · refine Or.inl ⟨Arena.alloc_refused posix hr ?_, Or.inr (by omega)⟩
      rw [Arena.toNat_room_of_lt ha hr hlt]
      omega

/-- A block whose padding does not fit lies outside what was left. -/
theorem Arena.not_safe_of_wrap (posix : Bool) (ha : a.WellFormed) (hr : r.Valid)
    (hpad : a.left < a.pad r.align)
    (h : r.bytes ≤ 2 ^ 64 + a.left - a.pad r.align) : ¬ (a.call posix r).Safe := by
  have hroom := Arena.toNat_room_of_lt ha hr hpad
  obtain ⟨zeroed, hcall⟩ := Arena.alloc_passed posix hr (h.trans_eq hroom.symm)
  intro hs
  rcases hs.outcome with ⟨hres, -⟩ | ⟨p, total, z, hres, -, -, hlow, hhigh⟩
  · simp only [Arena.call, hcall, AllocRequest.failure] at hres
    split at hres <;> cases hres
  · simp only [Arena.call, hcall, AllocResult.block.injEq] at hres hlow hhigh
    rw [← hres.1, BitVec.toNat_add, Arena.toNat_padding hr] at hlow hhigh
    have hplt := Arena.pad_lt (a := a) hr
    have hle := ha.le_limit
    have hlimit := a.limit.isLt
    -- `curFree` plus the padding is past the end, or wraps below `curFree`
    simp only [Arena.left] at hpad
    by_cases hw : a.curFree.toNat + a.pad r.align < 2 ^ 64
    · rw [Nat.mod_eq_of_lt hw] at hhigh
      omega
    · rw [Nat.mod_eq_sub_mod (by omega), Nat.mod_eq_of_lt (by omega)] at hlow
      omega

/-- A call of `alloc` is served correctly exactly when the padding fits in what is
left, or the request is turned down anyway. -/
theorem alloc_safe_iff (posix : Bool) (ha : a.WellFormed) (hr : r.Valid) :
    (a.call posix r).Safe ↔ (a.call posix r).PaddingFits := by
  rcases Arena.alloc_cases posix ha hr with ⟨hcall, hfits⟩ | ⟨hpad, hb⟩ | ⟨hpad, hb⟩
  · refine iff_of_true ⟨Or.inl ⟨?_, ?_⟩, ?_⟩ hfits
    · exact congrArg Prod.fst hcall
    · exact congrArg Prod.snd hcall
    · rw [Arena.call, hcall]
      exact ha.le_limit
  · obtain ⟨p, total, zeroed, hcall, htotal, hp, hsum, hend⟩ :=
      Arena.alloc_served posix ha hr hpad hb
    refine iff_of_true ⟨Or.inr ⟨p, total, zeroed, ?_, htotal, ?_, ?_, hend⟩, ?_⟩ (Or.inl hpad)
    · exact congrArg Prod.fst hcall
    · rw [hp]
      exact Arena.align_dvd hr
    · rw [hp]
      exact Nat.le_add_right _ _
    · rw [Arena.call, hcall]
      exact hsum ▸ hend
  · have hplt := Arena.pad_lt (a := a) hr
    refine iff_of_false (Arena.not_safe_of_wrap posix ha hr hpad hb) ?_
    simp only [AllocCall.PaddingFits, Arena.call]
    omega

/-- A call served correctly keeps the arena in order and its bounds fixed, and the
block it returns, if any, lies between the old and the new `curFree`. -/
theorem AllocCall.Safe.advance {posix : Bool} (ha : a.WellFormed) (hr : r.Valid)
    (hs : (a.call posix r).Safe) :
    (a.call posix r).after.WellFormed ∧ (a.call posix r).after.beg = a.beg ∧
      (a.call posix r).after.limit = a.limit ∧
      a.curFree.toNat ≤ (a.call posix r).after.curFree.toNat ∧
      ∀ b ∈ (a.call posix r).block?, a.curFree.toNat ≤ b.start ∧
        b.stop ≤ (a.call posix r).after.curFree.toNat := by
  rcases Arena.alloc_cases posix ha hr with ⟨hcall, -⟩ | ⟨hpad, hb⟩ | ⟨hpad, hb⟩
  · rw [Arena.call, hcall]
    refine ⟨ha, rfl, rfl, le_rfl, ?_⟩
    intro b hbm
    simp only [AllocCall.block?, AllocRequest.failure] at hbm
    split_ifs at hbm <;> cases hbm
  · obtain ⟨p, total, zeroed, hcall, htotal, hp, hsum, hend⟩ :=
      Arena.alloc_served posix ha hr hpad hb
    have hle : a.curFree.toNat ≤ p.toNat := hp ▸ Nat.le_add_right _ _
    have hmono : a.curFree.toNat ≤ (p + total).toNat := by omega
    rw [Arena.call, hcall]
    refine ⟨⟨ha.beg_le.trans hmono, hsum ▸ hend⟩, rfl, rfl, hmono, ?_⟩
    intro b hbm
    cases hbm
    exact ⟨hle, hsum.ge⟩
  · exact absurd hs (Arena.not_safe_of_wrap posix ha hr hpad hb)

end Step

/-! ## Runs -/

/-- The blocks handed out over a run, in the order of the calls. -/
def AllocCall.blocks (calls : List AllocCall) : List Span := calls.filterMap AllocCall.block?

/-- Every call of the run is served correctly, the blocks are pairwise disjoint,
and each lies within the arena. -/
structure Arena.RunSafe (a : Arena) (calls : List AllocCall) : Prop where
  calls_safe : ∀ c ∈ calls, c.Safe
  disjoint : (AllocCall.blocks calls).Pairwise Span.Disjoint
  inside : ∀ b ∈ AllocCall.blocks calls, a.beg.toNat ≤ b.start ∧ b.stop ≤ a.limit.toNat

/-- While every call is served correctly, all blocks lie from `curFree` on. -/
theorem Arena.run_blocks_ge (posix : Bool) {rs : List AllocRequest} (hrs : ∀ r ∈ rs, r.Valid) :
    ∀ {a : Arena}, a.WellFormed → (∀ c ∈ a.run posix rs, c.Safe) →
      (∀ b ∈ AllocCall.blocks (a.run posix rs),
        a.curFree.toNat ≤ b.start ∧ b.stop ≤ a.limit.toNat) ∧
      (AllocCall.blocks (a.run posix rs)).Pairwise Span.Disjoint := by
  induction rs with
  | nil => intro a _ _; simp [Arena.run, AllocCall.blocks]
  | cons r rs ih =>
    intro a ha hsafe
    have hr := hrs r (List.mem_cons_self ..)
    have hcall : (a.call posix r).Safe := hsafe _ (List.mem_cons_self ..)
    obtain ⟨hwf, -, hlim, hmono, hblock⟩ := hcall.advance ha hr
    obtain ⟨hge, hdis⟩ := ih (fun q hq => hrs q (List.mem_cons_of_mem _ hq)) hwf
      (fun c hc => hsafe c (List.mem_cons_of_mem _ hc))
    rw [hlim] at hge
    have hcur := hwf.le_limit
    rw [hlim] at hcur
    cases hb : (a.call posix r).block? with
    | none =>
      simp only [Arena.run, AllocCall.blocks, List.filterMap_cons, hb]
      exact ⟨fun b hbm => ⟨hmono.trans (hge b hbm).1, (hge b hbm).2⟩, hdis⟩
    | some b =>
      obtain ⟨hstart, hstop⟩ := hblock b hb
      simp only [Arena.run, AllocCall.blocks, List.filterMap_cons, hb]
      refine ⟨?_, List.pairwise_cons.mpr ⟨fun t ht => ?_, hdis⟩⟩
      · intro t ht
        rcases List.mem_cons.mp ht with rfl | ht
        · exact ⟨hstart, hstop.trans hcur⟩
        · exact ⟨hmono.trans (hge t ht).1, (hge t ht).2⟩
      · exact Span.disjoint_of_stop_le (hstop.trans (hge t ht).1)

/-- In a run, all calls are served correctly exactly when none of them meets the wrap. -/
theorem Arena.run_calls_safe_iff (posix : Bool) {rs : List AllocRequest}
    (hrs : ∀ r ∈ rs, r.Valid) : ∀ {a : Arena}, a.WellFormed →
      ((∀ c ∈ a.run posix rs, c.Safe) ↔ ∀ c ∈ a.run posix rs, c.PaddingFits) := by
  induction rs with
  | nil => intro a _; simp [Arena.run]
  | cons r rs ih =>
    intro a ha
    have hr := hrs r (List.mem_cons_self ..)
    have hstep := alloc_safe_iff posix ha hr
    simp only [Arena.run, List.forall_mem_cons]
    constructor
    · rintro ⟨hcall, hrest⟩
      have hwf := (hcall.advance ha hr).1
      exact ⟨hstep.mp hcall, (ih (fun q hq => hrs q (List.mem_cons_of_mem _ hq)) hwf).mp hrest⟩
    · rintro ⟨hfits, hrest⟩
      have hcall := hstep.mpr hfits
      have hwf := (hcall.advance ha hr).1
      exact ⟨hcall, (ih (fun q hq => hrs q (List.mem_cons_of_mem _ hq)) hwf).mpr hrest⟩

/-- Over any sequence of requests on an arena in order, every call is served
correctly and the blocks are disjoint and inside the arena, exactly when in no
call the alignment padding exceeds the bytes left without the request being
turned down. -/
theorem alloc_run_safe_iff (posix : Bool) {a : Arena} (ha : a.WellFormed)
    {rs : List AllocRequest} (hrs : ∀ r ∈ rs, r.Valid) :
    a.RunSafe (a.run posix rs) ↔ ∀ c ∈ a.run posix rs, c.PaddingFits := by
  rw [← Arena.run_calls_safe_iff posix hrs ha]
  constructor
  · exact Arena.RunSafe.calls_safe
  · intro hsafe
    obtain ⟨hge, hdis⟩ := Arena.run_blocks_ge posix hrs ha hsafe
    exact ⟨hsafe, hdis, fun b hb => ⟨ha.beg_le.trans (hge b hb).1, (hge b hb).2⟩⟩

/-- Three 4-byte elements and then one 16-byte element from an unaligned start. -/
theorem alloc_run_safe_iff_padded :
    (Arena.mk 1 0 64).RunSafe ((Arena.mk 1 0 64).run true [⟨4, 4, 3, 0⟩, ⟨16, 16, 1, 2⟩]) ↔
      ∀ c ∈ (Arena.mk 1 0 64).run true [⟨4, 4, 3, 0⟩, ⟨16, 16, 1, 2⟩], c.PaddingFits :=
  alloc_run_safe_iff true ⟨by decide, by decide⟩ (by
    intro r hr
    simp only [List.mem_cons, List.not_mem_nil, or_false] at hr
    rcases hr with rfl | rfl
    · exact ⟨by decide, 2, by decide⟩
    · exact ⟨by decide, 4, by decide⟩)

/-- With one byte left, a byte aligned to 16 is handed out 14 bytes past the end. -/
theorem alloc_run_unsafe :
    ¬ ∀ (posix : Bool) (a : Arena), a.WellFormed → ∀ rs : List AllocRequest,
      (∀ r ∈ rs, r.Valid) → a.RunSafe (a.run posix rs) := by
  intro h
  have hsafe := h true ⟨1, 0, 2⟩ ⟨by decide, by decide⟩ [⟨1, 16, 1, nullptrOnFail⟩] (by
    intro r hr
    rw [List.mem_singleton] at hr
    subst hr
    exact ⟨by decide, 4, by decide⟩)
  have hle := (hsafe.calls_safe _ (List.mem_singleton_self _)).le_limit
  revert hle
  decide

end Homegrown
