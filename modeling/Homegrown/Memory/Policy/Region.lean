import Homegrown.Core.Span
import Homegrown.Memory.Definitions

/-!
# Virtual addresses of the higher half

`getVirtualMemory` bumps the start of the higher-half region past the alignment
and the block. Its last assertion compares the wrapped difference between the
end of the region and the end of the block with the moving start of the region.
It turns down a block that overshoots the end by no more than the distance from
the start to the top of the address space, and lets every other overshoot pass.
`getVirtualMemory_fits_iff` states this for one call, `higherHalf_run_placed_iff`
for every sequence of calls.
-/

namespace Homegrown.Memory

/-- `VirtualRegion`: `limit` is the field `end` of the source. -/
structure VirtualRegion where
  start : U64
  limit : U64
  deriving DecidableEq, Repr

/-- The initial `higherHalfRegion`. -/
def higherHalfRegion : VirtualRegion := ⟨higherHalfStart, kernelSpaceStart⟩

/-- `getVirtualMemory`, on the state `higherHalfRegion`. -/
def getVirtualMemory (size : U64) (alignValue : PageSize) : EStateM Fault VirtualRegion U64 := do
  assert (size ≤ jumboPageSize)
  let region ← get
  let alignedUpValue := alignUpValue region.start alignValue.value
  assert (region.start ≤ alignedUpValue)
  assert (alignedUpValue ≤ region.limit)
  assert (region.limit - (alignedUpValue + size) < region.start)
  set { region with start := alignedUpValue + size }
  return alignedUpValue

/-- A call of `getVirtualMemory` that returned, with the region before it. -/
structure VirtualCall where
  before : VirtualRegion
  size : U64
  align : PageSize
  result : U64

namespace VirtualCall

/-- The addresses the call returned. -/
def block (c : VirtualCall) : Span := ⟨c.result.toNat, c.size.toNat⟩

/-- The block starts at a multiple of the alignment and lies in the higher half, so
in particular it does not wrap. -/
structure Placed (c : VirtualCall) : Prop where
  aligned : c.align.bytes ∣ c.result.toNat
  ge_start : higherHalfStart.toNat ≤ c.result.toNat
  le_limit : c.result.toNat + c.size.toNat ≤ kernelSpaceStart.toNat

/-- The block, placed at the next multiple of the alignment, overshoots the end of
the region by no more than the distance from its start to the top of the address
space. -/
def OvershootSeen (c : VirtualCall) : Prop :=
  roundUp c.before.start.toNat c.align.bytes + c.size.toNat + c.before.start.toNat ≤
    c.before.limit.toNat + 2 ^ 64

end VirtualCall

/-- A sequence of calls that all returned, each on the region the last one left. -/
inductive RegionRun : VirtualRegion → List VirtualCall → VirtualRegion → Prop where
  | nil (region : VirtualRegion) : RegionRun region [] region
  | cons {region next last : VirtualRegion} {size : U64} {align : PageSize} {result : U64}
      {calls : List VirtualCall} (call : getVirtualMemory size align region = .ok result next)
      (rest : RegionRun next calls last) :
      RegionRun region (⟨region, size, align, result⟩ :: calls) last

/-! ## One call -/

section Step

variable {region next : VirtualRegion} {size : U64} {align : PageSize} {result : U64}

/-- The assertions of a call hold. -/
structure VirtualRegion.Accepts (region : VirtualRegion) (size : U64) (alignValue : PageSize) :
    Prop where
  size_le : size ≤ jumboPageSize
  start_le : region.start ≤ alignUpValue region.start alignValue.value
  le_limit : alignUpValue region.start alignValue.value ≤ region.limit
  room : region.limit - (alignUpValue region.start alignValue.value + size) < region.start

/-- Where the assertions hold, the call returns. -/
theorem VirtualRegion.Accepts.returns (h : region.Accepts size align) :
    getVirtualMemory size align region = .ok (alignUpValue region.start align.value)
      { region with start := alignUpValue region.start align.value + size } := by
  simp only [getVirtualMemory, bind_eq_ok, assert_eq_ok, get_eq_ok, set_eq_ok, pure_eq_ok]
  exact ⟨(), region, ⟨h.size_le, rfl⟩, region, region, ⟨rfl, rfl⟩, (), region, ⟨h.start_le, rfl⟩,
    (), region, ⟨h.le_limit, rfl⟩, (), region, ⟨h.room, rfl⟩, PUnit.unit, _, rfl, rfl, rfl⟩

/-- Where one does not, the call stops there. -/
theorem VirtualRegion.stops_of_not_accepts (h : ¬ region.Accepts size align) :
    getVirtualMemory size align region = .error .assertion region := by
  rw [getVirtualMemory]
  by_cases hsize : size ≤ jumboPageSize
  · rw [bind_of_ok (assert_eq_ok (u := ()) |>.mpr ⟨hsize, rfl⟩), get_bind]
    by_cases hstart : region.start ≤ alignUpValue region.start align.value
    · rw [bind_of_ok (assert_eq_ok (u := ()) |>.mpr ⟨hstart, rfl⟩)]
      by_cases hlimit : alignUpValue region.start align.value ≤ region.limit
      · rw [bind_of_ok (assert_eq_ok (u := ()) |>.mpr ⟨hlimit, rfl⟩)]
        exact bind_of_error (assert_of_not (fun hroom => h ⟨hsize, hstart, hlimit, hroom⟩) _)
      · exact bind_of_error (assert_of_not hlimit _)
    · exact bind_of_error (assert_of_not hstart _)
  · exact bind_of_error (assert_of_not hsize _)

/-- What a call that returns has checked, and what it returns. -/
theorem getVirtualMemory_eq_ok (h : getVirtualMemory size align region = .ok result next) :
    size ≤ jumboPageSize ∧ region.start ≤ result ∧ result ≤ region.limit ∧
      region.limit - (result + size) < region.start ∧
      result = alignUpValue region.start align.value ∧
      next = { region with start := result + size } := by
  simp only [getVirtualMemory, bind_eq_ok, assert_eq_ok, get_eq_ok, set_eq_ok,
    pure_eq_ok] at h
  obtain ⟨_, _, ⟨hsize, rfl⟩, _, _, ⟨rfl, rfl⟩, _, _, ⟨hstart, rfl⟩, _, _, ⟨hlimit, rfl⟩, _, _,
    ⟨hroom, rfl⟩, _, _, rfl, rfl, rfl⟩ := h
  exact ⟨hsize, hstart, hlimit, hroom, rfl, rfl⟩

/-- A returned address is the region's start rounded up: the first assertion rules
out that rounding up has wrapped. -/
theorem toNat_getVirtualMemory (hpos : 0 < region.start.toNat)
    (h : getVirtualMemory size align region = .ok result next) :
    result.toNat = roundUp region.start.toNat align.bytes := by
  obtain ⟨-, hstart, -, -, hres, -⟩ := getVirtualMemory_eq_ok h
  have hpow := align.isTwoPow_value
  by_cases hw : region.start.toNat + (2 ^ align.exponent - 1) < 2 ^ 64
  · rw [hres, toNat_alignUpValue hpow hw, PageSize.toNat_value]
  · have hzero := alignUpValue_wrap hpow (not_lt.mp hw)
    rw [BitVec.le_def, hres, hzero] at hstart
    omega

/-- A call that returns has placed its block inside the region exactly when the
overshoot of the request is one the last assertion sees. -/
theorem getVirtualMemory_fits_iff (hpos : 0 < region.start.toNat)
    (h : getVirtualMemory size align region = .ok result next) :
    result.toNat + size.toNat ≤ region.limit.toNat ↔
      (VirtualCall.mk region size align result).OvershootSeen := by
  obtain ⟨hsize, hstart, hlimit, hroom, -, -⟩ := getVirtualMemory_eq_ok h
  have hsize' : size.toNat ≤ 2 ^ 39 := hsize
  have hres := toNat_getVirtualMemory hpos h
  have hsl := region.start.isLt
  have hll := region.limit.isLt
  simp only [VirtualCall.OvershootSeen, ← hres]
  rw [BitVec.le_def] at hstart hlimit
  rw [BitVec.lt_def, BitVec.toNat_sub, BitVec.toNat_add] at hroom
  omega

/-- A call whose block fits moves the start of the region to the end of the block. -/
theorem getVirtualMemory_next (h : getVirtualMemory size align region = .ok result next)
    (hfits : result.toNat + size.toNat ≤ region.limit.toNat) :
    next.limit = region.limit ∧ next.start.toNat = result.toNat + size.toNat ∧
      region.start.toNat ≤ result.toNat := by
  obtain ⟨-, hstart, -, -, -, rfl⟩ := getVirtualMemory_eq_ok h
  have hll := region.limit.isLt
  refine ⟨rfl, ?_, hstart⟩
  rw [BitVec.toNat_add, Nat.mod_eq_of_lt (by omega)]

/-- A block that fits in the region is granted. -/
theorem getVirtualMemory_of_fits (hin : higherHalfStart.toNat ≤ region.start.toNat)
    (hsize : size ≤ jumboPageSize)
    (hfits : roundUp region.start.toNat align.bytes + size.toNat ≤ region.limit.toNat) :
    ∃ result next, getVirtualMemory size align region = .ok result next ∧
      result.toNat = roundUp region.start.toNat align.bytes ∧ next.limit = region.limit ∧
      next.start.toNat = result.toNat + size.toNat := by
  have hpow := align.isTwoPow_value
  have hpos := align.bytes_pos
  have hge := le_roundUp (x := region.start.toNat) hpos
  have hlt := roundUp_lt (x := region.start.toNat) hpos
  have hll := region.limit.isLt
  have hhalf : higherHalfStart.toNat = 2 ^ 64 - 2 ^ 47 := rfl
  have hbound : region.start.toNat + (2 ^ align.exponent - 1) < 2 ^ 64 := by
    by_contra hw
    have hmul : (2 : Nat) ^ 64 = align.bytes * 2 ^ (64 - align.exponent) := by
      cases align <;> norm_num [PageSize.exponent]
    have hup : 2 ^ 64 ≤ roundUp region.start.toNat align.bytes := by
      rw [hmul, roundUp, Nat.mul_comm align.bytes]
      refine Nat.mul_le_mul_right _ ?_
      rw [Nat.le_div_iff_mul_le hpos, Nat.mul_comm, ← hmul]
      exact not_lt.mp hw
    omega
  have hres : (alignUpValue region.start align.value).toNat =
      roundUp region.start.toNat align.bytes := by
    rw [toNat_alignUpValue hpow hbound, PageSize.toNat_value]
  refine ⟨alignUpValue region.start align.value,
    { region with start := alignUpValue region.start align.value + size }, ?_, hres, rfl, ?_⟩
  · refine VirtualRegion.Accepts.returns ⟨hsize, ?_, ?_, ?_⟩
    · rw [BitVec.le_def, hres]
      exact hge
    · rw [BitVec.le_def, hres]
      omega
    · rw [BitVec.lt_def, BitVec.toNat_sub, BitVec.toNat_add, hres]
      omega
  · rw [BitVec.toNat_add, hres, Nat.mod_eq_of_lt (by omega)]

end Step

/-! ## Runs -/

/-- Every block of the run is placed in the higher half, and no two blocks share an
address. -/
structure RunPlaced (calls : List VirtualCall) : Prop where
  placed : ∀ c ∈ calls, c.Placed
  disjoint : (calls.map VirtualCall.block).Pairwise Span.Disjoint

/-- A region of the higher half that still ends where the kernel starts. -/
def VirtualRegion.InHigherHalf (region : VirtualRegion) : Prop :=
  higherHalfStart.toNat ≤ region.start.toNat ∧ region.limit = kernelSpaceStart

theorem VirtualRegion.InHigherHalf.start_pos {region : VirtualRegion}
    (h : region.InHigherHalf) : 0 < region.start.toNat :=
  lt_of_lt_of_le (by decide) h.1

/-- The step of the run: a call in the higher half is placed there exactly when its
overshoot is seen, and then the region stays in the higher half, past the block. -/
theorem VirtualRegion.InHigherHalf.step {region next : VirtualRegion} {size : U64}
    {align : PageSize} {result : U64} (hr : region.InHigherHalf)
    (h : getVirtualMemory size align region = .ok result next) :
    let c := VirtualCall.mk region size align result
    (c.Placed ↔ c.OvershootSeen) ∧
      (c.Placed → next.InHigherHalf ∧ region.start.toNat ≤ c.block.start ∧
        c.block.stop = next.start.toNat) := by
  intro c
  have hfits := getVirtualMemory_fits_iff hr.start_pos h
  rw [hr.2] at hfits
  have hres := toNat_getVirtualMemory hr.start_pos h
  have hge : region.start.toNat ≤ result.toNat := hres ▸ le_roundUp align.bytes_pos
  refine ⟨⟨fun hp => hfits.mp hp.le_limit, fun hs => ⟨?_, hr.1.trans hge, hfits.mpr hs⟩⟩, ?_⟩
  · rw [hres]
    exact dvd_roundUp
  · intro hp
    obtain ⟨hlim, hstart, -⟩ := getVirtualMemory_next h (hr.2 ▸ hp.le_limit)
    exact ⟨⟨hstart ▸ hr.1.trans (hge.trans (Nat.le_add_right _ _)), hlim.trans hr.2⟩, hge,
      hstart.symm⟩

/-- While every block is placed, all blocks lie from the region's start on. -/
theorem RegionRun.blocks_ge {region last : VirtualRegion} {calls : List VirtualCall}
    (hrun : RegionRun region calls last) (hr : region.InHigherHalf)
    (hplaced : ∀ c ∈ calls, c.Placed) :
    (∀ c ∈ calls, region.start.toNat ≤ c.block.start) ∧
      (calls.map VirtualCall.block).Pairwise Span.Disjoint := by
  induction hrun with
  | nil region => simp
  | cons call rest ih =>
    obtain ⟨hin, hge, hstop⟩ := (hr.step call).2 (hplaced _ (List.mem_cons_self ..))
    obtain ⟨hrest, hdis⟩ := ih hin fun c hc => hplaced c (List.mem_cons_of_mem _ hc)
    have hmono := hge.trans (Nat.le_add_right _ _ |>.trans_eq hstop)
    refine ⟨?_, ?_⟩
    · intro c hc
      rcases List.mem_cons.mp hc with rfl | hc
      · exact hge
      · exact hmono.trans (hrest c hc)
    · rw [List.map_cons, List.pairwise_cons]
      refine ⟨fun b hb => ?_, hdis⟩
      obtain ⟨c, hc, rfl⟩ := List.mem_map.mp hb
      exact Span.disjoint_of_stop_le (hstop.trans_le (hrest c hc))

/-- In a run, all blocks are placed exactly when no overshoot goes unseen. -/
theorem RegionRun.placed_iff {region last : VirtualRegion} {calls : List VirtualCall}
    (hrun : RegionRun region calls last) (hr : region.InHigherHalf) :
    (∀ c ∈ calls, c.Placed) ↔ ∀ c ∈ calls, c.OvershootSeen := by
  induction hrun with
  | nil region => simp
  | cons call rest ih =>
    obtain ⟨hiff, hnext⟩ := hr.step call
    simp only [List.forall_mem_cons]
    constructor
    · rintro ⟨hp, hrest⟩
      exact ⟨hiff.mp hp, (ih (hnext hp).1).mp hrest⟩
    · rintro ⟨hs, hrest⟩
      have hp := hiff.mpr hs
      exact ⟨hp, (ih (hnext hp).1).mpr hrest⟩

/-- Over any sequence of calls that pass the assertions, from the initial region,
the blocks are aligned, inside the higher half below the kernel and disjoint,
exactly when no request overshoots the region's end by more than the distance
from the region's start to the top of the address space. -/
theorem higherHalf_run_placed_iff {calls : List VirtualCall} {last : VirtualRegion}
    (hrun : RegionRun higherHalfRegion calls last) :
    RunPlaced calls ↔ ∀ c ∈ calls, c.OvershootSeen := by
  have hr : higherHalfRegion.InHigherHalf := ⟨le_rfl, rfl⟩
  rw [← hrun.placed_iff hr]
  exact ⟨RunPlaced.placed, fun hp => ⟨hp, (hrun.blocks_ge hr hp).2⟩⟩

/-- One 2 MiB page and then one 4 KiB page. -/
theorem higherHalf_run_placed_iff_two :
    RunPlaced [⟨higherHalfRegion, 0x200000, .largePage, higherHalfStart⟩,
      ⟨⟨0xffff800000200000, kernelSpaceStart⟩, 0x1000, .basePage, 0xffff800000200000⟩] ↔
    ∀ c ∈ [VirtualCall.mk higherHalfRegion 0x200000 .largePage higherHalfStart,
      ⟨⟨0xffff800000200000, kernelSpaceStart⟩, 0x1000, .basePage, 0xffff800000200000⟩],
      c.OvershootSeen :=
  higherHalf_run_placed_iff (.cons rfl (.cons rfl (.nil _)))

/-- From a start that leaves `n + 1` blocks of 512 GiB to the top of the address space,
`n` such blocks and two more calls lead to a block that wraps. -/
theorem exists_run_wrapping (n : Nat) : ∀ region : VirtualRegion,
    region.limit = kernelSpaceStart → higherHalfStart.toNat ≤ region.start.toNat →
    region.start.toNat + (n + 1) * 2 ^ 39 = 2 ^ 64 →
    ∃ calls last, RegionRun region calls last ∧ ¬ ∀ c ∈ calls, c.Placed := by
  induction n with
  | zero =>
    rintro ⟨start, limit⟩ rfl _ hstart
    obtain rfl : start = 0xffffff8000000000 := by
      apply BitVec.eq_of_toNat_eq
      simp only at hstart
      change start.toNat = 18446743523953737728
      omega
    have hfirst : getVirtualMemory 0x7ff0000000 .basePage ⟨0xffffff8000000000, kernelSpaceStart⟩ =
        .ok 0xffffff8000000000 ⟨0xfffffffff0000000, kernelSpaceStart⟩ := rfl
    have hsecond : getVirtualMemory 0x20000000 .basePage ⟨0xfffffffff0000000, kernelSpaceStart⟩ =
        .ok 0xfffffffff0000000 ⟨0x10000000, kernelSpaceStart⟩ := rfl
    refine ⟨_, _, .cons hfirst (.cons hsecond (.nil _)), fun h => ?_⟩
    have hle := (h _ (List.mem_cons_of_mem _ (List.mem_singleton_self _))).le_limit
    revert hle
    decide
  | succ n ih =>
    intro region hlimit hin hstart
    have hdvd : PageSize.basePage.bytes ∣ region.start.toNat := by
      rw [PageSize.bytes_basePage]
      omega
    have hround := roundUp_of_dvd PageSize.basePage.bytes_pos hdvd
    have hsize : jumboPageSize.toNat = 2 ^ 39 := rfl
    have hend : kernelSpaceStart.toNat = 2 ^ 64 - 2 ^ 27 := rfl
    obtain ⟨result, next, hcall, hres, hnext, hmoved⟩ :=
      @getVirtualMemory_of_fits region jumboPageSize .basePage hin (by decide) (by
        rw [hround, hlimit, hsize, hend]
        omega)
    rw [hres, hround, hsize] at hmoved
    obtain ⟨calls, last, hrun, hbad⟩ := ih next (hnext.trans hlimit) (by omega) (by omega)
    exact ⟨_, last, .cons hcall hrun, fun h => hbad fun c hc => h c (List.mem_cons_of_mem _ hc)⟩

/-- Once the region is nearly used up, a request that passes all assertions returns a
block past the start of the kernel. -/
theorem higherHalf_run_not_placed :
    ¬ ∀ (calls : List VirtualCall) (last : VirtualRegion),
      RegionRun higherHalfRegion calls last → RunPlaced calls := by
  intro h
  obtain ⟨calls, last, hrun, hbad⟩ := exists_run_wrapping 255 higherHalfRegion rfl le_rfl rfl
  exact hbad (h calls last hrun).placed

end Homegrown.Memory
