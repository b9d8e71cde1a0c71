import Homegrown.Memory.Virtual.RoundTrip

/-!
# Mapping stops for want of frames only

The mapper fails where its allocator does, and at its assertions. With a level-4 table and aligned
addresses the assertions hold, so that it returns or faults as the allocator may, whatever the
tables hold.
-/

namespace Homegrown.Memory

section Ends

variable {σ : Type} {allocate4KiBPage : U64 → EStateM Fault σ U64} {clean inv : σ → Prop}
  {allowed : Fault → Prop} {root : U64}

/-- The allocator is as it has to be, and the level-4 table is this one. -/
def Rooted (inv : σ → Prop) (root : U64) (s : Paging σ) : Prop :=
  inv s.allocator ∧ s.level4PageTable = root

/-- The allocator of the paging is in a clean state. -/
def CleanPaging (clean : σ → Prop) (s : Paging σ) : Prop := clean s.allocator

/-- Words are written and read beside the allocator. -/
theorem endsClean_words {α : Type} {x : Pager σ α}
    (h : ∀ s, ∃ a words, x s = .ok a { s with words }) :
    EndsClean (CleanPaging clean) (Rooted inv root) x allowed fun _ => Rooted inv root := by
  refine ⟨fun s hs _ => ?_, fun s hs => ?_⟩
  · obtain ⟨a, words, hrun⟩ := h s
    exact .of_ok hrun hs
  · obtain ⟨a, words, hrun⟩ := h s
    rw [hrun]
    exact hs

variable (hall : EndsClean clean inv (allocate4KiBPage 1) allowed fun _ => inv)

include hall

/-- A frame for a table is cleared. -/
theorem endsClean_getZeroBasePage :
    EndsClean (CleanPaging clean) (Rooted inv root) (getZeroBasePage allocate4KiBPage) allowed
      fun _ => Rooted inv root := by
  refine .bind (hall.zoom (fun _ _ => rfl) (fun _ h => h.1) fun _ _ _ h ht => ⟨ht, h.2⟩)
    fun page => .bind (endsClean_words fun s => ⟨⟨⟩, _, rfl⟩) fun _ => .pure fun _ h => h

/-- The inner loop ends, whatever the tables hold. -/
theorem endsClean_mapPage (virt value : U64) (left : Nat) (pageSize table : U64) :
    EndsClean (CleanPaging clean) (Rooted inv root)
      (mapPage allocate4KiBPage virt value left pageSize table) allowed
      fun _ => Rooted inv root := by
  have hread (address : U64) : EndsClean (CleanPaging clean) (Rooted inv root)
      (readWord address) allowed fun _ => Rooted inv root :=
    endsClean_words fun s => ⟨_, s.words, rfl⟩
  have hwrite (address value : U64) : EndsClean (CleanPaging clean) (Rooted inv root)
      (writeWord address value) allowed fun _ => Rooted inv root :=
    endsClean_words fun s => ⟨⟨⟩, _, rfl⟩
  induction left generalizing pageSize table with
  | zero => exact .pure fun _ h => h
  | succ left ih =>
    rw [mapPage]
    split
    · exact (hwrite _ _).bind fun _ => (hread _).bind fun _ => ih _ _
    · refine (hread _).bind fun word => ?_
      split
      · exact (endsClean_getZeroBasePage hall).bind fun page => (hwrite _ _).bind fun _ =>
          (hread _).bind fun _ => ih _ _
      · exact (hread _).bind fun _ => ih _ _

/-- So does the outer loop. -/
theorem endsClean_mapPages (pageType : PageSize) (flags virtualEnd : U64) (steps : Nat)
    (virt physical : U64) :
    EndsClean (CleanPaging clean) (Rooted inv root)
      (mapPages allocate4KiBPage pageType flags virtualEnd steps virt physical) allowed
      fun _ => Rooted inv root := by
  induction steps generalizing virt physical with
  | zero => exact .pure fun _ h => h
  | succ steps ih =>
    rw [mapPages]
    split
    · exact (EndsClean.get fun _ h => h).bind fun _ => (endsClean_mapPage hall _ _ _ _ _).bind
        fun _ => ih _ _
    · exact .pure fun _ h => h

omit hall

/-- What a call asserts. -/
structure Mappable (root virt : U64) (memory : PagedMemory) (pageType : PageSize) : Prop where
  root_ne_zero : root ≠ 0
  canonical : Canonical virt.toNat
  virt_aligned : pageType.bytes ∣ virt.toNat
  physical_aligned : pageType.bytes ∣ memory.pageStart.toNat

include hall

/-- A call that may be made ends as its allocator lets it, and any other may stop at an assertion
besides. -/
theorem endsClean_mapVirtualRegion {virt : U64} {memory : PagedMemory} {pageType : PageSize}
    (h : Mappable root virt memory pageType ∨ allowed .assertion) :
    EndsClean (CleanPaging clean) (Rooted inv root)
      (mapVirtualRegion allocate4KiBPage virt memory pageType) allowed
      fun _ => Rooted inv root := by
  have hring {x : U64} (hx : pageType.bytes ∣ x.toNat) :
      ringRangeValue x pageType.value = 0 := by
    apply BitVec.eq_of_toNat_eq
    rw [toNat_ringRangeValue pageType.isTwoPow_value, PageSize.toNat_value]
    exact Nat.mod_eq_zero_of_dvd hx
  have hhalf (hcanonical : Canonical virt.toNat) : virt >>> 48 = 0 ∨ virt >>> 48 = 0xFFFF := by
    have hlt := virt.isLt
    rcases hcanonical with hlow | hhigh
    · left
      apply BitVec.eq_of_toNat_eq
      rw [BitVec.toNat_ushiftRight, Nat.shiftRight_eq_div_pow]
      exact Nat.div_eq_of_lt (by omega)
    · right
      apply BitVec.eq_of_toNat_eq
      rw [BitVec.toNat_ushiftRight, Nat.shiftRight_eq_div_pow]
      change virt.toNat / 2 ^ 48 = 0xFFFF
      omega
  rw [mapVirtualRegion, mapVirtualRegionWithFlags]
  refine (EndsClean.get (q := fun t s => Rooted inv root s ∧ t.level4PageTable = root)
    fun s h => ⟨h, h.2⟩).bind fun t => ?_
  refine (endsClean_assert fun s hs => h.imp_left fun h => hs.2 ▸ h.root_ne_zero).bind fun _ => ?_
  refine EndsClean.weaken (p := Rooted inv root) (q := fun _ => Rooted inv root) ?_
    (fun _ h => h.1) fun _ _ h => h
  exact (endsClean_assert fun _ _ => h.imp_left fun h => hhalf h.canonical).bind fun _ =>
    (endsClean_assert fun _ _ => h.imp_left fun h => hring h.virt_aligned).bind fun _ =>
    (endsClean_assert fun _ _ => h.imp_left fun h => hring h.physical_aligned).bind fun _ =>
    endsClean_mapPages hall _ _ _ _ _ _

end Ends

end Homegrown.Memory
