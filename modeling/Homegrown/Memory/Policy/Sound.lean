import Homegrown.Memory.Physical.Exchange
import Homegrown.Memory.Policy.Release

/-!
# Mapped memory without overlaps

The page tables hold a tree, and the frames of its tables are in hand beside what callers hold.
Nothing is mapped yet in what is left of the higher half. The frames that `allocate4KiBPage`
hands out for new tables are then none of those in use, which is what the mapper relies on.
-/

namespace Homegrown.Memory

open Radix

/-! ## Addresses at which nothing is mapped -/

section Unmapped

variable {x : U64} {depth j : Nat} {p : List (BitVec 9)} {c : MapCall}
  {r : Radix (BitVec 9) U64 U64}

/-- A path that goes on below the one of a page is the path of an address in the page. -/
theorem exists_path_of_suffix (h : path x depth <:+ p) (hlen : p.length ≤ 4) :
    ∃ y : U64, path y p.length = p ∧
      y.toNat / 2 ^ (48 - 9 * depth) = x.toNat / 2 ^ (48 - 9 * depth) := by
  obtain ⟨l, rfl⟩ := h
  induction l with
  | nil => exact ⟨x, by rw [List.nil_append, length_path], rfl⟩
  | cons i l ih =>
    rw [List.cons_append, List.length_cons] at hlen ⊢
    obtain ⟨y, hy, hdiv⟩ := ih (by omega)
    have hdepth : depth ≤ (l ++ path x depth).length := by
      rw [List.length_append, length_path]
      exact Nat.le_add_left _ _
    generalize l ++ path x depth = q at *
    generalize q.length = level at *
    have hlevel : level < 4 := by omega
    have hi := i.isLt
    have hylt := y.isLt
    -- The address of the path above, with the index put in its place.
    have hbelow : y.toNat / 2 ^ (48 - 9 * level) * 2 ^ (48 - 9 * level) +
        i.toNat * 2 ^ (39 - 9 * level) < 2 ^ 64 := by
      interval_cases level <;> omega
    obtain ⟨z, hz⟩ : ∃ z : U64, z.toNat = y.toNat / 2 ^ (48 - 9 * level) * 2 ^ (48 - 9 * level) +
        i.toNat * 2 ^ (39 - 9 * level) := ⟨BitVec.ofNat 64 _, by
      rw [BitVec.toNat_ofNat, Nat.mod_eq_of_lt hbelow]⟩
    have hindex : levelIndex z level = i := by
      apply BitVec.eq_of_toNat_eq
      rw [toNat_levelIndex, hz]
      interval_cases level <;> omega
    have habove : path z level = q := by
      rw [← hy, path_eq_iff hlevel.le, hz]
      interval_cases level <;> omega
    refine ⟨z, by rw [path, hindex, habove], ?_⟩
    rw [← hdiv, hz]
    interval_cases level <;> interval_cases depth <;> omega

/-- The size of a page is what its path covers. -/
theorem two_pow_pageSizeToDepth (s : PageSize) :
    2 ^ (48 - 9 * pageSizeToDepth s) = s.bytes := by
  cases s <;> rfl

/-- A page at none of whose addresses anything is mapped is apart from all that is mapped. -/
theorem apart_of_unmapped (hc : c.Valid) (hj : j < c.pages) (hp : (r.leaf p).isSome)
    (hlen : p.length ≤ 4)
    (hfree : ∀ v : U64, v.toNat ∈ c.pageSpan j → ∀ level, r.leaf (path v level) = none) :
    Apart p (c.pagePath j) := by
  obtain ⟨⟨k, hk⟩, -, hspan⟩ := hc.page hj
  have hpos := c.pageType.bytes_pos
  rw [← hspan] at hfree
  rw [MapCall.pagePath]
  generalize c.virt + BitVec.ofNat 64 j * c.pageType.value = x at *
  constructor
  · intro hsuffix
    have hpath := eq_path_of_suffix hsuffix
    rw [hpath, hfree x (Span.mem_mk.mpr ⟨le_rfl, by omega⟩)] at hp
    exact absurd hp (by simp)
  · intro hsuffix
    obtain ⟨y, hy, hdiv⟩ := exists_path_of_suffix hsuffix hlen
    have hin : y.toNat ∈ Span.mk x.toNat c.pageType.bytes := by
      rw [two_pow_pageSizeToDepth, hk, Nat.mul_div_cancel_left _ hpos] at hdiv
      have hmod := Nat.div_add_mod y.toNat c.pageType.bytes
      have hlt := Nat.mod_lt y.toNat hpos
      rw [hdiv] at hmod
      rw [Span.mem_mk, hk]
      omega
    rw [← hy, hfree y hin] at hp
    exact absurd hp (by simp)

end Unmapped

/-! ## Sound states -/

/-- The frame of a page table, which the mapper has in hand. -/
def tableFrame (table : U64) : Holding := ⟨.basePage, ⟨table, 1⟩⟩

/-- What memory is used for: the tree of the page tables, its tables, and the regions that
callers hold. -/
structure MemoryUse where
  tree : Radix (BitVec 9) U64 U64
  tables : List U64
  outstanding : List Holding

/-- All that is in hand: the frames of the page tables and what callers hold. -/
def MemoryUse.inHand (use : MemoryUse) : List Holding :=
  use.tables.map tableFrame ++ use.outstanding

namespace MappedMemory

/-- The state before a call, with nothing noted yet. -/
def fresh (m : MappedMemory) : MappedMemory :=
  { m with paging := { m.paging with allocator := m.paging.allocator.fresh } }

/-- The addresses of the regions that the managers list. -/
def free (m : MappedMemory) : Set Nat := m.paging.allocator.free

/-- What `getMappedPage` finds for an address. -/
def lookUp (m : MappedMemory) (virt : U64) : MappedPage :=
  getMappedPage m.paging.words m.paging.level4PageTable virt

/-- No table of a manager was full so far. -/
def NoneFull (m : MappedMemory) : Prop := m.paging.allocator.NoneFull

/-- The regions of the managers, their tables, the frames of the page tables and what callers
hold partition the usable memory and are aligned. The page tables hold the tree, in which
nothing is mapped that `getVirtualMemory` has still to hand out. -/
structure Sound (m : MappedMemory) (use : MemoryUse) (usable : Set Nat) : Prop where
  directory : Directory m.paging.words m.paging.level4PageTable use.tree
  pruned : use.tree.Pruned
  mem_tables : ∀ t, t ∈ use.tables ↔ t ∈ use.tree.tables
  owns : Custody.Owns (m.paging.allocator, use.inHand) usable
  inHigherHalf : m.higherHalfRegion.InHigherHalf
  unmapped : ∀ v : U64, m.higherHalfRegion.start ≤ v → v < m.higherHalfRegion.limit →
    ∀ level, use.tree.leaf (path v level) = none

/-- A state with a level-4 table without entries. -/
theorem Sound.of_zero {m : MappedMemory} {outstanding : List Holding} {usable : Set Nat}
    (hroot : pageFrameSize ∣ m.paging.level4PageTable.toNat)
    (hzero : ∀ i : BitVec 9,
      m.paging.words (entryAddress m.paging.level4PageTable (i.setWidth 64)) = 0)
    (howns : Custody.Owns
      (m.paging.allocator, tableFrame m.paging.level4PageTable :: outstanding) usable)
    (hregion : m.higherHalfRegion.InHigherHalf) :
    m.Sound ⟨emptyRadix m.paging.level4PageTable, [m.paging.level4PageTable], outstanding⟩
      usable := by
  refine ⟨.of_zero hroot hzero, emptyRadix_pruned _, fun t => ?_, howns, hregion,
    fun _ _ _ _ => rfl⟩
  rw [tables_emptyRadix, List.mem_singleton, Set.mem_singleton_iff]

end MappedMemory

/-! ## Frames for page tables -/

section Frames

variable {m₀ : PhysicalMemory} {held hand : List Holding} {usable : Set Nat} {depth : Nat}

/-- The physical memory got here by moves on behalf of callers, with the frames of the tables in
hand beside what else is. -/
def AvoidsTables (m₀ : PhysicalMemory) (held hand : List Holding) (m : PhysicalMemory)
    (T : Set U64) : Prop :=
  m.MovesNoted ∧ ∃ tables : List U64, (∀ t, t ∈ tables ↔ t ∈ T) ∧
    Moves callScope (m₀.fresh, held) (m, tables.map tableFrame ++ hand)

theorem span_tableFrame (t : U64) : (tableFrame t).span = ⟨t.toNat, pageFrameSize⟩ := by
  simp [tableFrame, Holding.span, PagedMemory.span, pageFrameSize]

/-- While no table is full, the frames that are handed out for page tables are none of those
in use. -/
theorem handsOutFrames_allocate4KiBPage (hown : Custody.Owns (m₀, held) usable) :
    HandsOutFrames (allocate4KiBPage depth) (AvoidsTables m₀ held hand)
      PhysicalMemory.NoneFull := by
  have hadds := AddsToJournal.allocContiguousPhysicalPagesWithManager depth 1 .basePage
  refine ⟨?_, fun hrun hfull => hfull.of_prefix (hadds.of_ok hrun)⟩
  rintro m m' T page ⟨hnoted, tables, htables, hmoves⟩ hrun hfull
  have hnoted' : m'.MovesNoted :=
    (keeps_allocContiguousPhysicalPagesWithManager depth 1 .basePage).of_ok hnoted hrun
  have htaken : Moves callScope (m₀.fresh, held)
      (m', (page :: tables).map tableFrame ++ hand) :=
    hmoves.trans ((conducts_allocContiguousPhysicalPages le_rfl m 1 .basePage (by decide)).ok
      hrun (tables.map tableFrame ++ hand))
  obtain ⟨hown', -⟩ := Moves.exchange htaken hown hnoted' hfull
  refine ⟨hown'.sound.aligned.inHand (tableFrame page) List.mem_cons_self, fun hin => ?_,
    hnoted', page :: tables, fun t => ?_, htaken⟩
  · -- A frame in hand twice would be covered twice.
    have hcount := hown'.count_le page.toNat
    have hself : page.toNat ∈ (tableFrame page).span := by
      rw [span_tableFrame, Span.mem_mk, pageFrameSize]
      omega
    have hagain : 0 < Span.count ((tables.map tableFrame ++ hand).map Holding.span) page.toNat :=
      Span.count_pos_iff.mpr ⟨_, List.mem_map_of_mem (List.mem_append_left _
        (List.mem_map_of_mem ((htables page).mpr hin))), hself⟩
    rw [List.map_cons, List.cons_append, List.map_cons, Span.count_cons, if_pos hself] at hcount
    omega
  · rw [List.mem_cons, htables, Set.mem_insert_iff]

end Frames

end Homegrown.Memory
