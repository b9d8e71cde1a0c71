import Mathlib.Algebra.BigOperators.Intervals
import Homegrown.Memory.Physical.Contiguous
import Homegrown.Memory.Physical.Promotion
import Homegrown.Memory.Physical.Request

/-!
# Growing a full table

A free into a full table takes the frames of the next table from the base manager, which may
have to break up a large page for them and to list the rest of it, in its own table. If that
one is full as well, the frames of its next table are requested in the same way, and so on:
the call then breaks up one large page after the other, and none of them helps.
`freePhysicalPage_returns_iff` says when a free returns.
-/

namespace Homegrown.Memory

/-! ## One manager -/

namespace PhysicalMemoryManager

/-- A region of so many pages is listed. -/
def Fits (p : PhysicalMemoryManager) (n : U64) : Prop := ∃ r ∈ p.memory, n ≤ r.numberOfPages

/-- The table is not full. -/
def HasRoom (p : PhysicalMemoryManager) : Prop := p.memory.length < p.cap.toNat

/-- The frames of the next table. -/
def nextTable (p : PhysicalMemoryManager) : U64 := (p.usedBasePages + 1).setWidth 64

/-- The base manager can list a region without the help of a larger manager. -/
def CanList (p : PhysicalMemoryManager) : Prop := p.HasRoom ∨ p.Fits p.nextTable

/-- The pages that are listed, but for the frames of earlier tables: each table is listed
when it is moved. -/
def listedPages (p : PhysicalMemoryManager) : Int :=
  pagesIn p.memory - ∑ k ∈ Finset.range p.usedBasePages.toNat, (k : Int)

/-- The table has the size that `usedBasePages` says, holds what is listed, and is to have less
than `PageTableFormat.ENTRIES` frames when it has grown. -/
structure WellFormed (p : PhysicalMemoryManager) : Prop where
  cap : p.cap = memoryEntriesInBasePages (p.usedBasePages.setWidth 64)
  listed : p.memory.length ≤ p.cap.toNat
  few : p.usedBasePages.toNat + 1 < PageTableFormat.entries

/-- A page can be taken from the manager, or listed in it. -/
structure Spare (p : PhysicalMemoryManager) : Prop where
  listed : p.memory.length ≤ p.cap.toNat
  few : p.usedBasePages.toNat < PageTableFormat.entries
  spare : p.Fits 1 ∨ p.HasRoom

end PhysicalMemoryManager

section Manager

variable {p : PhysicalMemoryManager} {s : PageSize} {i : Nat} {r : PagedMemory} {n : U64}

/-- A search in vain, where the index reaches the whole list. -/
theorem firstFit_eq_none_iff (hlen : p.memory.length < 2 ^ 32) :
    firstFit p.memory n = none ↔ ¬ p.Fits n := by
  constructor
  · rintro h ⟨r, hr, hle⟩
    exact BitVec.not_lt.mpr hle (firstFit_eq_none h hlen r hr)
  · intro h
    cases hfit : firstFit p.memory n with
    | none => rfl
    | some i =>
      obtain ⟨r, hr, hle⟩ := firstFit_eq_some hfit
      exact (h ⟨r, List.mem_of_getElem? hr, hle⟩).elim

/-- What fits is found. -/
theorem PhysicalMemoryManager.Fits.firstFit (h : p.Fits n) (hlen : p.memory.length < 2 ^ 32) :
    ∃ i r, firstFit p.memory n = some i ∧ p.memory[i]? = some r ∧ n ≤ r.numberOfPages := by
  obtain ⟨i, hi⟩ := Option.ne_none_iff_exists'.mp
    (mt (firstFit_eq_none_iff hlen).mp (not_not_intro h))
  obtain ⟨r, hr, hle⟩ := firstFit_eq_some hi
  exact ⟨i, r, hi, hr, hle⟩

/-- What is found fits. -/
theorem fits_of_firstFit (h : firstFit p.memory n = some i) : p.Fits n := by
  obtain ⟨r, hr, hle⟩ := firstFit_eq_some h
  exact ⟨r, List.mem_of_getElem? hr, hle⟩

/-- A frame holds 256 entries. -/
theorem toNat_memoryEntriesInBasePages {u : U32} :
    (memoryEntriesInBasePages (u.setWidth 64)).toNat = 256 * u.toNat := by
  have hlt := u.isLt
  have hwide : (u.setWidth 64).toNat = u.toNat := BitVec.toNat_setWidth_of_le (by norm_num)
  have hmul : ((4096 : U64) * u.setWidth 64).toNat = 4096 * u.toNat := by
    rw [BitVec.toNat_mul, hwide]
    exact Nat.mod_eq_of_lt (show 4096 * u.toNat < 2 ^ 64 by omega)
  rw [memoryEntriesInBasePages, BitVec.toNat_udiv, hmul]
  change 4096 * u.toNat / 16 = _
  omega

/-- Replacing a region. -/
theorem pagesIn_set {regions : List PagedMemory} (q : PagedMemory) (hi : regions[i]? = some r) :
    pagesIn (regions.set i q) + r.numberOfPages.toNat =
      pagesIn regions + q.numberOfPages.toNat := by
  induction regions generalizing i with
  | nil => simp at hi
  | cons first regions ih =>
    cases i with
    | zero =>
      obtain rfl := Option.some.inj hi
      rw [List.set_cons_zero, pagesIn_cons, pagesIn_cons]
      omega
    | succ i =>
      have hrest := ih hi
      rw [List.set_cons_succ, pagesIn_cons, pagesIn_cons]
      omega

/-- Taking pages from a region takes so many. -/
theorem pagesIn_decrease (hi : p.memory[i]? = some r) (hn : n ≤ r.numberOfPages) :
    pagesIn (p.decrease s i r n).memory + n.toNat = pagesIn p.memory := by
  unfold PhysicalMemoryManager.decrease
  split
  · rename_i heq
    have hlist := pagesIn_perm (swapRemove_perm hi)
    rw [pagesIn_cons] at hlist
    rw [← hlist, ← heq, Nat.add_comm]
  · have hset := pagesIn_set ⟨r.pageStart + n * s.value, r.numberOfPages - n⟩ hi
    have hle := BitVec.le_def.mp hn
    rw [BitVec.toNat_sub_of_le hn] at hset
    change pagesIn (p.memory.set i _) + _ = _
    omega

/-- A region from which fewer pages are taken stays listed. -/
theorem decrease_spare (h : p.memory.length ≤ p.cap.toNat) (hi : p.memory[i]? = some r)
    (hn : n ≤ r.numberOfPages) :
    (p.decrease s i r n).Fits 1 ∨ (p.decrease s i r n).HasRoom := by
  have hbound := (List.getElem?_eq_some_iff.mp hi).1
  unfold PhysicalMemoryManager.decrease
  split
  · right
    have hlen := (swapRemove_perm hi).length_eq
    rw [List.length_cons] at hlen
    change (swapRemove p.memory i).length < p.cap.toNat
    omega
  · rename_i hne
    left
    refine ⟨_, List.mem_set hbound _, ?_⟩
    have hlt : n.toNat < r.numberOfPages.toNat := lt_of_le_of_ne (BitVec.le_def.mp hn)
      fun heq => hne (BitVec.eq_of_toNat_eq heq.symm)
    rw [BitVec.le_def, BitVec.toNat_sub_of_le hn]
    change 1 ≤ _
    omega

/-- A decrease lists so many pages less. -/
theorem listedPages_decrease (hi : p.memory[i]? = some r) (hn : n ≤ r.numberOfPages) :
    (p.decrease s i r n).listedPages = p.listedPages - n.toNat := by
  have hpages := pagesIn_decrease (s := s) hi hn
  rw [PhysicalMemoryManager.listedPages, PhysicalMemoryManager.listedPages,
    PhysicalMemoryManager.usedBasePages_decrease]
  omega

/-- A region that is listed adds its pages. -/
@[simp] theorem listedPages_push :
    (p.push r).listedPages = p.listedPages + r.numberOfPages.toNat := by
  have hpages : pagesIn (p.push r).memory = pagesIn p.memory + r.numberOfPages.toNat := by
    rw [PhysicalMemoryManager.push, pagesIn_append, pagesIn_cons, pagesIn_nil, Nat.add_zero]
  rw [PhysicalMemoryManager.listedPages, hpages]
  change _ - ∑ k ∈ Finset.range p.usedBasePages.toNat, (k : Int) = _
  rw [PhysicalMemoryManager.listedPages]
  omega

/-- The size of the next table does not wrap. -/
theorem toNat_usedBasePages_add_one (h : p.usedBasePages.toNat < PageTableFormat.entries) :
    (p.usedBasePages + 1).toNat = p.usedBasePages.toNat + 1 := by
  have hlt : p.usedBasePages.toNat < 512 := h
  rw [BitVec.toNat_add]
  exact Nat.mod_eq_of_lt (show p.usedBasePages.toNat + 1 < 2 ^ 32 by omega)

/-- The frames of the next table. -/
theorem toNat_nextTable (h : p.usedBasePages.toNat < PageTableFormat.entries) :
    p.nextTable.toNat = p.usedBasePages.toNat + 1 := by
  rw [PhysicalMemoryManager.nextTable, BitVec.toNat_setWidth_of_le (by norm_num),
    toNat_usedBasePages_add_one h]

/-- Moving a table lists it, and no other page. -/
theorem listedPages_moveTable {newBuf : U64} (h : p.usedBasePages.toNat < PageTableFormat.entries) :
    (p.moveTable newBuf).listedPages = p.listedPages := by
  have hused : (p.moveTable newBuf).usedBasePages.toNat = p.usedBasePages.toNat + 1 :=
    toNat_usedBasePages_add_one h
  have hpages : pagesIn (p.moveTable newBuf).memory =
      pagesIn p.memory + p.usedBasePages.toNat := by
    rw [PhysicalMemoryManager.moveTable, pagesIn_append, pagesIn_cons, pagesIn_nil, Nat.add_zero,
      BitVec.toNat_setWidth_of_le (by norm_num)]
  rw [PhysicalMemoryManager.listedPages, PhysicalMemoryManager.listedPages, hused, hpages,
    Finset.sum_range_succ]
  omega

/-- A table that has grown holds what was listed, the old table and one region more. -/
theorem length_grow_le {newBuf : U64} (h : p.WellFormed) :
    ((p.moveTable newBuf).push r).memory.length ≤ (p.moveTable newBuf).cap.toNat := by
  have hlisted := h.listed
  have hused := toNat_usedBasePages_add_one (Nat.lt_of_succ_lt h.few)
  rw [h.cap, toNat_memoryEntriesInBasePages] at hlisted
  change ((p.memory ++ [_]) ++ [_]).length ≤
    (memoryEntriesInBasePages ((p.usedBasePages + 1).setWidth 64)).toNat
  rw [toNat_memoryEntriesInBasePages, hused, List.length_append, List.length_append,
    List.length_singleton, List.length_singleton]
  omega

namespace PhysicalMemoryManager.WellFormed

/-- A well-formed list is within the reach of the index. -/
theorem length_lt (h : p.WellFormed) : p.memory.length < 2 ^ 32 := by
  have hlisted := h.listed
  have hfew : p.usedBasePages.toNat + 1 < 512 := h.few
  rw [h.cap, toNat_memoryEntriesInBasePages] at hlisted
  omega

/-- One large page is enough for the next table. -/
theorem ceilingDivValue_nextTable (h : p.WellFormed) : ceilingDivValue p.nextTable 512 = 1 := by
  have hfew : p.usedBasePages.toNat + 1 < 512 := h.few
  have hnext := toNat_nextTable (Nat.lt_of_succ_lt h.few)
  refine BitVec.eq_of_toNat_eq ?_
  rw [toNat_requested (by omega), hnext]
  change _ = 1
  omega

end PhysicalMemoryManager.WellFormed

end Manager

/-! ## One large page is taken -/

namespace PhysicalMemory

/-- The listed large pages, with 512 for a huge page, but for the frames of earlier tables. -/
def largePages (m : PhysicalMemory) : Int :=
  m.largePMM.listedPages + 512 * m.hugePMM.listedPages

/-- The base manager after a large page has been taken for it. A huge page that is broken up
for that may be the reason to move the table of the large manager. -/
inductive BaseAfterSteal (m : PhysicalMemory) : PhysicalMemoryManager → Prop where
  | unchanged (h : m.largePMM.Fits 1 ∨ m.largePMM.HasRoom) : BaseAfterSteal m m.basePMM
  | moved {i : Nat} {region : PagedMemory} (h : ¬ (m.largePMM.Fits 1 ∨ m.largePMM.HasRoom))
      (fit : firstFit m.basePMM.memory m.largePMM.nextTable = some i)
      (listed : m.basePMM.memory[i]? = some region) :
      BaseAfterSteal m (m.basePMM.decrease .basePage i region m.largePMM.nextTable)

end PhysicalMemory

/-- What taking a large page leaves. -/
structure Steals (m m' : PhysicalMemory) : Prop where
  base : m.BaseAfterSteal m'.basePMM
  large : m'.largePMM.Spare
  huge : m'.hugePMM.usedBasePages = m.hugePMM.usedBasePages
  pages : m'.largePages + 1 = m.largePages

section Steal

variable {m m' : PhysicalMemory} {depth : Nat} {address : U64} {u : Unit} {page : PagedMemory}

/-- What is left of a larger page when one page is cut off. -/
theorem restOfHugePage (start : U64) (s : PageSize) :
    (⟨start + 1 * s.value, toSmallerPages (ceilingDivValue 1 512) - 1⟩ : PagedMemory) =
      ⟨start + 1 * s.value, 511⟩ := by
  have hrest : toSmallerPages (ceilingDivValue (1 : U64) 512) - 1 = 511 := by decide +kernel
  rw [hrest]

/-- A large page is listed, or a huge page is broken up. -/
theorem allocLargePage_of_ok
    (h : allocContiguousPhysicalPagesWithManager (depth + 1) 1 .largePage m = .ok address m') :
    (∃ i r, m.largePMM.memory[i]? = some r ∧ 1 ≤ r.numberOfPages ∧
      m' = m.setManager .largePage (m.largePMM.decrease .largePage i r 1)) ∨
    firstFit m.largePMM.memory 1 = none ∧ m.largePMM.memory.length < 2 ^ 32 ∧
      ∃ i r m₁, m.hugePMM.memory[i]? = some r ∧ 1 ≤ r.numberOfPages ∧
      m₁ = m.setManager .hugePage (m.hugePMM.decrease .hugePage i r 1) ∧
      freePhysicalPagesWithManager
        (fun k => allocContiguousPhysicalPagesWithManager depth k .basePage) .largePage
        [⟨address + 1 * PageSize.largePage.value, 511⟩] (m₁.note (.stolen 1)) = .ok () m' := by
  rcases allocContiguousPhysicalPagesWithManager_eq_ok.mp h with
    ⟨i, r, -, hr, hle, -, rfl⟩ | ⟨hnone, hlen, larger, m₁, hl, hhuge, hfree⟩
  · exact .inl ⟨i, r, hr, hle, rfl⟩
  · cases hl
    have hceiling : ceilingDivValue (1 : U64) 512 = 1 := by decide +kernel
    rw [restOfHugePage] at hfree
    rw [hceiling] at hhuge
    cases depth with
    | zero => exact (throw_eq_ok.mp hhuge).elim
    | succ depth =>
      rcases allocContiguousPhysicalPagesWithManager_eq_ok.mp hhuge with
        ⟨i, r, -, hr, hle, -, rfl⟩ | ⟨-, -, larger, _, hl, -⟩
      · exact .inr ⟨hnone, hlen, i, r, _, hr, hle, rfl, hfree⟩
      · cases hl

/-- The base manager after the steal is determined. -/
theorem PhysicalMemory.BaseAfterSteal.unique {b c : PhysicalMemoryManager}
    (hb : m.BaseAfterSteal b) (hc : m.BaseAfterSteal c) : b = c := by
  cases hb with
  | unchanged h =>
    cases hc with
    | unchanged => rfl
    | moved hnot => exact (hnot h).elim
  | moved hnot hfit hi =>
    cases hc with
    | unchanged h => exact (hnot h).elim
    | moved _ hfit' hi' =>
      obtain rfl := Option.some.inj (hfit.symm.trans hfit')
      obtain rfl := Option.some.inj (hi.symm.trans hi')
      rfl

/-- The journal does not matter for it. -/
theorem PhysicalMemory.baseAfterSteal_note {b : PhysicalMemoryManager} {e : Event} :
    (m.note e).BaseAfterSteal b ↔ m.BaseAfterSteal b := by
  constructor
  · rintro (h | ⟨hnot, hfit, hi⟩)
    · exact .unchanged h
    · exact .moved hnot hfit hi
  · rintro (h | ⟨hnot, hfit, hi⟩)
    · exact .unchanged (m := m.note e) h
    · exact .moved (m := m.note e) hnot hfit hi

/-- With a page or room to spare the base manager is as before. -/
theorem PhysicalMemory.BaseAfterSteal.eq_of_spare {b : PhysicalMemoryManager}
    (hb : m.BaseAfterSteal b) (h : m.largePMM.Fits 1 ∨ m.largePMM.HasRoom) : b = m.basePMM :=
  hb.unique (.unchanged h)

/-- Otherwise it had frames for the next table of `largePMM`. -/
theorem PhysicalMemory.BaseAfterSteal.fit {b : PhysicalMemoryManager}
    (hb : m.BaseAfterSteal b) (h : ¬ (m.largePMM.Fits 1 ∨ m.largePMM.HasRoom)) :
    ∃ i, firstFit m.basePMM.memory m.largePMM.nextTable = some i := by
  cases hb with
  | unchanged hspare => exact (h hspare).elim
  | moved _ hfit _ => exact ⟨_, hfit⟩

/-- A decrease keeps a manager well formed. -/
theorem PhysicalMemoryManager.WellFormed.decrease {p : PhysicalMemoryManager} {s : PageSize}
    {i : Nat} {r : PagedMemory} {n : U64} (h : p.WellFormed) : (p.decrease s i r n).WellFormed := by
  refine ⟨?_, ?_, ?_⟩
  · rw [PhysicalMemoryManager.cap_decrease, PhysicalMemoryManager.usedBasePages_decrease]
    exact h.cap
  · rw [PhysicalMemoryManager.cap_decrease]
    exact length_decrease_le.trans h.listed
  · rw [PhysicalMemoryManager.usedBasePages_decrease]
    exact h.few

/-- After the steal the base manager is well formed. -/
theorem PhysicalMemory.BaseAfterSteal.wellFormed {b : PhysicalMemoryManager}
    (hb : m.BaseAfterSteal b) (h : m.basePMM.WellFormed) : b.WellFormed := by
  cases hb with
  | unchanged => exact h
  | moved => exact h.decrease

/-- With a large page or room for the rest of a huge one, no table is moved. -/
theorem steals_of_spare (hlarge : m.largePMM.Spare)
    (h : allocContiguousPhysicalPagesWithManager depth 1 .largePage m = .ok address m') :
    Steals m m' := by
  cases depth with
  | zero => exact (throw_eq_ok.mp h).elim
  | succ depth =>
    rcases allocLargePage_of_ok h with
      ⟨i, r, hr, hle, rfl⟩ | ⟨hnone, hlen, i, r, m₁, hr, hle, rfl, hfree⟩
    · refine ⟨.unchanged hlarge.spare, ⟨?_, ?_, decrease_spare hlarge.listed hr hle⟩, rfl, ?_⟩
      · change (m.largePMM.decrease .largePage i r 1).memory.length ≤
          (m.largePMM.decrease .largePage i r 1).cap.toNat
        rw [PhysicalMemoryManager.cap_decrease]
        exact length_decrease_le.trans hlarge.listed
      · change (m.largePMM.decrease .largePage i r 1).usedBasePages.toNat < _
        rw [PhysicalMemoryManager.usedBasePages_decrease]
        exact hlarge.few
      · change (m.largePMM.decrease .largePage i r 1).listedPages +
          512 * m.hugePMM.listedPages + 1 = m.largePMM.listedPages + 512 * m.hugePMM.listedPages
        rw [listedPages_decrease hr hle]
        change _ - 1 + _ + _ = _
        omega
    · have hroom : m.largePMM.HasRoom :=
        hlarge.spare.resolve_left ((firstFit_eq_none_iff hlen).mp hnone)
      have hm' := (freePhysicalPagesWithManager_room (s := .largePage) (m := (m.setManager
        .hugePage (m.hugePMM.decrease .hugePage i r 1)).note (.stolen 1)) hroom).mp hfree
      subst hm'
      refine ⟨.unchanged hlarge.spare, ⟨?_, hlarge.few, .inl ⟨_, List.mem_concat_self, ?_⟩⟩,
        PhysicalMemoryManager.usedBasePages_decrease .., ?_⟩
      · change (m.largePMM.memory ++ [_]).length ≤ m.largePMM.cap.toNat
        rw [List.length_append]
        exact hroom
      · exact (by decide : (1 : U64) ≤ 511)
      · change (m.largePMM.push _).listedPages +
          512 * (m.hugePMM.decrease .hugePage i r 1).listedPages + 1 = _
        rw [listedPages_push, listedPages_decrease hr hle]
        change _ + 511 + 512 * (_ - 1) + 1 = m.largePMM.listedPages + 512 * m.hugePMM.listedPages
        omega

/-- With no large page and a full table, the next table of the large manager is taken from the
base manager. It cannot come from a huge page, as the rest of that would need it first. -/
theorem steals_of_full (hwell : m.largePMM.WellFormed)
    (hfull : ¬ (m.largePMM.Fits 1 ∨ m.largePMM.HasRoom))
    (h : allocContiguousPhysicalPagesWithManager depth 1 .largePage m = .ok address m') :
    Steals m m' := by
  induction depth using Nat.strong_induction_on generalizing m m' address with
  | _ depth ih =>
    cases depth with
    | zero => exact (throw_eq_ok.mp h).elim
    | succ depth =>
      rcases allocLargePage_of_ok h with
        ⟨i, r, hr, hle, -⟩ | ⟨-, -, i, r, m₁, hr, hle, rfl, hfree⟩
      · exact (hfull (.inl ⟨r, List.mem_of_getElem? hr, hle⟩)).elim
      · obtain ⟨m₂, hcapacity, hrest⟩ := freePhysicalPagesWithManager_cons_eq_ok.mp hfree
        obtain ⟨-, rfl⟩ := pure_eq_ok.mp hrest
        rcases ensureCapacity_eq_ok.mp hcapacity with
          ⟨hroom, -⟩ | ⟨-, newBuf, m₃, halloc, rfl⟩
        · exact (hfull (.inr hroom)).elim
        · cases depth with
          | zero => exact (throw_eq_ok.mp halloc).elim
          | succ depth =>
            rcases allocContiguousPhysicalPagesWithManager_eq_ok.mp halloc with
              ⟨j, region, hfit, hj, hle', -, rfl⟩ | ⟨hnone, -, larger, m₄, hl, hsteal, -⟩
            · refine ⟨.moved hfull hfit hj, ⟨?_, ?_, .inl ⟨_, List.mem_concat_self, ?_⟩⟩,
                PhysicalMemoryManager.usedBasePages_decrease .., ?_⟩
              · change ((m.largePMM.moveTable newBuf).push _).memory.length ≤
                  (m.largePMM.moveTable newBuf).cap.toNat
                exact length_grow_le hwell
              · change (m.largePMM.usedBasePages + 1).toNat < _
                rw [toNat_usedBasePages_add_one (Nat.lt_of_succ_lt hwell.few)]
                exact hwell.few
              · exact (by decide : (1 : U64) ≤ 511)
              · change ((m.largePMM.moveTable newBuf).push _).listedPages +
                  512 * (m.hugePMM.decrease .hugePage i r 1).listedPages + 1 = _
                rw [listedPages_push, listedPages_moveTable (Nat.lt_of_succ_lt hwell.few),
                  listedPages_decrease hr hle]
                change _ + 511 + 512 * (_ - 1) + 1 =
                  m.largePMM.listedPages + 512 * m.hugePMM.listedPages
                omega
            · cases hl
              have hone : ceilingDivValue m.largePMM.nextTable 512 = 1 :=
                hwell.ceilingDivValue_nextTable
              change allocContiguousPhysicalPagesWithManager depth
                (ceilingDivValue m.largePMM.nextTable 512) .largePage _ = _ at hsteal
              rw [hone] at hsteal
              obtain ⟨j, hj⟩ := (ih depth (by omega) (by exact hwell) (by exact hfull)
                hsteal).base.fit hfull
              exact absurd (hnone.symm.trans hj) nofun

/-- What taking a large page leaves, whether or not a table is moved. -/
theorem steals_of_ok (hwell : m.largePMM.WellFormed)
    (h : allocContiguousPhysicalPagesWithManager depth 1 .largePage m = .ok address m') :
    Steals m m' := by
  by_cases hspare : m.largePMM.Fits 1 ∨ m.largePMM.HasRoom
  · exact steals_of_spare ⟨hwell.listed, Nat.lt_of_succ_lt hwell.few, hspare⟩ h
  · exact steals_of_full hwell hspare h

/-- A region is listed in the base manager only without the help of the others: a large page that
is broken up leaves the base manager as it was, with one more region to list. -/
theorem listRest_of_ok (hlarge : m.largePMM.Spare) (hbase : m.basePMM.WellFormed)
    (h : freePhysicalPagesWithManager
      (fun k => allocContiguousPhysicalPagesWithManager depth k .basePage) .basePage [page] m =
        .ok u m') :
    m.basePMM.CanList ∧ m'.largePMM = m.largePMM ∧ m'.hugePMM = m.hugePMM := by
  induction depth generalizing m m' page u with
  | zero =>
    obtain ⟨m₁, hcapacity, hrest⟩ := freePhysicalPagesWithManager_cons_eq_ok.mp h
    obtain ⟨-, rfl⟩ := pure_eq_ok.mp hrest
    rcases ensureCapacity_eq_ok.mp hcapacity with ⟨hroom, rfl⟩ | ⟨-, _, _, halloc, -⟩
    · exact ⟨.inl hroom, rfl, rfl⟩
    · exact (throw_eq_ok.mp halloc).elim
  | succ depth ih =>
    obtain ⟨m₁, hcapacity, hrest⟩ := freePhysicalPagesWithManager_cons_eq_ok.mp h
    obtain ⟨-, rfl⟩ := pure_eq_ok.mp hrest
    rcases ensureCapacity_eq_ok.mp hcapacity with ⟨hroom, rfl⟩ | ⟨hfull, newBuf, m₂, halloc, rfl⟩
    · exact ⟨.inl hroom, rfl, rfl⟩
    · rcases allocContiguousPhysicalPagesWithManager_eq_ok.mp halloc with
        ⟨i, r, hfit, -, -, -, rfl⟩ | ⟨hnone, -, larger, m₃, hl, hsteal, hfree⟩
      · exact ⟨.inr (fits_of_firstFit hfit), rfl, rfl⟩
      · cases hl
        change allocContiguousPhysicalPagesWithManager depth
          (ceilingDivValue m.basePMM.nextTable 512) .largePage _ = _ at hsteal
        rw [hbase.ceilingDivValue_nextTable] at hsteal
        have hsteals := steals_of_spare (m := m.note (.tableFull .basePage)) hlarge hsteal
        have hsame : m₃.basePMM = m.basePMM := hsteals.base.eq_of_spare hlarge.spare
        obtain ⟨hcan, -⟩ := ih (m := m₃.note _) hsteals.large
          (show m₃.basePMM.WellFormed from hsame ▸ hbase) hfree
        change m₃.basePMM.CanList at hcan
        rw [hsame] at hcan
        rcases hcan with hroom | hfits
        · exact absurd hroom (not_lt.mpr hfull)
        · exact ((firstFit_eq_none_iff hbase.length_lt).mp hnone hfits).elim

end Steal

/-! ## A free -/

/-- The large pages of a page of the size, for the two larger sizes. -/
def PageSize.largePages : PageSize → Int
  | .basePage => 0
  | .largePage => 1
  | .hugePage => 512

namespace PhysicalMemory

/-- All three managers are well-formed. -/
def WellFormed (m : PhysicalMemory) : Prop := ∀ s, (m.manager s).WellFormed

/-- A page can be listed, the frames for the next table are listed, or the base manager can
list the rest of the large page that is broken up for them. -/
def GrowthEnds (m : PhysicalMemory) (s : PageSize) : Prop :=
  (m.manager s).HasRoom ∨ m.basePMM.Fits (m.manager s).nextTable ∨
    ∃ b, m.BaseAfterSteal b ∧ b.CanList

/-- Freeing a region returns and takes at most one large page. -/
def FreeReturns (m : PhysicalMemory) (s : PageSize) (r : PagedMemory) : Prop :=
  ∃ enough, ∀ depth, enough ≤ depth →
    ReturnsWith (freePhysicalPage depth r s m) fun _ m' =>
      m.largePages + s.largePages * r.numberOfPages.toNat ≤ m'.largePages + 1

end PhysicalMemory

section Free

variable {m m' : PhysicalMemory} {s : PageSize} {depth : Nat} {r : PagedMemory} {u : Unit}
  {newBuf : U64}

/-- What a replaced manager adds to the pages. -/
theorem largePages_setManager {p : PhysicalMemoryManager} :
    (m.setManager s p).largePages =
      m.largePages + s.largePages * (p.listedPages - (m.manager s).listedPages) := by
  cases s with
  | basePage =>
    change m.largePages = m.largePages + 0 * _
    omega
  | largePage =>
    change p.listedPages + 512 * m.hugePMM.listedPages =
      m.largePMM.listedPages + 512 * m.hugePMM.listedPages +
        1 * (p.listedPages - m.largePMM.listedPages)
    omega
  | hugePage =>
    change m.largePMM.listedPages + 512 * p.listedPages =
      m.largePMM.listedPages + 512 * m.hugePMM.listedPages +
        512 * (p.listedPages - m.hugePMM.listedPages)
    omega

/-- A table is moved, and the freed region listed. -/
theorem largePages_grow
    (hused : s ≠ .basePage → (m.manager s).usedBasePages.toNat < PageTableFormat.entries) :
    (m.setManager s (((m.manager s).moveTable newBuf).push r)).largePages =
      m.largePages + s.largePages * r.numberOfPages.toNat := by
  rw [largePages_setManager, listedPages_push]
  by_cases hs : s = .basePage
  · subst hs
    change _ + 0 * _ = _ + 0 * _
    omega
  · rw [listedPages_moveTable (hused hs)]
    congr 2
    omega

/-- A free that returns. -/
theorem freePhysicalPage_of_ok (hwell : m.WellFormed)
    (h : freePhysicalPage depth r s m = .ok u m') :
    m.GrowthEnds s ∧
      m.largePages + s.largePages * r.numberOfPages.toNat ≤ m'.largePages + 1 := by
  obtain ⟨m₁, hcapacity, hrest⟩ := freePhysicalPagesWithManager_cons_eq_ok.mp h
  obtain ⟨-, rfl⟩ := pure_eq_ok.mp hrest
  rcases ensureCapacity_eq_ok.mp hcapacity with ⟨hroom, rfl⟩ | ⟨-, newBuf, m₂, halloc, rfl⟩
  · refine ⟨.inl hroom, ?_⟩
    rw [largePages_setManager, listedPages_push, add_sub_cancel_left]
    omega
  · have hgrown (hused : s ≠ .basePage →
        (m₂.manager s).usedBasePages.toNat < PageTableFormat.entries) :=
      @largePages_grow (m₂.note (.tableMoved s (m₂.manager s).usedBasePages)) s r newBuf
        (by rwa [PhysicalMemory.manager_note])
    rw [PhysicalMemory.manager_note] at hgrown
    rw [PhysicalMemory.setManager_setManager, PhysicalMemory.manager_setManager]
    have hfew := Nat.lt_of_succ_lt (hwell s).few
    cases depth with
    | zero => exact (throw_eq_ok.mp halloc).elim
    | succ depth =>
      rcases allocContiguousPhysicalPagesWithManager_eq_ok.mp halloc with
        ⟨i, region, hfit, hi, hle, -, rfl⟩ | ⟨hnone, -, larger, m₃, hl, hsteal, hfree⟩
      · refine ⟨.inr (.inl (fits_of_firstFit hfit)), ?_⟩
        rw [hgrown fun hs => ?_]
        · change m.largePages + _ ≤ m.largePages + _ + 1
          omega
        · rw [PhysicalMemory.manager_setManager_of_ne _ _ _ _ hs, PhysicalMemory.manager_note]
          exact hfew
      · cases hl
        change allocContiguousPhysicalPagesWithManager depth
          (ceilingDivValue (m.manager s).nextTable 512) .largePage _ = _ at hsteal
        rw [(hwell s).ceilingDivValue_nextTable] at hsteal
        have hsteals := steals_of_ok (m := m.note (.tableFull s)) (hwell .largePage) hsteal
        have hbase := PhysicalMemory.baseAfterSteal_note.mp hsteals.base
        obtain ⟨hcan, hlarge, hhuge⟩ := listRest_of_ok (m := m₃.note _) hsteals.large
          (hbase.wellFormed (hwell .basePage)) hfree
        change m₂.largePMM = m₃.largePMM at hlarge
        change m₂.hugePMM = m₃.hugePMM at hhuge
        refine ⟨.inr (.inr ⟨_, hbase, hcan⟩), ?_⟩
        have hpages : m₂.largePages + 1 = m.largePages := by
          rw [PhysicalMemory.largePages, hlarge, hhuge]
          exact hsteals.pages
        rw [hgrown ?_]
        · change m.largePages + _ ≤ m₂.largePages + _ + 1
          omega
        · intro hs
          cases s with
          | basePage => exact (hs rfl).elim
          | largePage =>
            change m₂.largePMM.usedBasePages.toNat < _
            rw [hlarge]
            exact hsteals.large.few
          | hugePage =>
            change m₂.hugePMM.usedBasePages.toNat < _
            rw [hhuge, hsteals.huge]
            exact hfew

/-- A region of large or huge pages is there to take a large page from. -/
theorem allocLargePage_returns (hwell : m.WellFormed)
    (havailable : m.largePMM.Fits 1 ∨ m.hugePMM.Fits 1) {b : PhysicalMemoryManager}
    (hb : m.BaseAfterSteal b) (depth : Nat) :
    ∃ address m', allocContiguousPhysicalPagesWithManager (depth + 3) 1 .largePage m =
      .ok address m' ∧ Steals m m' ∧ m'.basePMM = b := by
  suffices h : ∃ address m',
      allocContiguousPhysicalPagesWithManager (depth + 3) 1 .largePage m = .ok address m' by
    obtain ⟨address, m', h⟩ := h
    have hsteals := steals_of_ok (hwell .largePage) h
    exact ⟨address, m', h, hsteals, hsteals.base.unique hb⟩
  have hlen := (hwell .largePage).length_lt
  by_cases hfits : m.largePMM.Fits 1
  · obtain ⟨i, r, hfit, hi, hle⟩ := hfits.firstFit hlen
    exact ⟨_, _, allocContiguousPhysicalPagesWithManager_eq_ok.mpr
      (.inl ⟨i, r, hfit, hi, hle, rfl, rfl⟩)⟩
  · -- A huge page is broken up.
    obtain ⟨i, r, hfit, hi, hle⟩ :=
      (havailable.resolve_left hfits).firstFit (hwell .hugePage).length_lt
    have hceiling : ceilingDivValue (1 : U64) 512 = 1 := by decide +kernel
    have hhuge : allocContiguousPhysicalPagesWithManager (depth + 2) (ceilingDivValue 1 512)
        .hugePage m = .ok r.pageStart
          (m.setManager .hugePage (m.hugePMM.decrease .hugePage i r 1)) := by
      rw [hceiling]
      exact allocContiguousPhysicalPagesWithManager_eq_ok.mpr
        (.inl ⟨i, r, hfit, hi, hle, rfl, rfl⟩)
    suffices h : ∃ m', freePhysicalPagesWithManager
        (fun k => allocContiguousPhysicalPagesWithManager (depth + 2) k .basePage) .largePage
        [⟨r.pageStart + 1 * PageSize.largePage.value,
          toSmallerPages (ceilingDivValue 1 512) - 1⟩]
        ((m.setManager .hugePage (m.hugePMM.decrease .hugePage i r 1)).note (.stolen 1)) =
          .ok () m' by
      obtain ⟨m', h⟩ := h
      exact ⟨_, m', allocContiguousPhysicalPagesWithManager_eq_ok.mpr
        (.inr ⟨(firstFit_eq_none_iff hlen).mpr hfits, hlen, .hugePage, _, rfl, hhuge, h⟩)⟩
    cases hb with
    | unchanged hspare =>
      exact ⟨_, (freePhysicalPagesWithManager_room (s := .largePage) (m := (m.setManager
        .hugePage (m.hugePMM.decrease .hugePage i r 1)).note (.stolen 1))
        (hspare.resolve_left hfits)).mpr rfl⟩
    | moved hnot hbase hregion =>
      have hfull := not_lt.mp fun hroom => hnot (.inr hroom)
      obtain ⟨region, hregion', hle'⟩ := firstFit_eq_some hbase
      obtain rfl := Option.some.inj (hregion.symm.trans hregion')
      exact ⟨_, freePhysicalPagesWithManager_cons_eq_ok.mpr ⟨_, ensureCapacity_eq_ok.mpr
        (.inr ⟨hfull, _, _, allocContiguousPhysicalPagesWithManager_eq_ok.mpr
          (.inl ⟨_, _, hbase, hregion, hle', rfl, rfl⟩), rfl⟩), rfl⟩⟩

/-- A region is listed at once, or the frames for the next table are listed. -/
theorem free_of_fits (hlen : m.basePMM.memory.length < 2 ^ 32)
    (h : (m.manager s).HasRoom ∨ m.basePMM.Fits (m.manager s).nextTable) (depth : Nat) :
    ∃ m', freePhysicalPagesWithManager
      (fun k => allocContiguousPhysicalPagesWithManager (depth + 1) k .basePage) s [r] m =
        .ok () m' := by
  by_cases hroom : (m.manager s).HasRoom
  · exact ⟨_, (freePhysicalPagesWithManager_room hroom).mpr rfl⟩
  · obtain ⟨i, region, hfit, hi, hle⟩ := (h.resolve_left hroom).firstFit hlen
    exact ⟨_, freePhysicalPagesWithManager_cons_eq_ok.mpr ⟨_, ensureCapacity_eq_ok.mpr
      (.inr ⟨not_lt.mp hroom, _, _, allocContiguousPhysicalPagesWithManager_eq_ok.mpr
        (.inl ⟨i, region, hfit, hi, hle, rfl, rfl⟩), rfl⟩), rfl⟩⟩

/-- Freeing a region returns where the growth of the table ends. -/
theorem freePhysicalPage_returns (hwell : m.WellFormed)
    (havailable : m.largePMM.Fits 1 ∨ m.hugePMM.Fits 1) (h : m.GrowthEnds s) (depth : Nat) :
    ∃ m', freePhysicalPage (depth + 4) r s m = .ok () m' := by
  have hlen := (hwell .basePage).length_lt
  by_cases hdirect : (m.manager s).HasRoom ∨ m.basePMM.Fits (m.manager s).nextTable
  · exact free_of_fits hlen hdirect (depth + 3)
  · obtain ⟨hfull, hfits⟩ := not_or.mp hdirect
    obtain ⟨b, hb, hcan⟩ := (h.resolve_left hfull).resolve_left hfits
    -- The frames come from a large page, and the rest of it can be listed.
    obtain ⟨address, m₁, hsteal, -, rfl⟩ := allocLargePage_returns (m := m.note (.tableFull s))
      hwell havailable (PhysicalMemory.baseAfterSteal_note.mpr hb) depth
    rw [← (hwell s).ceilingDivValue_nextTable] at hsteal
    obtain ⟨m₂, hrest⟩ := free_of_fits (m := m₁.note (.stolen (m.manager s).nextTable))
      (s := .basePage) (r := ⟨address + (m.manager s).nextTable * PageSize.basePage.value,
        toSmallerPages (ceilingDivValue (m.manager s).nextTable 512) - (m.manager s).nextTable⟩)
      (hb.wellFormed (hwell .basePage)).length_lt hcan (depth + 2)
    exact ⟨_, freePhysicalPagesWithManager_cons_eq_ok.mpr ⟨_, ensureCapacity_eq_ok.mpr
      (.inr ⟨not_lt.mp hfull, address, m₂, allocContiguousPhysicalPagesWithManager_eq_ok.mpr
        (.inr ⟨(firstFit_eq_none_iff hlen).mpr hfits, hlen, .largePage, m₁, rfl, hsteal, hrest⟩),
        rfl⟩), rfl⟩⟩

/-- With a large or a huge page listed, a free returns and takes at most one large page, exactly
when the growth of the tables comes to an end. -/
theorem freePhysicalPage_returns_iff (hwell : m.WellFormed)
    (havailable : m.largePMM.Fits 1 ∨ m.hugePMM.Fits 1) :
    m.FreeReturns s r ↔ m.GrowthEnds s := by
  constructor
  · rintro ⟨enough, h⟩
    obtain ⟨_, m', hrun, -⟩ := h enough le_rfl
    exact (freePhysicalPage_of_ok hwell hrun).1
  · intro h
    refine ⟨4, fun depth hdepth => ?_⟩
    obtain ⟨depth, rfl⟩ := Nat.exists_eq_add_of_le' hdepth
    obtain ⟨m', hrun⟩ := freePhysicalPage_returns (r := r) hwell havailable h depth
    exact ⟨(), m', hrun, (freePhysicalPage_of_ok hwell hrun).2⟩

/-- The table of the large manager is full, and two frames are listed for the next one. -/
theorem freePhysicalPage_returns_iff_fullLargeTable :
    fullLargeTable.FreeReturns .largePage ⟨0x40000000, 1⟩ := by
  refine (freePhysicalPage_returns_iff (fun s => ?_) (.inl ⟨⟨0x200000, 1⟩, ?_, ?_⟩)).mpr
    (.inr (.inl ⟨⟨0x2000, 2⟩, List.mem_singleton.mpr rfl, ?_⟩))
  · cases s <;> exact ⟨by decide +kernel, by decide +kernel, by decide +kernel⟩
  · decide +kernel
  · decide
  · decide +kernel

end Free

/-- Managers whose base manager lists as many regions as its table has entries, with one frame
each, and two large pages. -/
def fullBaseTable : PhysicalMemory :=
  ⟨⟨0x1000, (List.range 256).map fun i => ⟨BitVec.ofNat 64 ((i + 1) * 0x2000), 1⟩, 256, 1⟩,
    ⟨0x300000, [⟨0x400000, 2⟩], 256, 1⟩, ⟨0x301000, [], 256, 1⟩, []⟩

/-- Freeing one frame more takes both large pages, and fails. -/
theorem freePhysicalPage_runs_out :
    (¬ ∀ (m : PhysicalMemory) (s : PageSize) (r : PagedMemory), m.WellFormed →
      m.largePMM.Fits 1 ∨ m.hugePMM.Fits 1 → m.FreeReturns s r) ∧
    ∃ m', freePhysicalPage 6 ⟨0x1000000, 1⟩ .basePage fullBaseTable =
      .error .noMorePhysicalMemory m' ∧ m'.largePMM.memory = [] := by
  constructor
  · intro h
    have hwell : fullBaseTable.WellFormed := by
      intro s
      cases s <;> exact ⟨by decide +kernel, by decide +kernel, by decide +kernel⟩
    have hlarge : fullBaseTable.largePMM.Fits 1 :=
      ⟨⟨0x400000, 2⟩, List.mem_singleton.mpr rfl, by decide⟩
    have hfull : ¬ fullBaseTable.basePMM.HasRoom := not_lt.mpr (by decide +kernel)
    have hfits : ¬ fullBaseTable.basePMM.Fits fullBaseTable.basePMM.nextTable := by
      change ¬ ∃ r ∈ _, _
      decide +kernel
    obtain ⟨enough, hreturns⟩ := h fullBaseTable .basePage ⟨0x1000000, 1⟩ hwell (.inl hlarge)
    obtain ⟨_, m', hrun, -⟩ := hreturns enough le_rfl
    rcases (freePhysicalPage_of_ok hwell hrun).1 with hroom | hlisted | ⟨b, hb, hcan⟩
    · exact hfull hroom
    · exact hfits hlisted
    · rw [hb.eq_of_spare (.inl hlarge)] at hcan
      exact hcan.elim hfull hfits
  · exact ⟨final (freePhysicalPage 6 ⟨0x1000000, 1⟩ .basePage fullBaseTable), by decide +kernel,
      by decide +kernel⟩

end Homegrown.Memory
