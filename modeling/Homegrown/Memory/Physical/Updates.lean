import Homegrown.Memory.Physical.Promotable

/-!
# Updates along a call

A call that takes pages or frees a region changes what the managers list in three ways: pages are
taken from a listed region, a region is listed, and the table of a manager is moved. How many of
these updates a call makes is not bounded: a table that is full is moved in the middle of a free,
and the frames for the new one may be stolen from a larger manager, which frees the rest. A
condition can be followed along a call nonetheless: it is asked of the state before each update
that takes pages or moves a table. What these updates keep under the condition, and what listing a
few pages keeps, is kept by every call that returns.
-/

namespace Homegrown.Memory

/-- An update that takes pages, or moves a table. -/
inductive Update where
  /-- `decreasePages`, of the region at an index. -/
  | decrease (s : PageSize) (index : Nat) (decreaseBy : U64)
  /-- The table of a manager is moved, and the frames of the old one listed. -/
  | moveTable (s : PageSize)
  deriving DecidableEq, Repr

/-- The frames of a manager's table, as they are listed when it is moved. -/
def PhysicalMemoryManager.oldTable (p : PhysicalMemoryManager) : PagedMemory :=
  ⟨p.buf, p.usedBasePages.setWidth 64⟩

section Along

variable (condition : Update → PhysicalMemory → Prop)

/-- The condition holds along the branch for a full table, when it does along the allocation. -/
def AlongGrowth (along : U64 → PhysicalMemory → Prop) (allocate : U64 → Kernel U64) (s : PageSize)
    (m : PhysicalMemory) : Prop :=
  (m.manager s).cap.toNat ≤ (m.manager s).memory.length →
    along (((m.manager s).usedBasePages + 1).setWidth 64) (m.note (.tableFull s)) ∧
      IfReturns (allocate (((m.manager s).usedBasePages + 1).setWidth 64) (m.note (.tableFull s)))
        fun _ m₁ => condition (.moveTable s) m₁

/-- The condition holds along `allocContiguousPhysicalPagesWithManager`. -/
def AlongAlloc : Nat → U64 → PageSize → PhysicalMemory → Prop
  | 0, _, _, _ => True
  | depth + 1, n, s, m =>
    match firstFit (m.manager s).memory n, s.larger? with
    | some i, _ => condition (.decrease s i n) m
    | none, none => True
    | none, some larger =>
      AlongAlloc depth (ceilingDivValue n 512) larger m ∧
        IfReturns (allocContiguousPhysicalPagesWithManager depth (ceilingDivValue n 512) larger m)
          fun _ m₁ => AlongGrowth condition (fun k => AlongAlloc depth k .basePage)
            (fun k => allocContiguousPhysicalPagesWithManager depth k .basePage) s
            (m₁.note (.stolen n))

/-- The condition holds along `freePhysicalPage`. -/
def AlongFree (depth : Nat) (s : PageSize) (m : PhysicalMemory) : Prop :=
  AlongGrowth condition (fun k => AlongAlloc condition depth k .basePage)
    (fun k => allocContiguousPhysicalPagesWithManager depth k .basePage) s m

instance [∀ u m, Decidable (condition u m)] (along : U64 → PhysicalMemory → Prop)
    [∀ n m, Decidable (along n m)] (allocate : U64 → Kernel U64) (s : PageSize)
    (m : PhysicalMemory) : Decidable (AlongGrowth condition along allocate s m) :=
  inferInstanceAs (Decidable (_ → _ ∧ _))

instance AlongAlloc.decidable [∀ u m, Decidable (condition u m)] :
    ∀ (depth : Nat) (n : U64) (s : PageSize) (m : PhysicalMemory),
      Decidable (AlongAlloc condition depth n s m)
  | 0, _, _, _ => isTrue trivial
  | depth + 1, n, s, m => by
    have := AlongAlloc.decidable depth
    unfold AlongAlloc
    split <;> infer_instance

instance [∀ u m, Decidable (condition u m)] (depth : Nat) (s : PageSize) (m : PhysicalMemory) :
    Decidable (AlongFree condition depth s m) :=
  inferInstanceAs (Decidable (AlongGrowth _ _ _ _ _))

end Along

/-- A property is kept by every update before which the condition holds, and by listing less than
512 pages; the other managers may list any region. -/
structure Kept (s : PageSize) (condition : Update → PhysicalMemory → Prop)
    (inv : PhysicalMemory → Prop) : Prop where
  note : ∀ {m e}, inv m → inv (m.note e)
  decrease : ∀ {m t i n region}, inv m → (m.manager t).memory[i]? = some region →
    n ≤ region.numberOfPages → condition (.decrease t i n) m →
    inv (m.setManager t ((m.manager t).decrease t i region n))
  push : ∀ {m t page}, inv m → (t = s → page.numberOfPages.toNat < 512) →
    inv (m.setManager t ((m.manager t).push page))
  moveTable : ∀ {m t e newBuf}, inv m → condition (.moveTable t) m →
    inv ((m.note e).setManager t ((m.manager t).moveTable newBuf))

section Kept

variable {condition : Update → PhysicalMemory → Prop} {inv : PhysicalMemory → Prop}
  {m m' : PhysicalMemory} {s t : PageSize} {depth : Nat} {n a : U64} {u : Unit}
  {allocate : U64 → Kernel U64} {along : U64 → PhysicalMemory → Prop} {page : PagedMemory}

/-- What is said of one manager is kept when its own updates keep it. -/
theorem Kept.ofManager {inv : PhysicalMemoryManager → Prop}
    (decrease : ∀ {m i n region}, inv (m.manager s) → (m.manager s).memory[i]? = some region →
      n ≤ region.numberOfPages → condition (.decrease s i n) m →
      inv ((m.manager s).decrease s i region n))
    (push : ∀ {p page}, inv p → page.numberOfPages.toNat < 512 → inv (p.push page))
    (moveTable : ∀ {m newBuf}, inv (m.manager s) → condition (.moveTable s) m →
      inv ((m.manager s).moveTable newBuf)) :
    Kept s condition fun m => inv (m.manager s) := by
  have hset : ∀ {m : PhysicalMemory} {t p}, inv (m.manager s) → (t = s → inv p) →
      inv ((m.setManager t p).manager s) := by
    intro m t p hm hp
    by_cases hts : s = t
    · rw [← hts, PhysicalMemory.manager_setManager]
      exact hp hts.symm
    · rwa [PhysicalMemory.manager_setManager_of_ne _ _ _ _ hts]
  refine ⟨?_, ?_, ?_, ?_⟩
  · intro m e hm
    rwa [PhysicalMemory.manager_note]
  · intro m t i n region hm hi hle hcondition
    refine hset hm ?_
    rintro rfl
    exact decrease hm hi hle hcondition
  · intro m t page hm hpage
    refine hset hm ?_
    rintro rfl
    exact push hm (hpage rfl)
  · intro m t e newBuf hm hcondition
    refine hset (by rwa [PhysicalMemory.manager_note]) ?_
    rintro rfl
    exact moveTable hm hcondition

/-- Listing a region keeps the property, also when the table is moved for it. -/
theorem Kept.listPage (hkept : Kept s condition inv)
    (halloc : ∀ {n a m m'}, along n m → inv m → allocate n m = .ok a m' → inv m')
    (halong : AlongGrowth condition along allocate t m) (hm : inv m)
    (hpage : t = s → page.numberOfPages.toNat < 512)
    (h : freePhysicalPagesWithManager allocate t [page] m = .ok u m') : inv m' := by
  obtain ⟨m₁, hcapacity, hrest⟩ := freePhysicalPagesWithManager_cons_eq_ok.mp h
  obtain ⟨-, rfl⟩ := pure_eq_ok.mp hrest
  refine hkept.push ?_ hpage
  rcases ensureCapacity_eq_ok.mp hcapacity with ⟨-, rfl⟩ | ⟨hfull, newBuf, m₂, hgrow, rfl⟩
  · exact hm
  · obtain ⟨halong, hmove⟩ := halong hfull
    exact hkept.moveTable (halloc halong (hkept.note hm) hgrow) (hmove newBuf m₂ hgrow)

/-- Taking contiguous pages keeps the property. -/
theorem Kept.alloc (hkept : Kept s condition inv) (halong : AlongAlloc condition depth n t m)
    (hm : inv m) (h : allocContiguousPhysicalPagesWithManager depth n t m = .ok a m') : inv m' := by
  induction depth generalizing n t m a m' with
  | zero => exact (throw_eq_ok.mp h).elim
  | succ depth ih =>
    unfold AlongAlloc at halong
    rcases allocContiguousPhysicalPagesWithManager_eq_ok.mp h with
      ⟨i, region, hfit, hi, hle, -, rfl⟩ | ⟨hfit, -, larger, m₁, hl, hsteal, hfree⟩
    · rw [hfit] at halong
      exact hkept.decrease hm hi hle halong
    · rw [hfit, hl] at halong
      obtain ⟨hlarger, hrest⟩ := halong
      refine hkept.listPage ih (hrest a m₁ hsteal) (hkept.note (ih hlarger hm hsteal)) ?_ hfree
      intro _
      exact toNat_restOfSteal_lt n

/-- Freeing a region keeps the property. -/
theorem Kept.free (hkept : Kept s condition inv) (halong : AlongFree condition depth t m)
    (hm : inv m) (hpage : t = s → page.numberOfPages.toNat < 512)
    (h : freePhysicalPage depth page t m = .ok u m') : inv m' := by
  unfold freePhysicalPage freePhysicalPages at h
  exact hkept.listPage (fun halong hm h => hkept.alloc halong hm h) halong hm hpage h

/-- With room in the table, no update is made but listing the region. -/
theorem alongFree_of_room (hroom : (m.manager t).memory.length < (m.manager t).cap.toNat) :
    AlongFree condition depth t m := fun hfull => absurd hfull (not_le.mpr hroom)

end Kept

end Homegrown.Memory
