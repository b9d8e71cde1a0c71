import Homegrown.Memory.Definitions

/-!
# The physical memory managers

The three managers of free physical memory, one for each page size, with the
operations of `physical.c` that take memory from them and give memory back. A
manager lists its free regions in a table that itself lies in frames of the base
manager. The operations steal from the manager of the next larger size, give the
rest back, and move a table that is full in the middle of a free.

The calls nest in each other without a bound of their own, so each takes the
depth to which it may nest. `journal` is no part of the source: it notes which
branches were taken and which entries of a request were written, and no operation
reads it.
-/

namespace Homegrown.Memory

/-- `PagedMemory`: a run of pages of one size. -/
structure PagedMemory where
  pageStart : U64
  numberOfPages : U64
  deriving DecidableEq, Repr

/-- What the journal notes. -/
inductive Event where
  /-- The table of a manager was full when memory was freed. -/
  | tableFull (pageSize : PageSize)
  /-- The table of a manager, of this many frames, was moved. -/
  | tableMoved (pageSize : PageSize) (usedBasePages : U32)
  /-- A request for contiguous pages was served by the next larger manager. -/
  | stolen (numberOfPages : U64)
  /-- An entry of the caller's array was written. -/
  | slotWritten (slot : Nat)
  /-- `initPMM` moved pages up from a region that starts between two larger pages. -/
  | unalignedPromotion (pageSize : PageSize)
  deriving DecidableEq, Repr

/-- `PhysicalMemoryManager`. The entries `memory.buf[0]` to `memory.buf[memory.len - 1]`
are the list `memory`, and `buf` is the address they lie at. -/
structure PhysicalMemoryManager where
  buf : U64
  memory : List PagedMemory
  cap : U64
  usedBasePages : U32
  deriving DecidableEq, Repr

/-- The three managers, and the journal. -/
structure PhysicalMemory where
  basePMM : PhysicalMemoryManager
  largePMM : PhysicalMemoryManager
  hugePMM : PhysicalMemoryManager
  journal : List Event
  deriving DecidableEq, Repr

namespace PhysicalMemory

/-- `getMemoryManager`. -/
def manager (m : PhysicalMemory) : PageSize → PhysicalMemoryManager
  | .basePage => m.basePMM
  | .largePage => m.largePMM
  | .hugePage => m.hugePMM

/-- The state in which one manager is replaced. -/
def setManager (m : PhysicalMemory) (s : PageSize) (p : PhysicalMemoryManager) : PhysicalMemory :=
  match s with
  | .basePage => { m with basePMM := p }
  | .largePage => { m with largePMM := p }
  | .hugePage => { m with hugePMM := p }

/-- The state with one more entry in the journal. -/
def note (m : PhysicalMemory) (e : Event) : PhysicalMemory := { m with journal := m.journal ++ [e] }

variable (m : PhysicalMemory) (s t : PageSize) (p : PhysicalMemoryManager) (e : Event)

/-- The manager that was set. -/
@[simp] theorem manager_setManager : (m.setManager s p).manager s = p := by
  cases s <;> rfl

/-- The other managers. -/
theorem manager_setManager_of_ne (h : t ≠ s) : (m.setManager s p).manager t = m.manager t := by
  cases s <;> cases t <;> first | rfl | exact absurd rfl h

/-- Only the last manager that was set counts. -/
theorem setManager_setManager (q : PhysicalMemoryManager) :
    (m.setManager s p).setManager s q = m.setManager s q := by
  cases s <;> rfl

/-- The managers after one was set. -/
theorem manager_setManager_eq :
    (m.setManager s p).manager t = if t = s then p else m.manager t := by
  split
  · rename_i h
    rw [h, manager_setManager]
  · rename_i h
    exact manager_setManager_of_ne m s t p h

/-- Setting a manager notes nothing. -/
@[simp] theorem journal_setManager : (m.setManager s p).journal = m.journal := by
  cases s <;> rfl

/-- A note leaves the managers. -/
@[simp] theorem manager_note : (m.note e).manager s = m.manager s := by
  cases s <;> rfl

@[simp] theorem journal_note : (m.note e).journal = m.journal ++ [e] := rfl

end PhysicalMemory

/-- Programs on the managers. -/
abbrev Kernel := EStateM Fault PhysicalMemory

/-- The manager of a page size. -/
def getMemoryManager (s : PageSize) : Kernel PhysicalMemoryManager :=
  return (← get).manager s

/-- An update of the manager of a page size. -/
def updateManager (s : PageSize) (f : PhysicalMemoryManager → PhysicalMemoryManager) :
    Kernel Unit :=
  modify fun m => m.setManager s (f (m.manager s))

/-- An entry in the journal. -/
def note (e : Event) : Kernel Unit := modify (·.note e)

/-- `toLargerPages`. -/
def toLargerPages (numberOfPages : U64) : U64 := numberOfPages / 512

/-- `toSmallerPages`. -/
def toSmallerPages (numberOfPages : U64) : U64 := numberOfPages * 512

/-- `MEMORY_ENTRIES_IN_BASE_PAGES`: an entry has 16 bytes. -/
def memoryEntriesInBasePages (basePages : U64) : U64 := 4096 * basePages / 16

/-- The list after its last entry has been moved to an index and the length decreased. -/
def swapRemove {α : Type} (l : List α) (index : Nat) : List α :=
  match l.getLast? with
  | none => l
  | some last => (l.set index last).dropLast

/-- Removing the last entry. -/
theorem swapRemove_concat {α : Type} (l : List α) (a : α) : swapRemove (l ++ [a]) l.length = l := by
  simp [swapRemove]

/-- The entries that `decreasePages` leaves, given the entry at the index. -/
def PhysicalMemoryManager.decrease (p : PhysicalMemoryManager) (s : PageSize) (index : Nat)
    (region : PagedMemory) (decreaseBy : U64) : PhysicalMemoryManager :=
  if region.numberOfPages = decreaseBy then
    { p with memory := swapRemove p.memory index }
  else
    { p with
      memory := p.memory.set index
        ⟨region.pageStart + decreaseBy * s.value, region.numberOfPages - decreaseBy⟩ }

section Decrease

variable {p : PhysicalMemoryManager} {s : PageSize} {index : Nat} {region : PagedMemory}
  {decreaseBy : U64}

/-- A decrease leaves the capacity. -/
@[simp] theorem PhysicalMemoryManager.cap_decrease :
    (p.decrease s index region decreaseBy).cap = p.cap := by
  unfold PhysicalMemoryManager.decrease
  split <;> rfl

/-- A decrease lists no more regions. -/
theorem length_decrease_le :
    (p.decrease s index region decreaseBy).memory.length ≤ p.memory.length := by
  unfold PhysicalMemoryManager.decrease
  split
  · dsimp only [swapRemove]
    split
    · exact le_rfl
    · simp
  · rw [List.length_set]

end Decrease

/-- `decreasePages`. -/
def decreasePages (s : PageSize) (index : Nat) (decreaseBy : U64) : Kernel Unit := do
  let manager ← getMemoryManager s
  match manager.memory[index]? with
  | none => throw .outOfBounds
  | some region =>
    assert (decreaseBy ≤ region.numberOfPages)
    updateManager s fun p => p.decrease s index region decreaseBy

/-- The manager with one more region listed. -/
def PhysicalMemoryManager.push (p : PhysicalMemoryManager) (region : PagedMemory) :
    PhysicalMemoryManager :=
  { p with memory := p.memory ++ [region] }

/-- The manager with its length decreased by one. -/
def PhysicalMemoryManager.pop (p : PhysicalMemoryManager) : PhysicalMemoryManager :=
  { p with memory := p.memory.dropLast }

/-- The manager with its table moved to a new address: the frames of the old table are
listed as a region of the manager's own page size. -/
def PhysicalMemoryManager.moveTable (p : PhysicalMemoryManager) (newBuf : U64) :
    PhysicalMemoryManager :=
  { p with
    buf := newBuf
    memory := p.memory ++ [⟨p.buf, p.usedBasePages.setWidth 64⟩]
    usedBasePages := p.usedBasePages + 1
    cap := memoryEntriesInBasePages ((p.usedBasePages + 1).setWidth 64) }

/-- The table of a manager is moved, and the move noted. -/
def moveTable (s : PageSize) (newBuf : U64) : Kernel Unit :=
  modify fun m => (m.note (.tableMoved s (m.manager s).usedBasePages)).setManager s
    ((m.manager s).moveTable newBuf)

/-- The branch of `freePhysicalPagesWithManager` for a full table. `allocate` is the
allocation of contiguous pages from the base manager. -/
def growTable (allocate : U64 → Kernel U64) (s : PageSize) : Kernel Unit := do
  let manager ← getMemoryManager s
  note (.tableFull s)
  let newBuf ← allocate ((manager.usedBasePages + 1).setWidth 64)
  moveTable s newBuf

/-- The test for a full table in `freePhysicalPagesWithManager`. -/
def ensureCapacity (allocate : U64 → Kernel U64) (s : PageSize) : Kernel Unit := do
  let manager ← getMemoryManager s
  if manager.cap.toNat ≤ manager.memory.length then
    growTable allocate s
  else
    return ()

/-- `freePhysicalPagesWithManager`. -/
def freePhysicalPagesWithManager (allocate : U64 → Kernel U64) (s : PageSize) :
    List PagedMemory → Kernel Unit
  | [] => return ()
  | page :: pages => do
    ensureCapacity allocate s
    updateManager s fun p => p.push page
    freePhysicalPagesWithManager allocate s pages

/-- The index of the first region with enough pages, as far as an index of 32 bits goes. -/
def firstFit (memory : List PagedMemory) (numberOfPages : U64) : Option Nat :=
  (memory.findIdx? fun region => numberOfPages ≤ region.numberOfPages).filter (· < 2 ^ 32)

/-- `allocContiguousPhysicalPagesWithManager`. -/
def allocContiguousPhysicalPagesWithManager : Nat → U64 → PageSize → Kernel U64
  | 0, _, _ => throw .outOfFuel
  | depth + 1, numberOfPages, s => do
    let manager ← getMemoryManager s
    match firstFit manager.memory numberOfPages with
    | some i =>
      match manager.memory[i]? with
      | none => throw .outOfBounds
      | some region =>
        decreasePages s i numberOfPages
        return region.pageStart
    | none =>
      -- The 32-bit index stays below a length of 2^32 or more.
      if 2 ^ 32 ≤ manager.memory.length then
        throw .endlessLoop
      else
        match s.larger? with
        | none => throw .noMorePhysicalMemory
        | some larger =>
          let pagesForLargerManager := ceilingDivValue numberOfPages 512
          let address ← allocContiguousPhysicalPagesWithManager depth pagesForLargerManager larger
          note (.stolen numberOfPages)
          let freeAddressStart := address + numberOfPages * s.value
          let freePages := toSmallerPages pagesForLargerManager - numberOfPages
          freePhysicalPagesWithManager
            (fun n => allocContiguousPhysicalPagesWithManager depth n .basePage) s
            [⟨freeAddressStart, freePages⟩]
          return address

/-- `allocContiguousPhysicalPages`. -/
def allocContiguousPhysicalPages (depth : Nat) (numberOfPages : U64) (s : PageSize) : Kernel U64 :=
  allocContiguousPhysicalPagesWithManager depth numberOfPages s

/-- The loop of `allocPhysicalPagesWithManager`, over the listed regions from the last
one on. It returns the entries it wrote, from `slot` on, and the pages still
requested, if the request was not met. -/
def takeListedPages (s : PageSize) :
    List PagedMemory → Nat → U32 → Kernel (List PagedMemory × Option U32)
  | [], _, requestedPages => return ([], some requestedPages)
  | region :: rest, slot, requestedPages => do
    note (.slotWritten slot)
    if requestedPages.setWidth 64 ≤ region.numberOfPages then
      decreasePages s rest.length (requestedPages.setWidth 64)
      return ([⟨region.pageStart, requestedPages.setWidth 64⟩], none)
    else
      updateManager s fun p => p.pop
      let (pages, left) ← takeListedPages s rest (slot + 1)
        (requestedPages - region.numberOfPages.setWidth 32)
      return (region :: pages, left)

/-- `allocPhysicalPagesWithManager`, for an array of `len` entries whose first entry is
entry `slot` of the caller's array. -/
def allocPhysicalPagesWithManager : Nat → Nat → U64 → PageSize → Kernel (List PagedMemory)
  | 0, _, _, _ => throw .outOfFuel
  | depth + 1, slot, len, s => do
    let manager ← getMemoryManager s
    let (pages, left) ← takeListedPages s manager.memory.reverse slot (len.setWidth 32)
    match left with
    | none => return pages
    | some requestedPages =>
      match s.larger? with
      | none => throw .noMorePhysicalMemory
      | some larger =>
        let largerPage ← allocPhysicalPagesWithManager depth (slot + pages.length)
          (ceilingDivValue (requestedPages.setWidth 64) 512) larger
        freePhysicalPagesWithManager
          (fun n => allocContiguousPhysicalPagesWithManager depth n .basePage) s
          (largerPage.map fun page => { page with numberOfPages := page.numberOfPages * 512 })
        let addedPages ← allocPhysicalPagesWithManager depth (slot + pages.length)
          (requestedPages.setWidth 64) s
        return pages ++ addedPages

/-- `allocPhysicalPages`, for an array of `len` entries. -/
def allocPhysicalPages (depth : Nat) (len : U64) (s : PageSize) : Kernel (List PagedMemory) :=
  allocPhysicalPagesWithManager depth 0 len s

/-- `freePhysicalPages`. -/
def freePhysicalPages (depth : Nat) (pages : List PagedMemory) (s : PageSize) : Kernel Unit :=
  freePhysicalPagesWithManager
    (fun n => allocContiguousPhysicalPagesWithManager depth n .basePage) s pages

/-- `freePhysicalPage`. -/
def freePhysicalPage (depth : Nat) (page : PagedMemory) (s : PageSize) : Kernel Unit :=
  freePhysicalPages depth [page] s

/-! ## What a call that returns has done -/

section Returns

variable {m m' : PhysicalMemory} {s : PageSize} {n : U64} {u : Unit}

/-- Reading a manager returns it. -/
@[simp] theorem getMemoryManager_eq_ok {p : PhysicalMemoryManager} :
    getMemoryManager s m = .ok p m' ↔ m.manager s = p ∧ m = m' := by
  simp only [getMemoryManager, bind_eq_ok, get_eq_ok, pure_eq_ok]
  constructor
  · rintro ⟨_, _, ⟨rfl, rfl⟩, hp, hm⟩
    exact ⟨hp, hm⟩
  · rintro ⟨hp, hm⟩
    exact ⟨m, m, ⟨rfl, rfl⟩, hp, hm⟩

/-- An update sets the manager. -/
@[simp] theorem updateManager_eq_ok {f : PhysicalMemoryManager → PhysicalMemoryManager} :
    updateManager s f m = .ok u m' ↔ m.setManager s (f (m.manager s)) = m' := modify_eq_ok

/-- A note is added. -/
@[simp] theorem note_eq_ok {e : Event} : note e m = .ok u m' ↔ m.note e = m' := modify_eq_ok

/-- A decrease that returns found a region with enough pages. -/
theorem decreasePages_eq_ok {index : Nat} :
    decreasePages s index n m = .ok u m' ↔ ∃ region, (m.manager s).memory[index]? = some region ∧
      n ≤ region.numberOfPages ∧
      m.setManager s ((m.manager s).decrease s index region n) = m' := by
  simp only [decreasePages, bind_eq_ok, getMemoryManager_eq_ok]
  constructor
  · rintro ⟨_, _, ⟨rfl, rfl⟩, h⟩
    cases hr : (m.manager s).memory[index]? with
    | none => simp [hr] at h
    | some region =>
      simp only [hr, bind_eq_ok, assert_eq_ok, updateManager_eq_ok] at h
      obtain ⟨_, _, ⟨hle, rfl⟩, hm⟩ := h
      exact ⟨region, rfl, hle, hm⟩
  · rintro ⟨region, hr, hle, hm⟩
    refine ⟨_, _, ⟨rfl, rfl⟩, ?_⟩
    simp only [hr, bind_eq_ok, assert_eq_ok, updateManager_eq_ok]
    exact ⟨(), m, ⟨hle, rfl⟩, hm⟩

/-- The first fit is a listed region with enough pages. -/
theorem firstFit_eq_some {memory : List PagedMemory} {i : Nat} (h : firstFit memory n = some i) :
    ∃ region, memory[i]? = some region ∧ n ≤ region.numberOfPages := by
  rw [firstFit, Option.filter_eq_some_iff, List.findIdx?_eq_some_iff_getElem] at h
  obtain ⟨⟨hi, hn, -⟩, -⟩ := h
  exact ⟨memory[i], List.getElem?_eq_getElem hi, of_decide_eq_true hn⟩

/-- Without a first fit and within the reach of the index, no listed region has enough
pages. -/
theorem firstFit_eq_none {memory : List PagedMemory} (h : firstFit memory n = none)
    (hlen : memory.length < 2 ^ 32) : ∀ region ∈ memory, region.numberOfPages < n := by
  intro region hr
  by_contra hle
  rw [firstFit, Option.filter_eq_none_iff] at h
  cases hi : memory.findIdx? (fun region => decide (n ≤ region.numberOfPages)) with
  | none =>
    rw [List.findIdx?_eq_none_iff] at hi
    have hno := hi region hr
    exact hle (BitVec.not_le.mp (of_decide_eq_false hno))
  | some i =>
    obtain ⟨hlt, -⟩ := List.findIdx?_eq_some_iff_getElem.mp hi
    have hge := h i hi
    simp only [decide_eq_true_eq] at hge
    omega

variable {allocate : U64 → Kernel U64}

/-- Making room that returns found room, or has moved the table to frames it got. -/
theorem ensureCapacity_eq_ok :
    ensureCapacity allocate s m = .ok u m' ↔
      ((m.manager s).memory.length < (m.manager s).cap.toNat ∧ m = m') ∨
      ((m.manager s).cap.toNat ≤ (m.manager s).memory.length ∧ ∃ address m₁,
        allocate (((m.manager s).usedBasePages + 1).setWidth 64)
          (m.note (.tableFull s)) = .ok address m₁ ∧
        (m₁.note (.tableMoved s (m₁.manager s).usedBasePages)).setManager s
          ((m₁.manager s).moveTable address) = m') := by
  simp only [ensureCapacity, growTable, bind_eq_ok, getMemoryManager_eq_ok]
  constructor
  · rintro ⟨_, _, ⟨rfl, rfl⟩, h⟩
    split at h
    · rename_i hfull
      simp only [bind_eq_ok, getMemoryManager_eq_ok, note_eq_ok, moveTable, modify_eq_ok] at h
      obtain ⟨_, _, ⟨rfl, rfl⟩, _, _, rfl, address, m₁, ha, hm⟩ := h
      exact .inr ⟨hfull, address, m₁, ha, hm⟩
    · rename_i hroom
      rw [pure_eq_ok] at h
      exact .inl ⟨not_le.mp hroom, h.2⟩
  · rintro (⟨hroom, rfl⟩ | ⟨hfull, address, m₁, ha, hm⟩)
    · refine ⟨_, _, ⟨rfl, rfl⟩, ?_⟩
      rw [if_neg (not_le.mpr hroom), pure_eq_ok]
      exact ⟨rfl, rfl⟩
    · refine ⟨_, _, ⟨rfl, rfl⟩, ?_⟩
      rw [if_pos hfull]
      simp only [bind_eq_ok, getMemoryManager_eq_ok, note_eq_ok, moveTable, modify_eq_ok]
      exact ⟨_, _, ⟨rfl, rfl⟩, (), _, rfl, address, m₁, ha, hm⟩

/-- Freeing regions makes room for the first one, lists it and goes on. -/
theorem freePhysicalPagesWithManager_cons_eq_ok {page : PagedMemory} {pages : List PagedMemory} :
    freePhysicalPagesWithManager allocate s (page :: pages) m = .ok u m' ↔
      ∃ m₁, ensureCapacity allocate s m = .ok () m₁ ∧
        freePhysicalPagesWithManager allocate s pages
          (m₁.setManager s ((m₁.manager s).push page)) = .ok u m' := by
  simp only [freePhysicalPagesWithManager, bind_eq_ok, updateManager_eq_ok]
  constructor
  · rintro ⟨_, m₁, h1, _, _, rfl, h2⟩
    exact ⟨m₁, h1, h2⟩
  · rintro ⟨m₁, h1, h2⟩
    exact ⟨(), m₁, h1, (), _, rfl, h2⟩

/-- A call for contiguous pages that returns took them from the first fit, or stole
them from the next larger manager and freed the rest. -/
theorem allocContiguousPhysicalPagesWithManager_eq_ok {depth : Nat} {address : U64} :
    allocContiguousPhysicalPagesWithManager (depth + 1) n s m = .ok address m' ↔
      (∃ i region, firstFit (m.manager s).memory n = some i ∧
        (m.manager s).memory[i]? = some region ∧ n ≤ region.numberOfPages ∧
        region.pageStart = address ∧
        m.setManager s ((m.manager s).decrease s i region n) = m') ∨
      (firstFit (m.manager s).memory n = none ∧ (m.manager s).memory.length < 2 ^ 32 ∧
        ∃ larger m₁, s.larger? = some larger ∧
          allocContiguousPhysicalPagesWithManager depth (ceilingDivValue n 512) larger m =
            .ok address m₁ ∧
          freePhysicalPagesWithManager
            (fun k => allocContiguousPhysicalPagesWithManager depth k .basePage) s
            [⟨address + n * s.value, toSmallerPages (ceilingDivValue n 512) - n⟩]
            (m₁.note (.stolen n)) = .ok () m') := by
  simp only [allocContiguousPhysicalPagesWithManager, bind_eq_ok, getMemoryManager_eq_ok]
  constructor
  · rintro ⟨_, _, ⟨rfl, rfl⟩, h⟩
    cases hfit : firstFit (m.manager s).memory n with
    | some i =>
      obtain ⟨region, hr, hle⟩ := firstFit_eq_some hfit
      simp only [hfit, hr, bind_eq_ok, decreasePages_eq_ok, pure_eq_ok] at h
      obtain ⟨_, _, ⟨region', hr', -, rfl⟩, rfl, rfl⟩ := h
      obtain rfl := Option.some.inj hr'
      exact .inl ⟨i, region, rfl, hr, hle, rfl, rfl⟩
    | none =>
      simp only [hfit] at h
      split at h
      · simp at h
      · rename_i hlen
        cases hl : s.larger? with
        | none => simp [hl] at h
        | some larger =>
          simp only [hl, bind_eq_ok, note_eq_ok, pure_eq_ok] at h
          obtain ⟨address', m₁, ha, _, _, rfl, _, _, hf, rfl, rfl⟩ := h
          exact .inr ⟨rfl, not_le.mp hlen, larger, m₁, rfl, ha, hf⟩
  · rintro (⟨i, region, hfit, hr, hle, rfl, rfl⟩ | ⟨hfit, hlen, larger, m₁, hl, ha, hf⟩)
    · refine ⟨_, _, ⟨rfl, rfl⟩, ?_⟩
      simp only [hfit, hr, bind_eq_ok, decreasePages_eq_ok, pure_eq_ok]
      exact ⟨(), _, ⟨region, rfl, hle, rfl⟩, trivial, rfl⟩
    · refine ⟨_, _, ⟨rfl, rfl⟩, ?_⟩
      simp only [hfit, if_neg (not_le.mpr hlen), hl, bind_eq_ok, note_eq_ok, pure_eq_ok]
      exact ⟨address, m₁, ha, (), _, rfl, (), m', hf, rfl, rfl⟩

/-- The last region of a list read backwards: where it is listed, that decreasing the
length takes all its pages, and what is left. -/
theorem PhysicalMemoryManager.pop_of_reverse {p : PhysicalMemoryManager} {region : PagedMemory}
    {rest : List PagedMemory} (h : p.memory.reverse = region :: rest) :
    p.memory[rest.length]? = some region ∧
      p.pop = p.decrease s rest.length region region.numberOfPages ∧
      p.pop.memory.reverse = rest := by
  have hlist : p.memory = rest.reverse ++ [region] := by
    rw [← List.reverse_reverse p.memory, h, List.reverse_cons]
  refine ⟨?_, ?_, ?_⟩
  · rw [hlist, List.getElem?_append_right (by simp)]
    simp
  · rw [PhysicalMemoryManager.decrease, if_pos rfl, PhysicalMemoryManager.pop, hlist,
      ← List.length_reverse, swapRemove_concat, List.dropLast_concat]
  · rw [PhysicalMemoryManager.pop, hlist]
    simp

/-- A chunk never has more pages than a 32-bit request. -/
theorem takeListedPages_fits {regions chunks : List PagedMemory} {slot : Nat} {requested : U32}
    {left : Option U32} (h : takeListedPages s regions slot requested m = .ok (chunks, left) m') :
    ∀ chunk ∈ chunks, chunk.numberOfPages.toNat < 2 ^ 32 := by
  induction regions generalizing slot requested m m' chunks left with
  | nil =>
    rw [takeListedPages, pure_eq_ok, Prod.mk.injEq] at h
    obtain ⟨⟨rfl, -⟩, -⟩ := h
    simp
  | cons region rest ih =>
    have hlt := requested.isLt
    have hwide : (requested.setWidth 64).toNat = requested.toNat :=
      BitVec.toNat_setWidth_of_le (by norm_num)
    rw [takeListedPages, bind_eq_ok] at h
    obtain ⟨_, m₁, -, h⟩ := h
    split at h
    · simp only [bind_eq_ok, pure_eq_ok, Prod.mk.injEq] at h
      obtain ⟨_, _, -, ⟨rfl, -⟩, -⟩ := h
      simpa only [List.mem_singleton, forall_eq, hwide] using hlt
    · rename_i hle
      simp only [bind_eq_ok, pure_eq_ok, Prod.mk.injEq] at h
      obtain ⟨_, _, -, ⟨chunks', left'⟩, _, hrest, ⟨rfl, -⟩, -⟩ := h
      intro chunk hc
      rcases List.mem_cons.mp hc with rfl | hc
      · rw [BitVec.not_le, BitVec.lt_def, hwide] at hle
        omega
      · exact ih hrest chunk hc

/-- A request that returns was met by the listed regions, or the rest of it was stolen
from the next larger manager, freed, and requested again. -/
theorem allocPhysicalPagesWithManager_of_ok {depth slot : Nat} {len : U64}
    {chunks : List PagedMemory}
    (h : allocPhysicalPagesWithManager (depth + 1) slot len s m = .ok chunks m') :
    takeListedPages s (m.manager s).memory.reverse slot (len.setWidth 32) m =
        .ok (chunks, none) m' ∨
      ∃ pages requested larger largerPage added m₁ m₂ m₃, s.larger? = some larger ∧
        chunks = pages ++ added ∧
        takeListedPages s (m.manager s).memory.reverse slot (len.setWidth 32) m =
          .ok (pages, some requested) m₁ ∧
        allocPhysicalPagesWithManager depth (slot + pages.length)
          (ceilingDivValue (requested.setWidth 64) 512) larger m₁ = .ok largerPage m₂ ∧
        freePhysicalPagesWithManager
          (fun k => allocContiguousPhysicalPagesWithManager depth k .basePage) s
          (largerPage.map fun page => { page with numberOfPages := page.numberOfPages * 512 })
          m₂ = .ok () m₃ ∧
        allocPhysicalPagesWithManager depth (slot + pages.length) (requested.setWidth 64) s m₃ =
          .ok added m' := by
  simp only [allocPhysicalPagesWithManager, bind_eq_ok, getMemoryManager_eq_ok] at h
  obtain ⟨_, _, ⟨rfl, rfl⟩, ⟨pages, left⟩, m₁, htake, h⟩ := h
  cases left with
  | none =>
    obtain ⟨rfl, rfl⟩ := pure_eq_ok.mp h
    exact .inl htake
  | some requested =>
    cases hl : s.larger? with
    | none => simp [hl] at h
    | some larger =>
      simp only [hl, bind_eq_ok, pure_eq_ok] at h
      obtain ⟨largerPage, m₂, hlarger, _, m₃, hfree, added, _, hadded, rfl, rfl⟩ := h
      exact .inr ⟨pages, requested, larger, largerPage, added, m₁, m₂, m₃, rfl, rfl, htake,
        hlarger, hfree, hadded⟩

/-- No chunk has 2 ^ 32 pages or more. -/
theorem allocPhysicalPagesWithManager_fits {depth slot : Nat} {len : U64}
    {chunks : List PagedMemory}
    (h : allocPhysicalPagesWithManager depth slot len s m = .ok chunks m') :
    ∀ chunk ∈ chunks, chunk.numberOfPages.toNat < 2 ^ 32 := by
  induction depth generalizing slot len m s chunks m' with
  | zero => simp [allocPhysicalPagesWithManager] at h
  | succ depth ih =>
    rcases allocPhysicalPagesWithManager_of_ok h with
      htake | ⟨pages, _, _, _, added, _, _, _, -, rfl, htake, -, -, hadded⟩
    · exact takeListedPages_fits htake
    · intro chunk hc
      rcases List.mem_append.mp hc with hc | hc
      · exact takeListedPages_fits htake chunk hc
      · exact ih hadded chunk hc

end Returns

end Homegrown.Memory
