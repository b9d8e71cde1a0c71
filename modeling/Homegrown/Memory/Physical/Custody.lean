import Mathlib.Data.List.Perm.Basic
import Homegrown.Core.Resource
import Homegrown.Memory.Physical.Manager

/-!
# Custody of physical memory

Every region of physical memory is listed by a manager, used for a table, or in
hand: taken out by a call that has not returned, or held by a caller. `Move` is
the list of everything the managers' code ever does to this custody, one move for
each elementary effect, and `conducts_allocContiguousPhysicalPages`,
`conducts_allocPhysicalPages` and `conducts_freePhysicalPages` show that every
operation is a sequence of moves. An invariant of the managers then has to be
checked once for each move.
-/

namespace Homegrown.Memory

/-- A region in hand, at the page size it was taken from or is held at. -/
structure Holding where
  pageSize : PageSize
  memory : PagedMemory
  deriving DecidableEq, Repr

/-- The managers, and the regions in hand. -/
abbrev Custody := PhysicalMemory × List Holding

/-- The table of a manager other than the base manager was moved. -/
def Event.GrowsLargerTable : Event → Prop
  | .tableMoved s _ => s ≠ .basePage
  | _ => False

/-- A table was moved that had as many frames as a 32-bit counter counts. -/
def Event.WrapsTableSize : Event → Prop
  | .tableMoved _ used => used + 1 = 0
  | _ => False

instance (e : Event) : Decidable e.GrowsLargerTable :=
  match e with
  | .tableMoved s _ => inferInstanceAs (Decidable (s ≠ .basePage))
  | .tableFull _ | .stolen _ | .slotWritten _ | .unalignedPromotion _ => isFalse id

instance (e : Event) : Decidable e.WrapsTableSize :=
  match e with
  | .tableMoved _ used => inferInstanceAs (Decidable (used + 1 = 0))
  | .tableFull _ | .stolen _ | .slotWritten _ | .unalignedPromotion _ => isFalse id

/-- The events after which the usable memory is no longer partitioned. -/
def Event.BreaksOwnership : Event → Prop
  | .tableMoved s _ => s ≠ .basePage
  | .unalignedPromotion _ => True
  | _ => False

instance (e : Event) : Decidable e.BreaksOwnership :=
  match e with
  | .tableMoved s _ => inferInstanceAs (Decidable (s ≠ .basePage))
  | .unalignedPromotion _ => isTrue trivial
  | .tableFull _ | .stolen _ | .slotWritten _ => isFalse id

/-- Moving the table of a larger manager breaks ownership. -/
theorem Event.GrowsLargerTable.breaks {e : Event} (h : e.GrowsLargerTable) : e.BreaksOwnership := by
  cases e with
  | tableMoved s used => exact h
  | _ => exact h.elim

/-- What the operations under consideration may note: how many pages they steal at
most, which entries of the caller's array they write, and whether they promote. -/
structure Scope where
  limit : Nat
  slot : Nat → Prop
  promotes : Prop

/-- The event is within the scope. -/
def Event.Within (scope : Scope) : Event → Prop
  | .tableFull _ | .tableMoved _ _ => True
  | .stolen n => n.toNat ≤ scope.limit
  | .slotWritten k => scope.slot k
  | .unalignedPromotion _ => scope.promotes

/-- What the managers' code does to the custody, one effect at a time. -/
inductive Move (scope : Scope) : Custody → Custody → Prop where
  /-- An event that changes nothing. -/
  | note {m : PhysicalMemory} {hand : List Holding} (e : Event) (within : e.Within scope)
      (harmless : ¬ e.BreaksOwnership) :
      Move scope (m, hand) (m.note e, hand)
  /-- The order of what is in hand does not matter. -/
  | reorder {m : PhysicalMemory} {hand hand' : List Holding} (perm : hand.Perm hand') :
      Move scope (m, hand) (m, hand')
  /-- The first pages of a listed region are taken. -/
  | take {m : PhysicalMemory} {hand : List Holding} (s : PageSize) (index : Nat)
      (region : PagedMemory) (n : U64) (listed : (m.manager s).memory[index]? = some region)
      (le : n ≤ region.numberOfPages) :
      Move scope (m, hand) (m.setManager s ((m.manager s).decrease s index region n),
        ⟨s, ⟨region.pageStart, n⟩⟩ :: hand)
  /-- A region in hand is listed. -/
  | list {m : PhysicalMemory} {hand : List Holding} (s : PageSize) (region : PagedMemory) :
      Move scope (m, ⟨s, region⟩ :: hand) (m.setManager s ((m.manager s).push region), hand)
  /-- A stolen region of larger pages is cut into the request and the rest. -/
  | cut {m : PhysicalMemory} {hand : List Holding} (s larger : PageSize) (n address : U64)
      (next : s.larger? = some larger) (within : n.toNat ≤ scope.limit) :
      Move scope (m, ⟨larger, ⟨address, ceilingDivValue n 512⟩⟩ :: hand)
        (m.note (.stolen n), ⟨s, ⟨address + n * s.value,
          toSmallerPages (ceilingDivValue n 512) - n⟩⟩ :: ⟨s, ⟨address, n⟩⟩ :: hand)
  /-- A region of larger pages is read as one of smaller pages. -/
  | narrow {m : PhysicalMemory} {hand : List Holding} (s larger : PageSize) (region : PagedMemory)
      (next : s.larger? = some larger) (fits : region.numberOfPages.toNat < 2 ^ 32) :
      Move scope (m, ⟨larger, region⟩ :: hand)
        (m, ⟨s, { region with numberOfPages := region.numberOfPages * 512 }⟩ :: hand)
  /-- A table moves to frames in hand. They were requested for one frame more than the
  table had then, and it still has as many, unless the table of a larger manager
  was moved in between. -/
  | moveTable {m : PhysicalMemory} {hand : List Holding} (s : PageSize) (address : U64)
      (used : U32)
      (same : s = .basePage → (∀ e ∈ m.journal, ¬ e.GrowsLargerTable) →
        (m.manager s).usedBasePages = used)
      (mono : (∀ e ∈ m.journal, ¬ e.WrapsTableSize) →
        used.toNat ≤ (m.manager s).usedBasePages.toNat) :
      Move scope (m, ⟨.basePage, ⟨address, (used + 1).setWidth 64⟩⟩ :: hand)
        ((m.note (.tableMoved s (m.manager s).usedBasePages)).setManager s
          ((m.manager s).moveTable address), hand)
  /-- Of a listed region that starts between two larger pages, the first pages are taken
  as if they were the last ones, which start at a larger page. -/
  | takeMisplaced {m : PhysicalMemory} {hand : List Holding} (s larger : PageSize) (index : Nat)
      (region : PagedMemory) (n boundary : U64) (next : s.larger? = some larger)
      (may : scope.promotes)
      (listed : (m.manager s).memory[index]? = some region) (le : n ≤ region.numberOfPages)
      (pos : 0 < n.toNat) (aligned : larger.bytes ∣ boundary.toNat)
      (near : s.bytes ∣ region.pageStart.toNat →
        region.pageStart.toNat + region.numberOfPages.toNat * s.bytes ≤ 2 ^ 64 →
        n.toNat < region.numberOfPages.toNat ∧ boundary.toNat =
          region.pageStart.toNat + (region.numberOfPages.toNat - n.toNat) * s.bytes) :
      Move scope (m, hand)
        ((m.setManager s ((m.manager s).decrease s index region n)).note
          (.unalignedPromotion larger), ⟨s, ⟨boundary, n⟩⟩ :: hand)
  /-- The whole larger pages of a region in hand are promoted. -/
  | promote {m : PhysicalMemory} {hand : List Holding} (s larger : PageSize)
      (address n : U64) (next : s.larger? = some larger)
      (aligned : larger.bytes ∣ address.toNat) :
      Move scope (m, ⟨s, ⟨address, n⟩⟩ :: hand)
        (m, ⟨larger, ⟨address, toLargerPages (alignDownValue n 512)⟩⟩ ::
          ⟨s, ⟨address + alignDownValue n 512 * s.value, n - alignDownValue n 512⟩⟩ :: hand)
  /-- A region without pages is dropped. -/
  | discard {m : PhysicalMemory} {hand : List Holding} (s : PageSize) (address : U64) :
      Move scope (m, ⟨s, ⟨address, 0⟩⟩ :: hand) (m, hand)

/-- Any number of moves. -/
abbrev Moves (scope : Scope) : Custody → Custody → Prop := Relation.ReflTransGen (Move scope)

/-! ## The journal -/

/-- The program adds to the journal only. -/
def AddsToJournal {α : Type} (x : Kernel α) : Prop :=
  ∀ m, m.journal <+: (final (x m)).journal

namespace AddsToJournal

variable {α β : Type} {x : Kernel α}

/-- Returning a value notes nothing. -/
theorem pure (a : α) : AddsToJournal (Pure.pure a) := fun _ => List.prefix_rfl

/-- A fault notes nothing. -/
theorem throw (e : Fault) : AddsToJournal (throw e : Kernel α) := fun _ => List.prefix_rfl

/-- Reading a manager notes nothing. -/
theorem getMemoryManager (s : PageSize) : AddsToJournal (getMemoryManager s) :=
  fun _ => List.prefix_rfl

/-- Updating a manager notes nothing. -/
theorem updateManager (s : PageSize) (f : PhysicalMemoryManager → PhysicalMemoryManager) :
    AddsToJournal (updateManager s f) := by
  intro m
  have hsame : (m.setManager s (f (m.manager s))).journal = m.journal :=
    PhysicalMemory.journal_setManager ..
  exact hsame ▸ List.prefix_rfl

/-- A note is added at the end. -/
theorem note (e : Event) : AddsToJournal (note e) := fun _ => List.prefix_append _ _

/-- Moving a table notes the move. -/
theorem moveTable (s : PageSize) (newBuf : U64) : AddsToJournal (moveTable s newBuf) := by
  intro m
  change m.journal <+: (PhysicalMemory.setManager _ s _).journal
  rw [PhysicalMemory.journal_setManager]
  exact List.prefix_append _ _

/-- A sequence adds what its parts add. -/
theorem bind {f : α → Kernel β} (hx : AddsToJournal x) (hf : ∀ a, AddsToJournal (f a)) :
    AddsToJournal (x >>= f) := by
  intro m
  have hm := hx m
  refine final_bind (p := fun u : PhysicalMemory => m.journal <+: u.journal) ?_ ?_
  · intro e u hu
    rwa [hu] at hm
  · intro a u hu
    rw [hu] at hm
    exact hm.trans (hf a u)

/-- An assertion notes nothing. -/
theorem assert (c : Prop) [Decidable c] : AddsToJournal (assert c) := by
  unfold Memory.assert
  split
  · exact pure _
  · exact throw _

/-- A decrease notes nothing. -/
theorem decreasePages (s : PageSize) (index : Nat) (n : U64) :
    AddsToJournal (decreasePages s index n) := by
  unfold Memory.decreasePages
  refine bind (getMemoryManager s) fun manager => ?_
  split
  · exact throw _
  · exact bind (assert _) fun _ => updateManager _ _

/-- Making room adds the full table, and its move. -/
theorem ensureCapacity {allocate : U64 → Kernel U64} (ha : ∀ n, AddsToJournal (allocate n))
    (s : PageSize) : AddsToJournal (ensureCapacity allocate s) := by
  unfold Memory.ensureCapacity growTable
  refine bind (getMemoryManager s) fun manager => ?_
  split
  · exact bind (getMemoryManager s) fun _ => bind (note _) fun _ => bind (ha _) fun _ =>
      moveTable _ _
  · exact pure _

/-- Freeing adds what the allocations of tables add. -/
theorem freePhysicalPagesWithManager {allocate : U64 → Kernel U64}
    (ha : ∀ n, AddsToJournal (allocate n)) (s : PageSize) (pages : List PagedMemory) :
    AddsToJournal (freePhysicalPagesWithManager allocate s pages) := by
  induction pages with
  | nil => exact pure _
  | cons page pages ih =>
    exact bind (ensureCapacity ha s) fun _ => bind (updateManager _ _) fun _ => ih

/-- Allocating contiguous pages adds to the journal only. -/
theorem allocContiguousPhysicalPagesWithManager (depth : Nat) : ∀ (n : U64) (s : PageSize),
    AddsToJournal (allocContiguousPhysicalPagesWithManager depth n s) := by
  induction depth with
  | zero => exact fun _ _ => throw _
  | succ depth ih =>
    intro n s
    unfold Memory.allocContiguousPhysicalPagesWithManager
    refine bind (getMemoryManager s) fun manager => ?_
    split
    · split
      · exact throw _
      · exact bind (decreasePages _ _ _) fun _ => pure _
    · split
      · exact throw _
      · split
        · exact throw _
        · exact bind (ih _ _) fun _ => bind (note _) fun _ =>
            bind (freePhysicalPagesWithManager (fun n => ih n _) _ _) fun _ => pure _

/-- Taking listed regions adds the entries that are written. -/
theorem takeListedPages (s : PageSize) (regions : List PagedMemory) :
    ∀ (slot : Nat) (requested : U32), AddsToJournal (takeListedPages s regions slot requested) := by
  induction regions with
  | nil => exact fun _ _ => pure _
  | cons region rest ih =>
    intro slot requested
    unfold Memory.takeListedPages
    refine bind (note _) fun _ => ?_
    split
    · exact bind (decreasePages _ _ _) fun _ => pure _
    · exact bind (updateManager _ _) fun _ => bind (ih _ _) fun _ => pure _

/-- Allocating pages adds to the journal only. -/
theorem allocPhysicalPagesWithManager (depth : Nat) : ∀ (slot : Nat) (len : U64) (s : PageSize),
    AddsToJournal (allocPhysicalPagesWithManager depth slot len s) := by
  induction depth with
  | zero => exact fun _ _ _ => throw _
  | succ depth ih =>
    intro slot len s
    unfold Memory.allocPhysicalPagesWithManager
    refine bind (getMemoryManager s) fun manager => bind (takeListedPages _ _ _ _) fun r => ?_
    obtain ⟨pages, left⟩ := r
    cases left with
    | none => exact pure _
    | some requested =>
      dsimp only
      split
      · exact throw _
      · exact bind (ih _ _ _) fun _ => bind (freePhysicalPagesWithManager (fun n =>
          allocContiguousPhysicalPagesWithManager depth n _) _ _) fun _ =>
          bind (ih _ _ _) fun _ => pure _

/-- The journal of a run that returned extends the one before. -/
theorem of_ok (hx : AddsToJournal x) {a : α} {m m' : PhysicalMemory} (h : x m = .ok a m') :
    m.journal <+: m'.journal := by
  have hm := hx m
  rwa [h] at hm

end AddsToJournal

/-! ## Growing the table of the base manager -/

section Grow

variable {depth : Nat} {n address : U64} {s : PageSize} {m m' : PhysicalMemory}

/-- No page size has frames as its larger pages. -/
theorem PageSize.larger?_ne_basePage {s larger : PageSize} (h : s.larger? = some larger) :
    larger ≠ .basePage := by
  rintro rfl
  cases s <;> cases h

/-- A call to a larger manager that moves no table of a larger manager leaves the base
manager alone. -/
theorem allocContiguous_basePMM (hs : s ≠ .basePage)
    (h : allocContiguousPhysicalPagesWithManager depth n s m = .ok address m')
    (hj : ∀ e ∈ m'.journal, ¬ e.GrowsLargerTable) :
    m'.manager .basePage = m.manager .basePage := by
  induction depth generalizing n s m address m' with
  | zero => simp [allocContiguousPhysicalPagesWithManager] at h
  | succ depth ih =>
    rcases allocContiguousPhysicalPagesWithManager_eq_ok.mp h with
      ⟨i, region, -, -, -, -, rfl⟩ | ⟨-, -, larger, m₁, hl, ha, hf⟩
    · exact PhysicalMemory.manager_setManager_of_ne _ _ _ _ hs.symm
    · have hadd := AddsToJournal.freePhysicalPagesWithManager
        (fun k => AddsToJournal.allocContiguousPhysicalPagesWithManager depth k .basePage) s
        [⟨address + n * s.value, toSmallerPages (ceilingDivValue n 512) - n⟩]
      have hm₁ := ih (PageSize.larger?_ne_basePage hl) ha fun e he =>
        hj e ((hadd.of_ok hf).subset (List.mem_append_left _ he))
      obtain ⟨m₂, hroom, hrest⟩ := freePhysicalPagesWithManager_cons_eq_ok.mp hf
      rw [freePhysicalPagesWithManager, pure_eq_ok] at hrest
      obtain ⟨-, rfl⟩ := hrest
      rw [PhysicalMemory.journal_setManager] at hj
      rcases ensureCapacity_eq_ok.mp hroom with ⟨-, rfl⟩ | ⟨-, newBuf, m₃, halloc, rfl⟩
      · rw [PhysicalMemory.manager_setManager_of_ne _ _ _ _ hs.symm, PhysicalMemory.manager_note,
          hm₁]
      · exact absurd hs (hj (.tableMoved s (m₃.manager s).usedBasePages) (by simp))

/-- While its table is full, the base manager cannot get frames for a larger table out
of a larger manager: the rest of the stolen page would have to be listed first. -/
theorem not_grow_by_stealing
    (hfull : (m.manager .basePage).cap.toNat ≤ (m.manager .basePage).memory.length)
    (hfit : firstFit (m.manager .basePage).memory
      (((m.manager .basePage).usedBasePages + 1).setWidth 64) = none)
    (hj : ∀ e ∈ m'.journal, ¬ e.GrowsLargerTable) :
    allocContiguousPhysicalPagesWithManager depth
      (((m.manager .basePage).usedBasePages + 1).setWidth 64) .basePage m ≠ .ok address m' := by
  intro h
  induction depth generalizing m address m' with
  | zero => simp [allocContiguousPhysicalPagesWithManager] at h
  | succ depth ih =>
    rcases allocContiguousPhysicalPagesWithManager_eq_ok.mp h with
      ⟨i, region, hi, -⟩ | ⟨-, -, larger, m₁, hl, ha, hf⟩
    · rw [hfit] at hi
      cases hi
    · have hadd := AddsToJournal.freePhysicalPagesWithManager
        (fun k => AddsToJournal.allocContiguousPhysicalPagesWithManager depth k .basePage) .basePage
      have hm₁ := allocContiguous_basePMM (PageSize.larger?_ne_basePage hl) ha fun e he =>
        hj e (((hadd _).of_ok hf).subset (List.mem_append_left _ he))
      obtain ⟨m₂, hroom, hrest⟩ := freePhysicalPagesWithManager_cons_eq_ok.mp hf
      rw [freePhysicalPagesWithManager, pure_eq_ok] at hrest
      obtain ⟨-, rfl⟩ := hrest
      rw [PhysicalMemory.journal_setManager] at hj
      rcases ensureCapacity_eq_ok.mp hroom with ⟨hlt, -⟩ | ⟨-, newBuf, m₃, halloc, rfl⟩
      · rw [PhysicalMemory.manager_note, hm₁] at hlt
        omega
      · rw [PhysicalMemory.journal_setManager, PhysicalMemory.journal_note] at hj
        refine @ih newBuf ((m₁.note (.stolen (((m.manager .basePage).usedBasePages + 1).setWidth
          64))).note (.tableFull .basePage)) m₃ ?_ ?_ ?_ ?_
        · simpa only [PhysicalMemory.manager_note, hm₁] using hfull
        · simpa only [PhysicalMemory.manager_note, hm₁] using hfit
        · exact fun e he => hj e (List.mem_append_left _ he)
        · simpa only [PhysicalMemory.manager_note, hm₁] using halloc

/-- A decrease leaves the size of the table. -/
@[simp] theorem PhysicalMemoryManager.usedBasePages_decrease (p : PhysicalMemoryManager)
    (s : PageSize) (index : Nat) (region : PagedMemory) (n : U64) :
    (p.decrease s index region n).usedBasePages = p.usedBasePages := by
  unfold PhysicalMemoryManager.decrease
  split <;> rfl

/-- Frames for a larger table of the base manager come from its own list, so the table
has as many frames afterwards as before. -/
theorem usedBasePages_of_grow
    (hfull : (m.manager .basePage).cap.toNat ≤ (m.manager .basePage).memory.length)
    (h : allocContiguousPhysicalPagesWithManager depth
      (((m.manager .basePage).usedBasePages + 1).setWidth 64) .basePage m = .ok address m')
    (hj : ∀ e ∈ m'.journal, ¬ e.GrowsLargerTable) :
    (m'.manager .basePage).usedBasePages = (m.manager .basePage).usedBasePages := by
  cases depth with
  | zero => simp [allocContiguousPhysicalPagesWithManager] at h
  | succ depth =>
    rcases allocContiguousPhysicalPagesWithManager_eq_ok.mp h with
      ⟨i, region, -, -, -, -, rfl⟩ | ⟨hfit, -⟩
    · rw [PhysicalMemory.manager_setManager, PhysicalMemoryManager.usedBasePages_decrease]
    · exact absurd h (not_grow_by_stealing hfull hfit hj)

end Grow

/-! ## What all moves have in common -/

section Moves

variable {scope : Scope} {c d : Custody}

/-- A move adds to the journal only, and only what is within the scope. -/
theorem Move.journal (h : Move scope c d) :
    ∃ added, d.1.journal = c.1.journal ++ added ∧ ∀ e ∈ added, e.Within scope := by
  cases h with
  | note e within harmless => exact ⟨[e], rfl, by simpa using within⟩
  | cut s larger n address next within =>
    exact ⟨[.stolen n], rfl, by simpa [Event.Within] using within⟩
  | @moveTable m hand s address used same mono =>
    exact ⟨[.tableMoved s (m.manager s).usedBasePages], by simp, by simp [Event.Within]⟩
  | takeMisplaced s larger index region n boundary next may =>
    exact ⟨[.unalignedPromotion larger], by simp, by simpa [Event.Within] using may⟩
  | take | list => exact ⟨[], by simp, by simp⟩
  | reorder | narrow | promote | discard => exact ⟨[], by simp, by simp⟩

/-- A move adds to the journal only. -/
theorem Move.journal_prefix (h : Move scope c d) : c.1.journal <+: d.1.journal := by
  obtain ⟨added, hd, -⟩ := h.journal
  rw [hd]
  exact List.prefix_append _ _

/-- A property of moves that holds under a condition on the journal. -/
theorem Moves.keep {p : Custody → Prop} {allowed : Event → Prop} (h : Moves scope c d)
    (hstep : ∀ c d, Move scope c d → (∀ e ∈ d.1.journal, allowed e) → p c → p d)
    (hd : ∀ e ∈ d.1.journal, allowed e) (hc : p c) : p d :=
  kept_of_moves (q := fun c => ∀ e ∈ c.1.journal, allowed e)
    (fun _ _ hm hj e he => hj e (hm.journal_prefix.subset he)) hstep h hd hc

/-- So do any number of moves. -/
theorem Moves.journal_prefix (h : Moves scope c d) : c.1.journal <+: d.1.journal := by
  induction h with
  | refl => exact List.prefix_rfl
  | tail _ hlast ih => exact ih.trans hlast.journal_prefix

/-- What the moves note is within the scope. -/
theorem Moves.within (h : Moves scope c d) :
    ∀ e ∈ d.1.journal, e ∈ c.1.journal ∨ e.Within scope := by
  induction h with
  | refl => exact fun e he => .inl he
  | tail _ hlast ih =>
    obtain ⟨added, hd, hadded⟩ := hlast.journal
    intro e he
    rw [hd, List.mem_append] at he
    exact he.elim (ih e) fun h => .inr (hadded e h)

/-- Tables only grow, unless the count of their frames wraps. -/
theorem Move.usedBasePages_le (h : Move scope c d) (hj : ∀ e ∈ d.1.journal, ¬ e.WrapsTableSize)
    (t : PageSize) :
    (c.1.manager t).usedBasePages.toNat ≤ (d.1.manager t).usedBasePages.toNat := by
  cases h with
  | note | cut => simp
  | reorder | narrow | promote | discard => exact le_rfl
  | take | takeMisplaced =>
    simp only [PhysicalMemory.manager_note, PhysicalMemory.manager_setManager_eq]
    split
    · rename_i ht
      simp [ht]
    · exact le_rfl
  | list s region =>
    simp only [PhysicalMemory.manager_setManager_eq]
    split
    · rename_i ht
      simp [ht, PhysicalMemoryManager.push]
    · exact le_rfl
  | @moveTable m hand s address used same mono =>
    simp only [PhysicalMemory.manager_setManager_eq]
    split
    · rename_i ht
      have hno : ¬ (m.manager s).usedBasePages + 1 = 0 :=
        hj (.tableMoved s (m.manager s).usedBasePages) (by simp)
      rw [ht]
      simp only [PhysicalMemoryManager.moveTable]
      bv_omega
    · simp

/-- No table gets smaller. -/
theorem Moves.usedBasePages_le (h : Moves scope c d)
    (hj : ∀ e ∈ d.1.journal, ¬ e.WrapsTableSize) (t : PageSize) :
    (c.1.manager t).usedBasePages.toNat ≤ (d.1.manager t).usedBasePages.toNat :=
  h.keep (p := fun d => (c.1.manager t).usedBasePages.toNat ≤
      (d.1.manager t).usedBasePages.toNat)
    (fun _ _ hm hj hc => hc.trans (hm.usedBasePages_le hj t)) hj le_rfl

end Moves

/-! ## The operations are sequences of moves -/

section Conducts

variable {scope : Scope} {m : PhysicalMemory} {s : PageSize} {n : U64} {depth : Nat}
  {hand : List Holding}

/-- Reading a manager is no move. -/
theorem conducts_getMemoryManager :
    Conducts (Move scope) (getMemoryManager s) m hand (fun _ => hand) :=
  fun _ => .refl

/-- A harmless note is a move. -/
theorem conducts_note {e : Event} (he : e.Within scope) (harmless : ¬ e.BreaksOwnership) :
    Conducts (Move scope) (note e) m hand (fun _ => hand) :=
  Conducts.modify fun _ => Move.note e he harmless

/-- Listing a region takes it out of the hand. -/
theorem conducts_push {page : PagedMemory} :
    Conducts (Move scope) (updateManager s fun p => p.push page) m (⟨s, page⟩ :: hand)
      (fun _ => hand) :=
  Conducts.modify fun _ => Move.list s page

/-- A decrease is the move that takes the first pages of a region. -/
theorem conducts_decreasePages_of_move {index : Nat} {region : PagedMemory} {taken : Holding}
    (hr : (m.manager s).memory[index]? = some region)
    (hmove : n ≤ region.numberOfPages → ∀ hand, Move scope (m, hand)
      (m.setManager s ((m.manager s).decrease s index region n), taken :: hand)) :
    Conducts (Move scope) (decreasePages s index n) m hand (fun _ => taken :: hand) := by
  refine conducts_getMemoryManager.bind fun p m' hp => ?_
  obtain ⟨rfl, rfl⟩ := getMemoryManager_eq_ok.mp hp
  simp only [hr]
  by_cases hle : n ≤ region.numberOfPages
  · simp only [assert, if_pos hle]
    exact Conducts.modify fun rest => hmove hle (hand ++ rest)
  · simp only [assert, if_neg hle]
    exact Conducts.throw

/-- A decrease takes the first pages of a region in hand. -/
theorem conducts_decreasePages {index : Nat} {region : PagedMemory}
    (hr : (m.manager s).memory[index]? = some region) :
    Conducts (Move scope) (decreasePages s index n) m hand
      (fun _ => ⟨s, ⟨region.pageStart, n⟩⟩ :: hand) :=
  conducts_decreasePages_of_move hr fun hle _ => Move.take s index region n hr hle

/-- What an allocation of contiguous pages at a depth conducts. -/
def ConductsContiguous (scope : Scope) (depth : Nat) : Prop :=
  ∀ (m : PhysicalMemory) (n : U64) (s : PageSize), n.toNat ≤ scope.limit →
    Conducts (Move scope) (allocContiguousPhysicalPagesWithManager depth n s) m []
      (fun address => [⟨s, ⟨address, n⟩⟩])

/-- Making room keeps the hand. -/
theorem conducts_ensureCapacity (hlimit : 2 ^ 32 ≤ scope.limit)
    (ha : ConductsContiguous scope depth) :
    Conducts (Move scope) (ensureCapacity
      (fun k => allocContiguousPhysicalPagesWithManager depth k .basePage) s) m hand
      (fun _ => hand) := by
  refine conducts_getMemoryManager.bind fun p m' hp => ?_
  obtain ⟨rfl, rfl⟩ := getMemoryManager_eq_ok.mp hp
  split
  · rename_i hfull
    refine conducts_getMemoryManager.bind fun p m' hp => ?_
    obtain ⟨rfl, rfl⟩ := getMemoryManager_eq_ok.mp hp
    refine (conducts_note (e := .tableFull s) trivial id).bind fun _ m₁ hm₁ => ?_
    obtain rfl := note_eq_ok.mp hm₁
    have hn : (((m.manager s).usedBasePages + 1).setWidth 64).toNat ≤ scope.limit := by
      refine le_trans ?_ hlimit
      rw [BitVec.toNat_setWidth_of_le (by norm_num)]
      exact (BitVec.isLt _).le
    have hcall := ha (m.note (.tableFull s)) _ .basePage hn
    refine (hcall.frame hand).bind fun newBuf m₂ hm₂ => ?_
    have hmoves : Moves scope _ _ := hcall.ok hm₂ []
    refine Conducts.modify fun rest => Move.moveTable s newBuf _ ?_ ?_
    · rintro rfl hj
      simpa using usedBasePages_of_grow (m := m.note _) (by simpa using hfull) hm₂ hj
    · intro hj
      simpa using hmoves.usedBasePages_le hj s
  · exact Conducts.pure fun _ => hand

/-- Freeing regions lists them. -/
theorem conducts_freePhysicalPagesWithManager (hlimit : 2 ^ 32 ≤ scope.limit)
    (ha : ConductsContiguous scope depth) (pages : List PagedMemory) :
    Conducts (Move scope) (freePhysicalPagesWithManager
      (fun k => allocContiguousPhysicalPagesWithManager depth k .basePage) s pages) m
      (pages.map (Holding.mk s) ++ hand) (fun _ => hand) := by
  induction pages generalizing m with
  | nil => exact Conducts.pure fun _ => hand
  | cons page pages ih =>
    rw [freePhysicalPagesWithManager, List.map_cons, List.cons_append]
    exact (conducts_ensureCapacity hlimit ha).bind fun _ _ _ =>
      conducts_push.bind fun _ _ _ => ih

/-- Freeing regions lists what was in hand. -/
theorem conducts_freePhysicalPages (hlimit : 2 ^ 32 ≤ scope.limit)
    (ha : ConductsContiguous scope depth) (pages : List PagedMemory) :
    Conducts (Move scope) (freePhysicalPages depth pages s) m (pages.map (Holding.mk s))
      (fun _ => []) := by
  have hfree : Conducts (Move scope) (freePhysicalPages depth pages s) m
      (pages.map (Holding.mk s) ++ []) (fun _ => []) :=
    conducts_freePhysicalPagesWithManager hlimit ha pages
  rwa [List.append_nil] at hfree

/-- The number of larger pages stolen for a request is at most the request. -/
theorem toNat_ceilingDivValue_le (n : U64) : (ceilingDivValue n 512).toNat ≤ n.toNat := by
  have h512 : IsTwoPow (512 : U64) 9 := rfl
  rw [ceilingDivValue, h512.toNat_ctz, BitVec.toNat_ushiftRight, Nat.shiftRight_eq_div_pow]
  bv_omega

/-- An allocation of contiguous pages ends with the pages in hand. -/
theorem conducts_allocContiguousPhysicalPages (hlimit : 2 ^ 32 ≤ scope.limit) :
    ConductsContiguous scope depth := by
  induction depth with
  | zero => exact fun _ _ _ _ => Conducts.throw
  | succ depth ih =>
    intro m n s hn
    refine conducts_getMemoryManager.bind fun p m' hp => ?_
    obtain ⟨rfl, rfl⟩ := getMemoryManager_eq_ok.mp hp
    split
    · split
      · exact Conducts.throw
      · rename_i region hr
        exact (conducts_decreasePages hr).bind fun _ _ _ =>
          Conducts.pure fun (address : U64) => [Holding.mk s ⟨address, n⟩]
    · split
      · exact Conducts.throw
      · split
        · exact Conducts.throw
        · rename_i larger hl
          refine (ih m _ larger ((toNat_ceilingDivValue_le n).trans hn)).bind fun address m₁ _ => ?_
          have hcut : Conducts (Move scope) (note (.stolen n)) m₁
              [⟨larger, ⟨address, ceilingDivValue n 512⟩⟩] fun _ =>
              [⟨s, ⟨address + n * s.value, toSmallerPages (ceilingDivValue n 512) - n⟩⟩,
                ⟨s, ⟨address, n⟩⟩] :=
            Conducts.modify fun _ => Move.cut s larger n address hl hn
          exact hcut.bind fun _ _ _ =>
            (conducts_freePhysicalPagesWithManager hlimit ih [_]).bind fun _ _ _ =>
              Conducts.pure fun (address : U64) => [Holding.mk s ⟨address, n⟩]

/-- The order of the hand does not matter. -/
theorem moves_reorder {left right : List Holding} (h : left.Perm right) :
    Moves scope (m, left) (m, right) := .single (.reorder h)

/-- The loop over the listed regions ends with the chunks it wrote in hand. -/
theorem conducts_takeListedPages (hslot : ∀ k, scope.slot k) {regions : List PagedMemory}
    {slot : Nat} {requested : U32} (hm : (m.manager s).memory.reverse = regions) :
    Conducts (Move scope) (takeListedPages s regions slot requested) m []
      (fun r => r.1.map (Holding.mk s)) := by
  induction regions generalizing m slot requested with
  | nil => exact fun _ => .refl
  | cons region rest ih =>
    rw [← m.manager_note s (.slotWritten slot)] at hm
    obtain ⟨hat, hpop, hrest⟩ := PhysicalMemoryManager.pop_of_reverse (s := s) hm
    rw [takeListedPages]
    refine (conducts_note (e := .slotWritten slot) (hslot slot) id).bind fun _ m₁ hm₁ => ?_
    obtain rfl := note_eq_ok.mp hm₁
    split
    · exact (conducts_decreasePages hat).bind fun _ _ _ => fun _ => .refl
    · have htake : Conducts (Move scope) (updateManager s fun p => p.pop)
          (m.note (.slotWritten slot)) [] fun _ => [⟨s, region⟩] := by
        refine Conducts.modify fun hand => ?_
        beta_reduce
        rw [hpop]
        exact Move.take s rest.length region region.numberOfPages hat (BitVec.le_refl _)
      refine htake.bind fun _ m₂ hm₂ => ?_
      rw [← PhysicalMemory.manager_setManager (m.note _) s (PhysicalMemoryManager.pop _),
        updateManager_eq_ok.mp hm₂] at hrest
      refine ((ih hrest).frame [⟨s, region⟩]).bind fun r _ _ hand => ?_
      exact moves_reorder (by simp)

/-- Chunks of larger pages are read as chunks of smaller pages. -/
theorem moves_narrow {larger : PageSize} (hl : s.larger? = some larger) {chunks : List PagedMemory}
    (hfits : ∀ chunk ∈ chunks, chunk.numberOfPages.toNat < 2 ^ 32) :
    Moves scope (m, chunks.map (Holding.mk larger) ++ hand)
      (m, (chunks.map fun page =>
        { page with numberOfPages := page.numberOfPages * 512 }).map (Holding.mk s) ++ hand) := by
  induction chunks generalizing hand with
  | nil => exact .refl
  | cons chunk chunks ih =>
    have hfirst : Move scope (m, ⟨larger, chunk⟩ :: (chunks.map (Holding.mk larger) ++ hand)) _ :=
      Move.narrow s larger chunk hl (hfits chunk (List.mem_cons_self ..))
    refine .head hfirst ((moves_reorder List.perm_middle.symm).trans ?_)
    refine (ih (fun c hc => hfits c (List.mem_cons_of_mem _ hc))).trans ?_
    exact moves_reorder List.perm_middle

/-- An allocation of pages ends with its chunks in hand. -/
theorem conducts_allocPhysicalPagesWithManager (hlimit : 2 ^ 32 ≤ scope.limit)
    (hslot : ∀ k, scope.slot k) {slot : Nat} {len : U64} :
    Conducts (Move scope) (allocPhysicalPagesWithManager depth slot len s) m []
      (fun pages => pages.map (Holding.mk s)) := by
  induction depth generalizing m slot len s with
  | zero => exact Conducts.throw
  | succ depth ih =>
    refine conducts_getMemoryManager.bind fun p m' hp => ?_
    obtain ⟨rfl, rfl⟩ := getMemoryManager_eq_ok.mp hp
    refine (conducts_takeListedPages hslot rfl).bind fun r m₁ hm₁ => ?_
    obtain ⟨pages, left⟩ := r
    cases left with
    | none => exact fun _ => .refl
    | some requested =>
      cases hl : s.larger? with
      | none => exact Conducts.throw
      | some larger =>
        refine ((ih).frame (pages.map (Holding.mk s))).bind fun largerPage m₂ hm₂ => ?_
        have ha : ConductsContiguous scope depth := conducts_allocContiguousPhysicalPages hlimit
        have hfree := (conducts_freePhysicalPages (m := m₂) (s := s) hlimit ha
          (largerPage.map fun page =>
            { page with numberOfPages := page.numberOfPages * 512 })).frame
              (pages.map (Holding.mk s))
        refine (hfree.before_move fun hand => ?_).bind fun _ m₃ _ => ?_
        · rw [List.append_assoc, List.append_assoc]
          exact moves_narrow hl (allocPhysicalPagesWithManager_fits hm₂)
        · refine (ih.frame (pages.map (Holding.mk s))).bind fun added _ _ hand => ?_
          refine moves_reorder ?_
          rw [List.map_append]
          exact List.perm_append_comm.append_right _

end Conducts

end Homegrown.Memory
