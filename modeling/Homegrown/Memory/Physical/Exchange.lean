import Homegrown.Memory.Physical.Request

/-!
# Moves while no table is full

A table is moved only after it was noted as full, so calls in which no table becomes full
change no table. What such calls take comes out of the free memory, whatever else the
callers hold, and what they give back goes into it.
-/

namespace Homegrown.Memory

/-- Where a table was moved, some table was full. -/
def PhysicalMemory.MovesNoted (m : PhysicalMemory) : Prop :=
  ∀ s used, .tableMoved s used ∈ m.journal → ¬ m.NoneFull

section Noted

variable {m m' : PhysicalMemory} {s : PageSize}

/-- Without notes no table was moved. -/
theorem PhysicalMemory.movesNoted_fresh : m.fresh.MovesNoted := fun _ _ hmem => by cases hmem

/-- Only the journal matters. -/
theorem PhysicalMemory.MovesNoted.of_journal_eq (h : m.MovesNoted)
    (heq : m'.journal = m.journal) : m'.MovesNoted := by
  intro s used hmem hfull
  rw [heq] at hmem
  exact h s used hmem fun t => by
    rw [← heq]
    exact hfull t

/-- Other notes move no table. -/
theorem keeps_note (e : Event) (he : ∀ s used, e ≠ .tableMoved s used) :
    Keeps PhysicalMemory.MovesNoted (note e) := by
  refine Keeps.modify fun m h => ?_
  intro s used hmem hfull
  rw [PhysicalMemory.journal_note, List.mem_append, List.mem_singleton] at hmem
  exact h s used (hmem.resolve_right fun heq => he s used heq.symm)
    (hfull.of_prefix (List.prefix_append _ _))

/-- Updating a manager notes no move. -/
theorem keeps_updateManager (s : PageSize) (f : PhysicalMemoryManager → PhysicalMemoryManager) :
    Keeps PhysicalMemory.MovesNoted (updateManager s f) :=
  Keeps.modify fun _ h => h.of_journal_eq (PhysicalMemory.journal_setManager ..)

/-- Reading a manager notes no move. -/
theorem keeps_getMemoryManager (s : PageSize) :
    Keeps PhysicalMemory.MovesNoted (getMemoryManager s) := fun _ => id

/-- Nor does a decrease. -/
theorem keeps_decreasePages (s : PageSize) (index : Nat) (n : U64) :
    Keeps PhysicalMemory.MovesNoted (decreasePages s index n) := by
  refine (keeps_getMemoryManager s).bind fun manager => ?_
  split
  · exact Keeps.throw _
  · refine Keeps.bind ?_ fun _ => keeps_updateManager s _
    unfold Memory.assert
    split
    · exact Keeps.pure _
    · exact Keeps.throw _

/-- The table of a manager that is moved was noted as full just before. -/
theorem keeps_ensureCapacity {allocate : U64 → Kernel U64} (ha : ∀ n, AddsToJournal (allocate n))
    (s : PageSize) : Keeps PhysicalMemory.MovesNoted (ensureCapacity allocate s) := by
  intro m h
  by_cases hfull : (m.manager s).cap.toNat ≤ (m.manager s).memory.length
  · exact fun _ _ _ hnone => hnone s (tableFull_mem_of_full ha hfull)
  · have hsame : ensureCapacity allocate s m = .ok () m :=
      ensureCapacity_eq_ok.mpr (.inl ⟨not_le.mp hfull, rfl⟩)
    rw [hsame]
    exact h

/-- Freeing moves tables only when they were noted as full. -/
theorem keeps_freePhysicalPagesWithManager {allocate : U64 → Kernel U64}
    (ha : ∀ n, AddsToJournal (allocate n)) (s : PageSize) (pages : List PagedMemory) :
    Keeps PhysicalMemory.MovesNoted (freePhysicalPagesWithManager allocate s pages) := by
  induction pages with
  | nil => exact Keeps.pure _
  | cons page pages ih =>
    exact (keeps_ensureCapacity ha s).bind fun _ => (keeps_updateManager s _).bind fun _ => ih

/-- So does allocating contiguous pages. -/
theorem keeps_allocContiguousPhysicalPagesWithManager (depth : Nat) : ∀ (n : U64) (s : PageSize),
    Keeps PhysicalMemory.MovesNoted (allocContiguousPhysicalPagesWithManager depth n s) := by
  induction depth with
  | zero => exact fun _ _ => Keeps.throw _
  | succ depth ih =>
    intro n s
    refine (keeps_getMemoryManager s).bind fun manager => ?_
    split
    · split
      · exact Keeps.throw _
      · exact (keeps_decreasePages _ _ _).bind fun _ => Keeps.pure _
    · split
      · exact Keeps.throw _
      · split
        · exact Keeps.throw _
        · refine (ih _ _).bind fun address => (keeps_note _ (by simp)).bind fun _ => ?_
          exact (keeps_freePhysicalPagesWithManager
            (fun n => AddsToJournal.allocContiguousPhysicalPagesWithManager depth n _) s _).bind
            fun _ => Keeps.pure _

/-- Taking listed regions moves no table. -/
theorem keeps_takeListedPages (s : PageSize) (regions : List PagedMemory) :
    ∀ (slot : Nat) (requested : U32),
      Keeps PhysicalMemory.MovesNoted (takeListedPages s regions slot requested) := by
  induction regions with
  | nil => exact fun _ _ => Keeps.pure _
  | cons region rest ih =>
    intro slot requested
    refine (keeps_note _ (by simp)).bind fun _ => ?_
    split
    · exact (keeps_decreasePages _ _ _).bind fun _ => Keeps.pure _
    · exact (keeps_updateManager s _).bind fun _ => (ih _ _).bind fun _ => Keeps.pure _

/-- Allocating pages moves tables only when they were noted as full. -/
theorem keeps_allocPhysicalPagesWithManager (depth : Nat) :
    ∀ (slot : Nat) (len : U64) (s : PageSize),
      Keeps PhysicalMemory.MovesNoted (allocPhysicalPagesWithManager depth slot len s) := by
  induction depth with
  | zero => exact fun _ _ _ => Keeps.throw _
  | succ depth ih =>
    intro slot len s
    refine (keeps_getMemoryManager s).bind fun manager => (keeps_takeListedPages s _ _ _).bind ?_
    rintro ⟨pages, left⟩
    cases left with
    | none => exact Keeps.pure _
    | some requested =>
      dsimp only
      split
      · exact Keeps.throw _
      · refine (ih _ _ _).bind fun larger => ?_
        refine (keeps_freePhysicalPagesWithManager
          (fun n => AddsToJournal.allocContiguousPhysicalPagesWithManager depth n _) s _).bind
          fun _ => ?_
        exact (ih _ _ _).bind fun _ => Keeps.pure _

end Noted

/-! ## What moves exchange -/

section Exchange

variable {c d : Custody} {usable : Set Nat}

/-- The regions and what is in hand are in range and aligned without the tables too. -/
theorem Custody.Sound.withoutTables (h : c.Sound) : c.withoutTables.Sound := by
  obtain ⟨m, hand⟩ := c
  refine ⟨fun x hx a ha => ?_, ⟨fun s => ?_, fun s => ?_, h.aligned.inHand⟩⟩
  · have hpos := Span.count_pos_iff.mpr ⟨x, hx, ha⟩
    rw [Custody.withoutTables, Custody.count_spans, PhysicalMemory.count_withoutTables] at hpos
    by_cases hfree : 0 < Span.count m.freeSpans a
    · obtain ⟨y, hy, hay⟩ := Span.count_pos_iff.mp hfree
      obtain ⟨s, r, hr, rfl⟩ := PhysicalMemory.mem_freeSpans.mp hy
      refine h.inRange (r.span s) (List.mem_append_left _ ?_) a hay
      exact PhysicalMemory.mem_spans_iff.mpr
        ⟨s, List.mem_cons_of_mem _ (List.mem_map_of_mem hr)⟩
    · have hhand : 0 < Span.count (hand.map Holding.span) a := by
        dsimp only at hpos
        omega
      obtain ⟨y, hy, hay⟩ := Span.count_pos_iff.mp hhand
      exact h.inRange y (List.mem_append_right _ hy) a hay
  · rw [Custody.withoutTables, PhysicalMemory.manager_withoutTables]
    exact h.aligned.listed s
  · rw [Custody.withoutTables, PhysicalMemory.manager_withoutTables]
    exact Nat.dvd_zero _

/-- The listed regions and what is in hand do not overlap. -/
theorem Custody.Owns.count_le (h : c.Owns usable) (a : Nat) :
    Span.count c.1.freeSpans a + Span.count (c.2.map Holding.span) a ≤ 1 := by
  have hone := Span.pairwise_disjoint_iff_count.mp h.cover.disjoint a
  have hlisted : Span.count c.1.freeSpans a ≤ Span.count c.1.spans a := by
    simp only [PhysicalMemory.spans, PhysicalMemoryManager.spans, PhysicalMemory.freeSpans,
      Span.count_append, Span.count_cons' _ (List.map _ _)]
    omega
  rw [Custody.spans, Span.count_append] at hone
  omega

/-- Moves for callers, none of whose tables is full, change no table. -/
theorem Moves.not_changesTables {m m' : PhysicalMemory} {hand hand' : List Holding}
    (h : Moves callScope (m.fresh, hand) (m', hand')) (hnoted : m'.MovesNoted)
    (hfull : m'.NoneFull) : ∀ e ∈ m'.journal, ¬ e.ChangesTables := by
  intro e he hc
  have hwithin := (h.within e he).resolve_left (by simp [PhysicalMemory.fresh])
  cases e with
  | tableMoved s used => exact hnoted s used he hfull
  | unalignedPromotion s => exact hwithin
  | tableFull | stolen | slotWritten => exact hc

/-- What such moves take in hand is aligned. -/
theorem Moves.aligned_inHand {m m' : PhysicalMemory} {hand : List Holding}
    (h : Moves callScope (m.fresh, []) (m', hand)) (hm : m.FreeSound) (hnoted : m'.MovesNoted)
    (hfull : m'.NoneFull) : ∀ x ∈ hand, x.pageSize.bytes ∣ x.memory.pageStart.toNat :=
  (h.free_count (by norm_num [callScope]) ⟨hm.bounded, hm.aligned, hm.disjoint⟩
    (h.not_changesTables hnoted hfull)).1

/-- Moves for callers, none of whose tables is full, exchange free memory with the regions
in hand. -/
theorem Moves.exchange {m m' : PhysicalMemory} {hand hand' : List Holding}
    (h : Moves callScope (m.fresh, hand) (m', hand')) (hm : Custody.Owns (m, hand) usable)
    (hnoted : m'.MovesNoted) (hfull : m'.NoneFull) :
    Custody.Owns (m', hand') usable ∧
      ∀ a, Span.count m'.freeSpans a + Span.count (hand'.map Holding.span) a =
        Span.count m.freeSpans a + Span.count (hand.map Holding.span) a := by
  have hlimit : callScope.limit + 512 ≤ 2 ^ 64 := by norm_num [callScope]
  have hmoved := h.not_changesTables hnoted hfull
  have hbreaks : ∀ e ∈ m'.journal, ¬ e.BreaksOwnership := by
    intro e he hb
    apply hmoved e he
    cases e with
    | tableMoved | unalignedPromotion => trivial
    | tableFull | stolen | slotWritten => exact hb
  refine ⟨h.owns hlimit hbreaks hm.fresh, fun a => ?_⟩
  have hcount := ((Moves.withoutTables h hmoved).count_eq hlimit hbreaks
    hm.fresh.sound.withoutTables).2 a
  simp only [Custody.withoutTables, Custody.count_spans, PhysicalMemory.count_withoutTables]
    at hcount
  exact hcount

end Exchange

end Homegrown.Memory
