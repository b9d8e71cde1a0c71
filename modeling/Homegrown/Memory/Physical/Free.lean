import Homegrown.Memory.Physical.Ownership

/-!
# The free memory

The regions that the managers list, whatever their tables are. An operation that moves no
table exchanges free memory with the regions in hand: `Moves.free_eq` is the equation of
sets that this comes to.
-/

namespace Homegrown.Memory

/-- The regions that the managers list. -/
def PhysicalMemory.freeSpans (m : PhysicalMemory) : List Span :=
  m.basePMM.memory.map (PagedMemory.span .basePage) ++
    m.largePMM.memory.map (PagedMemory.span .largePage) ++
    m.hugePMM.memory.map (PagedMemory.span .hugePage)

/-- The addresses of the listed regions. -/
def PhysicalMemory.free (m : PhysicalMemory) : Set Nat := {a | ∃ x ∈ m.freeSpans, a ∈ x}

/-- The listed regions lie in the address space at multiples of their page size, and do not
overlap. -/
structure PhysicalMemory.FreeSound (m : PhysicalMemory) : Prop where
  bounded : ∀ s, ∀ r ∈ (m.manager s).memory, r.Bounded s
  aligned : ∀ s, ∀ r ∈ (m.manager s).memory, s.bytes ∣ r.pageStart.toNat
  disjoint : m.freeSpans.Pairwise Span.Disjoint

/-- The event changes a table, or promotes a region at the wrong place. -/
def Event.ChangesTables : Event → Prop
  | .tableMoved _ _ | .unalignedPromotion _ => True
  | _ => False

instance (e : Event) : Decidable e.ChangesTables :=
  match e with
  | .tableMoved _ _ | .unalignedPromotion _ => isTrue trivial
  | .tableFull _ | .stolen _ | .slotWritten _ => isFalse id

/-! ## Without the tables -/

/-- The manager with a table without frames. -/
def PhysicalMemoryManager.withoutTable (p : PhysicalMemoryManager) : PhysicalMemoryManager :=
  { p with buf := 0, usedBasePages := 0 }

/-- The managers with tables without frames. -/
def PhysicalMemory.withoutTables (m : PhysicalMemory) : PhysicalMemory where
  basePMM := m.basePMM.withoutTable
  largePMM := m.largePMM.withoutTable
  hugePMM := m.hugePMM.withoutTable
  journal := m.journal

/-- The custody with tables without frames. -/
def Custody.withoutTables (c : Custody) : Custody := (c.1.withoutTables, c.2)

section WithoutTables

variable {m : PhysicalMemory} {s : PageSize} {p : PhysicalMemoryManager} {c d : Custody}
  {scope : Scope}

/-- A manager without its table. -/
theorem PhysicalMemory.manager_withoutTables :
    m.withoutTables.manager s = (m.manager s).withoutTable := by
  cases s <;> rfl

/-- Replacing a manager, without the tables. -/
theorem PhysicalMemory.withoutTables_setManager :
    (m.setManager s p).withoutTables = m.withoutTables.setManager s p.withoutTable := by
  cases s <;> rfl

/-- A decrease does not concern the table. -/
theorem PhysicalMemoryManager.withoutTable_decrease {index : Nat} {region : PagedMemory} {n : U64} :
    (p.decrease s index region n).withoutTable = p.withoutTable.decrease s index region n := by
  unfold decrease
  split <;> rfl

/-- A move that changes no table is one without the tables. -/
theorem Move.withoutTables (h : Move scope c d) (hj : ∀ e ∈ d.1.journal, ¬ e.ChangesTables) :
    Move scope c.withoutTables d.withoutTables := by
  cases h with
  | note e within harmless => exact .note e within harmless
  | reorder perm => exact .reorder perm
  | @take m hand s index region n listed le =>
    have hmove : Move scope (m.withoutTables, hand) _ := .take s index region n
      (by rw [PhysicalMemory.manager_withoutTables]; exact listed) le
    rw [PhysicalMemory.manager_withoutTables, ← PhysicalMemoryManager.withoutTable_decrease,
      ← PhysicalMemory.withoutTables_setManager] at hmove
    exact hmove
  | @list m hand s region =>
    have hmove : Move scope (m.withoutTables, ⟨s, region⟩ :: hand) _ := .list s region
    rw [PhysicalMemory.manager_withoutTables] at hmove
    change Move scope (m.withoutTables, _) ((m.setManager s _).withoutTables, hand)
    rw [PhysicalMemory.withoutTables_setManager]
    exact hmove
  | cut s larger n address next within => exact .cut s larger n address next within
  | narrow s larger region next fits => exact .narrow s larger region next fits
  | @moveTable m hand s address used same mono =>
    exact (hj (.tableMoved s (m.manager s).usedBasePages) (by simp) trivial).elim
  | @takeMisplaced m hand s larger index region n boundary next may listed le pos aligned near =>
    exact (hj (.unalignedPromotion larger) (by simp) trivial).elim
  | promote s larger address n next aligned => exact .promote s larger address n next aligned
  | discard s address => exact .discard s address

/-- Moves that change no table are moves without the tables. -/
theorem Moves.withoutTables (h : Moves scope c d) (hj : ∀ e ∈ d.1.journal, ¬ e.ChangesTables) :
    Moves scope c.withoutTables d.withoutTables :=
  h.keep (p := fun d => Moves scope c.withoutTables d.withoutTables)
    (fun _ _ hm hj hd => hd.tail (hm.withoutTables hj)) hj .refl

/-- Tables without frames cover nothing. -/
theorem PhysicalMemory.count_withoutTables (a : Nat) :
    Span.count m.withoutTables.spans a = Span.count m.freeSpans a := by
  have htable (p : PhysicalMemoryManager) : p.withoutTable.table = ⟨0, 0⟩ := by
    simp [PhysicalMemoryManager.table, PhysicalMemoryManager.withoutTable]
  simp only [PhysicalMemory.spans, PhysicalMemoryManager.spans, PhysicalMemory.freeSpans,
    Span.count_append, Span.count_cons' _ (List.map _ _), PhysicalMemory.withoutTables, htable,
    Span.count_empty, Nat.zero_add]
  rfl

end WithoutTables

/-! ## The effect of moves -/

section Effect

variable {m m' : PhysicalMemory} {hand : List Holding} {scope : Scope}

/-- The free spans are those of the listed regions. -/
theorem PhysicalMemory.mem_freeSpans {x : Span} :
    x ∈ m.freeSpans ↔ ∃ s, ∃ r ∈ (m.manager s).memory, r.span s = x := by
  simp only [PhysicalMemory.freeSpans, List.mem_append, List.mem_map]
  constructor
  · rintro ((h | h) | h)
    · exact ⟨.basePage, h⟩
    · exact ⟨.largePage, h⟩
    · exact ⟨.hugePage, h⟩
  · rintro ⟨s, h⟩
    cases s with
    | basePage => exact .inl (.inl h)
    | largePage => exact .inl (.inr h)
    | hugePage => exact .inr h

/-- An address is free when a listed region covers it. -/
theorem PhysicalMemory.mem_free_iff {a : Nat} : a ∈ m.free ↔ 0 < Span.count m.freeSpans a :=
  Span.count_pos_iff.symm

/-- Sound free memory is a sound custody without the tables. -/
theorem PhysicalMemory.FreeSound.sound (h : m.FreeSound) :
    Custody.Sound (Custody.withoutTables (m, [])) := by
  refine ⟨fun x hx a hax => ?_, ⟨fun s => ?_, fun s => ?_, by simp [Custody.withoutTables]⟩⟩
  · have hpos : 0 < Span.count m.freeSpans a := by
      rw [← PhysicalMemory.count_withoutTables]
      refine Span.count_pos_iff.mpr ⟨x, ?_, hax⟩
      simpa [Custody.spans, Custody.withoutTables] using hx
    obtain ⟨y, hy, hay⟩ := Span.count_pos_iff.mp hpos
    obtain ⟨s, r, hr, rfl⟩ := PhysicalMemory.mem_freeSpans.mp hy
    have hb := PagedMemory.bounded_iff.mp (h.bounded s r hr)
    simp only [PagedMemory.span, Span.mem_mk] at hay
    omega
  · rw [Custody.withoutTables, PhysicalMemory.manager_withoutTables]
    exact h.aligned s
  · rw [Custody.withoutTables, PhysicalMemory.manager_withoutTables]
    exact Nat.dvd_zero _

/-- Moves that change no table exchange free memory with the regions in hand. -/
theorem Moves.free_count (h : Moves scope (m, []) (m', hand)) (hlimit : scope.limit + 512 ≤ 2 ^ 64)
    (hm : m.FreeSound) (hj : ∀ e ∈ m'.journal, ¬ e.ChangesTables) :
    (∀ x ∈ hand, x.pageSize.bytes ∣ x.memory.pageStart.toNat) ∧
      (∀ a, Span.count m'.freeSpans a + Span.count (hand.map Holding.span) a =
        Span.count m.freeSpans a) ∧ m'.FreeSound := by
  have hbreaks : ∀ e ∈ m'.journal, ¬ e.BreaksOwnership := by
    intro e he hb
    apply hj e he
    cases e with
    | tableMoved | unalignedPromotion => trivial
    | _ => exact hb
  obtain ⟨hsound, hcount⟩ := (h.withoutTables hj).count_eq hlimit hbreaks hm.sound
  have hexchange (a : Nat) : Span.count m'.freeSpans a + Span.count (hand.map Holding.span) a =
      Span.count m.freeSpans a := by
    have ha := hcount a
    simp only [Custody.withoutTables, Custody.count_spans, PhysicalMemory.count_withoutTables,
      List.map_nil, Span.count_nil, Nat.add_zero] at ha
    exact ha
  refine ⟨hsound.aligned.inHand, hexchange, fun s r hr => ?_, fun s r hr => ?_, ?_⟩
  · apply hsound.bounded_listed
    rw [Custody.withoutTables, PhysicalMemory.manager_withoutTables]
    exact hr
  · apply hsound.aligned.listed s r
    rw [Custody.withoutTables, PhysicalMemory.manager_withoutTables]
    exact hr
  · rw [Span.pairwise_disjoint_iff_count]
    intro a
    have hle := Span.pairwise_disjoint_iff_count.mp hm.disjoint a
    have ha := hexchange a
    omega

/-- What is in hand after moves that change no table was free, without overlap, and exactly
the rest is free now. -/
theorem Moves.free_eq (h : Moves scope (m, []) (m', hand)) (hlimit : scope.limit + 512 ≤ 2 ^ 64)
    (hm : m.FreeSound) (hj : ∀ e ∈ m'.journal, ¬ e.ChangesTables) :
    (hand.map Holding.span).Pairwise Span.Disjoint ∧
      (∀ x ∈ hand, ∀ a ∈ x.span, a ∈ m.free) ∧
      m'.free = m.free \ {a | ∃ x ∈ hand, a ∈ x.span} := by
  obtain ⟨-, hcount, -⟩ := h.free_count hlimit hm hj
  have hone := Span.pairwise_disjoint_iff_count.mp hm.disjoint
  have hheld (a : Nat) : 0 < Span.count (hand.map Holding.span) a ↔ ∃ x ∈ hand, a ∈ x.span := by
    rw [Span.count_pos_iff]
    constructor
    · rintro ⟨_, hspan, ha⟩
      obtain ⟨x, hx, rfl⟩ := List.mem_map.mp hspan
      exact ⟨x, hx, ha⟩
    · rintro ⟨x, hx, ha⟩
      exact ⟨x.span, List.mem_map_of_mem hx, ha⟩
  refine ⟨?_, fun x hx a ha => ?_, ?_⟩
  · rw [Span.pairwise_disjoint_iff_count]
    intro a
    have h1 := hone a
    have h2 := hcount a
    omega
  · rw [PhysicalMemory.mem_free_iff, ← hcount a]
    have hpos := (hheld a).mpr ⟨x, hx, ha⟩
    omega
  · ext a
    rw [Set.mem_sdiff, Set.mem_ofPred_eq, ← hheld, PhysicalMemory.mem_free_iff,
      PhysicalMemory.mem_free_iff]
    have h1 := hone a
    have h2 := hcount a
    omega

end Effect

end Homegrown.Memory
