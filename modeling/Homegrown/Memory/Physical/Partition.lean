import Homegrown.Memory.Physical.Init

/-!
# The memory map is partitioned

What `initPhysicalMemoryManager` leaves in the managers, compared with the memory
map it was given. Two quantities tell a partition from what is left when something
went wrong: the size of all spans together, which grows when the table of a larger
manager is moved, and the sum of the covered addresses, which grows when memory is
promoted from a region that starts between two larger pages.
-/

namespace Homegrown.Memory

/-! ## The size of what is owned -/

section Total

variable {c d : Custody} {scope : Scope} {m : PhysicalMemory} {p : PhysicalMemoryManager}
  {s larger : PageSize} {n : U64}

/-- Replacing a manager exchanges its spans. -/
theorem PhysicalMemory.total_setManager (m : PhysicalMemory) (s : PageSize)
    (p : PhysicalMemoryManager) :
    Span.total (m.setManager s p).spans + Span.total ((m.manager s).spans s) =
      Span.total m.spans + Span.total (p.spans s) := by
  cases s <;> simp only [PhysicalMemory.spans, PhysicalMemory.setManager, PhysicalMemory.manager,
    Span.total_append] <;> omega

/-- A decrease takes so many pages out of the spans. -/
theorem PhysicalMemoryManager.total_decrease {index : Nat} {region : PagedMemory}
    (hr : p.memory[index]? = some region) (hn : n ≤ region.numberOfPages) :
    Span.total ((p.decrease s index region n).spans s) + n.toNat * s.bytes =
      Span.total (p.spans s) := by
  have hle : n.toNat ≤ region.numberOfPages.toNat := hn
  unfold PhysicalMemoryManager.decrease
  split
  · rename_i heq
    subst heq
    have hperm := Span.total_perm ((swapRemove_perm hr).map (PagedMemory.span s))
    simp only [List.map_cons, Span.total_cons, PagedMemory.span] at hperm
    simp only [PhysicalMemoryManager.spans, PhysicalMemoryManager.table, Span.total_cons]
    omega
  · have hset := Span.total_set (p.memory.map (PagedMemory.span s)) (PagedMemory.span s
      ⟨region.pageStart + n * s.value, region.numberOfPages - n⟩) (i := index)
      (s := region.span s) (by simp [hr])
    have hsum : region.numberOfPages.toNat * s.bytes =
        n.toNat * s.bytes + (region.numberOfPages - n).toNat * s.bytes := by
      rw [BitVec.toNat_sub_of_le hn, ← Nat.add_mul, Nat.add_sub_cancel' hle]
    simp only [PagedMemory.span] at hset
    simp only [PhysicalMemoryManager.spans, PhysicalMemoryManager.table, List.map_set,
      Span.total_cons, PagedMemory.span]
    omega

/-- A region that is listed adds its pages. -/
theorem PhysicalMemoryManager.total_push {region : PagedMemory} :
    Span.total ((p.push region).spans s) =
      Span.total (p.spans s) + region.numberOfPages.toNat * s.bytes := by
  simp [PhysicalMemoryManager.push, PhysicalMemoryManager.spans, PhysicalMemoryManager.table,
    PagedMemory.span]
  omega

/-- Moving a table lists as many pages of the manager's size as the old table had frames. -/
theorem PhysicalMemoryManager.total_moveTable (address : U64) :
    Span.total ((p.moveTable address).spans s) + p.usedBasePages.toNat * pageFrameSize =
      Span.total (p.spans s) + (p.usedBasePages + 1).toNat * pageFrameSize +
        p.usedBasePages.toNat * s.bytes := by
  have hwide : (p.usedBasePages.setWidth 64).toNat = p.usedBasePages.toNat :=
    BitVec.toNat_setWidth_of_le (by norm_num)
  simp only [PhysicalMemoryManager.moveTable, PhysicalMemoryManager.spans,
    PhysicalMemoryManager.table, List.map_append, List.map_cons, List.map_nil, Span.total_cons,
    Span.total_append, Span.total_nil, PagedMemory.span, hwide]
  omega

/-- The memory of a custody is that of the managers and the hand. -/
theorem Custody.total_spans (m : PhysicalMemory) (hand : List Holding) :
    Span.total (Custody.spans (m, hand)) =
      Span.total m.spans + Span.total (hand.map Holding.span) := Span.total_append _ _

/-- A region in hand adds its pages. -/
theorem Custody.total_hold (s : PageSize) (r : PagedMemory) (hand : List Holding) :
    Span.total ((Holding.mk s r :: hand).map Holding.span) =
      r.numberOfPages.toNat * s.bytes + Span.total (hand.map Holding.span) := by
  rw [List.map_cons, Span.total_cons]
  rfl

/-- Pages that are taken leave the managers. -/
theorem PhysicalMemory.total_take {index : Nat} {region : PagedMemory}
    (hr : (m.manager s).memory[index]? = some region) (hn : n ≤ region.numberOfPages) :
    Span.total (m.setManager s ((m.manager s).decrease s index region n)).spans +
      n.toNat * s.bytes = Span.total m.spans := by
  have hset := m.total_setManager s ((m.manager s).decrease s index region n)
  have hdec := PhysicalMemoryManager.total_decrease (s := s) hr hn
  omega

/-- The pages of a stolen region are those of the request and the rest. -/
theorem bytes_cut (hnext : s.larger? = some larger) (hn : n.toNat + 511 < 2 ^ 64) :
    (ceilingDivValue n 512).toNat * larger.bytes = n.toNat * s.bytes +
      (toSmallerPages (ceilingDivValue n 512) - n).toNat * s.bytes := by
  obtain ⟨hwhole, hle⟩ := toNat_toSmallerPages_ceiling hn
  rw [BitVec.toNat_sub_of_le (by rwa [BitVec.le_def, hwhole]), hwhole,
    PageSize.larger?_bytes hnext, ← Nat.mul_assoc, ← Nat.add_mul, Nat.add_sub_cancel' hle]

/-- The pages of a promoted region are the larger pages and the rest. -/
theorem bytes_promote (hnext : s.larger? = some larger) (n : U64) :
    n.toNat * s.bytes = (toLargerPages (alignDownValue n 512)).toNat * larger.bytes +
      (n - alignDownValue n 512).toNat * s.bytes := by
  obtain ⟨hwhole, hle⟩ := toNat_alignDownValue_512 n
  rw [BitVec.toNat_sub_of_le hle, PageSize.larger?_bytes hnext, ← Nat.mul_assoc, ← hwhole,
    ← Nat.add_mul, Nat.add_sub_cancel' hle]

/-- A table that is moved to as many frames as it needs leaves nothing smaller, and the whole
larger if its pages are larger than frames. -/
theorem Custody.total_moveTable (hand : List Holding) (address : U64) {used : U32}
    (hwrap : (m.manager s).usedBasePages + 1 ≠ 0) (hpos : 0 < (m.manager s).usedBasePages.toNat)
    (hle : used.toNat ≤ (m.manager s).usedBasePages.toNat) :
    let before := Span.total
      (Custody.spans (m, ⟨.basePage, ⟨address, (used + 1).setWidth 64⟩⟩ :: hand))
    let after := Span.total (Custody.spans ((m.note (.tableMoved s
      (m.manager s).usedBasePages)).setManager s ((m.manager s).moveTable address), hand))
    before ≤ after ∧ (s ≠ .basePage → before < after) := by
  intro before after
  have hset := (m.note (.tableMoved s (m.manager s).usedBasePages)).total_setManager s
    ((m.manager s).moveTable address)
  have hmove := PhysicalMemoryManager.total_moveTable (p := m.manager s) (s := s) address
  rw [PhysicalMemory.manager_note, PhysicalMemory.spans_note] at hset
  have hwide : ((used + 1).setWidth 64).toNat = (used + 1).toNat :=
    BitVec.toNat_setWidth_of_le (by norm_num)
  have hframes : (used + 1).toNat ≤ ((m.manager s).usedBasePages + 1).toNat := by
    bv_omega
  have hgiven := Nat.mul_le_mul_right pageFrameSize hframes
  have hbefore : before = Span.total m.spans +
      ((used + 1).toNat * pageFrameSize + Span.total (hand.map Holding.span)) := by
    change Span.total (Custody.spans _) = _
    rw [Custody.total_spans, Custody.total_hold, hwide]
    rfl
  have hafter : after = _ := Custody.total_spans _ _
  have hbytes := Nat.mul_le_mul_left (m.manager s).usedBasePages.toNat
    (show pageFrameSize ≤ s.bytes by cases s <;> decide)
  refine ⟨by omega, fun hs => ?_⟩
  have hlarger : (m.manager s).usedBasePages.toNat * pageFrameSize <
      (m.manager s).usedBasePages.toNat * s.bytes := by
    refine Nat.mul_lt_mul_of_pos_left ?_ hpos
    cases s with
    | basePage => exact absurd rfl hs
    | largePage | hugePage => decide
  omega

/-- Unless the number of frames of a table wraps, a move makes nothing smaller, and moving
the table of a larger manager makes the whole larger. -/
theorem Move.total_cases (h : Move scope c d) (hlimit : scope.limit + 512 ≤ 2 ^ 64)
    (hj : ∀ e ∈ d.1.journal, ¬ e.WrapsTableSize)
    (hused : ∀ s, 0 < (c.1.manager s).usedBasePages.toNat) :
    Span.total c.spans < Span.total d.spans ∨ Span.total c.spans ≤ Span.total d.spans ∧
      ∀ e ∈ d.1.journal, e.GrowsLargerTable → e ∈ c.1.journal := by
  cases h with
  | note e within harmless =>
    exact .inr ⟨le_rfl, fun e' he hg => (List.mem_append.mp he).resolve_right fun h =>
      harmless (List.mem_singleton.mp h ▸ hg.breaks)⟩
  | @reorder m hand hand' perm =>
    refine .inr ⟨?_, fun e he _ => he⟩
    rw [Custody.total_spans, Custody.total_spans, Span.total_perm (perm.map Holding.span)]
  | @take m hand s index region n listed le =>
    refine .inr ⟨?_, fun e he _ => by simpa using he⟩
    have htake := PhysicalMemory.total_take listed le
    rw [Custody.total_spans, Custody.total_spans, Custody.total_hold]
    dsimp only
    omega
  | @list m hand s region =>
    refine .inr ⟨?_, fun e he _ => by simpa using he⟩
    have hset := m.total_setManager s ((m.manager s).push region)
    rw [PhysicalMemoryManager.total_push] at hset
    rw [Custody.total_spans, Custody.total_spans, Custody.total_hold]
    omega
  | @cut m hand s larger n address next within =>
    refine .inr ⟨?_, fun e he hg => (List.mem_append.mp he).resolve_right fun h =>
      (List.mem_singleton.mp h ▸ hg : Event.GrowsLargerTable (.stolen n))⟩
    have hsum := bytes_cut (n := n) next (by omega)
    simp only [Custody.total_spans, Custody.total_hold, PhysicalMemory.spans_note]
    omega
  | @narrow m hand s larger region next fits =>
    refine .inr ⟨?_, fun e he _ => he⟩
    have hspan := PagedMemory.span_smaller (r := region) next (by omega)
    simp only [PagedMemory.span, Span.mk.injEq, true_and] at hspan
    simp only [Custody.total_spans, Custody.total_hold]
    omega
  | @moveTable m hand s address used same mono =>
    have hwrap : ¬ (m.manager s).usedBasePages + 1 = 0 :=
      hj (.tableMoved s (m.manager s).usedBasePages) (by simp)
    have hle := mono fun e he => hj e (by simpa using .inl he)
    obtain ⟨hgrown, hlarger⟩ := Custody.total_moveTable hand address hwrap (hused s) hle
    by_cases hs : s = .basePage
    · refine .inr ⟨hgrown, fun e he hg => ?_⟩
      rw [PhysicalMemory.journal_setManager, PhysicalMemory.journal_note] at he
      refine (List.mem_append.mp he).resolve_right fun h => ?_
      rw [List.mem_singleton.mp h] at hg
      exact hg hs
    · exact .inl (hlarger hs)
  | @takeMisplaced m hand s larger index region n boundary next may listed le pos aligned near =>
    refine .inr ⟨?_, fun e he hg => ?_⟩
    · have htake := PhysicalMemory.total_take listed le
      simp only [Custody.total_spans, Custody.total_hold, PhysicalMemory.spans_note]
      omega
    · rw [PhysicalMemory.journal_note, PhysicalMemory.journal_setManager] at he
      exact (List.mem_append.mp he).resolve_right fun h =>
        (List.mem_singleton.mp h ▸ hg : Event.GrowsLargerTable (.unalignedPromotion larger))
  | @promote m hand s larger address n next aligned =>
    refine .inr ⟨?_, fun e he _ => he⟩
    have hsum := bytes_promote next n
    simp only [Custody.total_spans, Custody.total_hold]
    omega
  | discard s address =>
    refine .inr ⟨?_, fun e he _ => he⟩
    simp only [Custody.total_spans, Custody.total_hold]
    simp

end Total

/-! ## Setting up is a sequence of moves -/

/-- The manager has no table yet, unless the table of a larger manager was moved. -/
def PhysicalMemory.Unset (m : PhysicalMemory) (s : PageSize) : Prop :=
  (∀ e ∈ m.journal, ¬ e.GrowsLargerTable) →
    (m.manager s).buf = 0 ∧ (m.manager s).usedBasePages = 1

/-- The frame that a manager without a table seems to have. -/
def placeholder : Holding := ⟨.basePage, ⟨0, 1⟩⟩

/-- A step of setting up the managers: a move, or a manager gets its first table. -/
inductive SetupStep : Custody → Custody → Prop where
  | move {c d : Custody} (h : Move initScope c d) : SetupStep c d
  | install {m : PhysicalMemory} {hand : List Holding} (s : PageSize) (address : U64)
      (unset : m.Unset s) :
      SetupStep (m, ⟨.basePage, ⟨address, 1⟩⟩ :: hand)
        (m.setManager s ((m.manager s).install address), placeholder :: hand)

/-- Any number of steps. -/
abbrev SetupSteps : Custody → Custody → Prop := Relation.ReflTransGen SetupStep

section Setup

variable {c d : Custody} {m m' : PhysicalMemory} {s t pageType : PageSize} {depth rounds : Nat}
  {scope : Scope}

/-- Moves are steps of the setup. -/
theorem Moves.setup (h : Moves initScope c d) : SetupSteps c d :=
  h.lift id fun _ _ => SetupStep.move

/-- A step adds to the journal only. -/
theorem SetupStep.journal_prefix (h : SetupStep c d) : c.1.journal <+: d.1.journal := by
  cases h with
  | move h => exact h.journal_prefix
  | install s address unset =>
    rw [PhysicalMemory.journal_setManager]

/-- A move leaves a manager without a table alone, unless the table of a larger manager
is moved. -/
theorem Move.unset (h : Move scope c d) (hs : s ≠ .basePage) (hc : c.1.Unset s) :
    d.1.Unset s := by
  intro hj
  obtain ⟨hbuf, hused⟩ := hc fun e he => hj e (h.journal_prefix.subset he)
  cases h with
  | note | cut => simpa using ⟨hbuf, hused⟩
  | reorder | narrow | promote | discard => exact ⟨hbuf, hused⟩
  | take | takeMisplaced =>
    simp only [PhysicalMemory.manager_note, PhysicalMemory.manager_setManager_eq]
    split
    · rename_i hs
      subst hs
      simpa using ⟨hbuf, hused⟩
    · exact ⟨hbuf, hused⟩
  | list =>
    simp only [PhysicalMemory.manager_setManager_eq]
    split
    · rename_i hs
      subst hs
      exact ⟨hbuf, hused⟩
    · exact ⟨hbuf, hused⟩
  | @moveTable m hand t address used same mono =>
    have ht : t = .basePage := not_not.mp (hj (.tableMoved t (m.manager t).usedBasePages) (by simp))
    rw [ht, PhysicalMemory.manager_setManager_of_ne _ _ _ _ hs, PhysicalMemory.manager_note]
    exact ⟨hbuf, hused⟩

/-- Moves leave a manager that is not set up yet. -/
theorem Moves.unset (h : Moves scope c d) (hs : s ≠ .basePage) (hc : c.1.Unset s) :
    d.1.Unset s := by
  induction h with
  | refl => exact hc
  | tail _ hlast ih => exact hlast.unset hs ih

/-- A run of `initPMM` that returns: the first table of the manager in hand, and the
promotion of regions to it. -/
theorem initPMM_moves (h : initPMM depth rounds pageType m = .ok () m') :
    pageType ≠ .basePage ∧ ∃ address m₁,
      (∀ hand, Moves initScope (m, hand) (m₁, ⟨.basePage, ⟨address, 1⟩⟩ :: hand)) ∧
      ∀ hand, Moves initScope
        (m₁.setManager pageType ((m₁.manager pageType).install address), hand) (m', hand) := by
  unfold initPMM at h
  cases hs : pageType.smaller? with
  | none => simp [hs] at h
  | some s =>
    have hl : s.larger? = some pageType := by
      cases pageType <;> cases hs <;> rfl
    simp only [hs, bind_eq_ok, getMemoryManager_eq_ok, assert_eq_ok, updateManager_eq_ok] at h
    obtain ⟨_, _, ⟨rfl, rfl⟩, _, _, ⟨⟨hused, -⟩, rfl⟩, address, m₁, halloc, _, _, rfl, hloop⟩ := h
    rw [hused] at halloc
    refine ⟨PageSize.larger?_ne_basePage hl, address, m₁, fun hand => ?_, fun hand => ?_⟩
    · have ha : ConductsContiguous initScope depth := conducts_allocContiguousPhysicalPages le_rfl
      exact (ha m _ _ (by decide)).ok halloc hand
    · have hmoves : Moves initScope (_, hand ++ []) (_, hand ++ []) :=
        (conducts_promoteRegions hl rounds 0).ok hloop []
      rwa [List.append_nil] at hmoves

/-- The setup of a manager is made of steps. -/
theorem initPMM_setup (h : initPMM depth rounds pageType m = .ok () m') (hm : m.Unset pageType)
    (hand : List Holding) : SetupSteps (m, hand) (m', placeholder :: hand) := by
  obtain ⟨hbase, address, m₁, htable, hpromote⟩ := initPMM_moves h
  have hm₁ : m₁.Unset pageType := Moves.unset (htable []) hbase hm
  exact ((Moves.setup (htable hand)).tail (.install pageType address hm₁)).trans
    (Moves.setup (hpromote _))

/-- The setup of a manager leaves those that are not set up yet. -/
theorem initPMM_unset (h : initPMM depth rounds pageType m = .ok () m') (ht : t ≠ .basePage)
    (hne : t ≠ pageType) (hm : m.Unset t) : m'.Unset t := by
  obtain ⟨-, address, m₁, htable, hpromote⟩ := initPMM_moves h
  have hm₁ : m₁.Unset t := Moves.unset (htable []) ht hm
  refine Moves.unset (hpromote []) ht fun hj => ?_
  simp only [PhysicalMemory.journal_setManager] at hj
  rw [PhysicalMemory.manager_setManager_of_ne _ _ _ _ hne]
  exact hm₁ hj

/-- Setting up the managers from the memory of the usable descriptors. -/
theorem initFromDescriptors_setup {descriptor : MemoryDescriptor}
    {descriptors : List MemoryDescriptor}
    (h : initFromDescriptors depth rounds descriptor descriptors m = .ok () m')
    (hlarge : m.Unset .largePage) (hhuge : m.Unset .hugePage) :
    SetupSteps (m, ((descriptors.filter fun d => canBeUsedByOS d.type).map
        MemoryDescriptor.memory).map (Holding.mk .basePage) ++ [⟨.basePage, descriptor.memory⟩])
      (m', [placeholder, placeholder]) := by
  simp only [initFromDescriptors, bind_eq_ok] at h
  obtain ⟨pages, m₁, hcollect, _, m₂, hpages, _, m₃, hholder, _, m₄, hinit, hinit'⟩ := h
  have ha : ConductsContiguous initScope depth := conducts_allocContiguousPhysicalPages le_rfl
  have h₁ : Moves initScope _ _ := (conducts_collectFreeMemory descriptors []).ok hcollect
    [⟨.basePage, descriptor.memory⟩]
  have h₂ : Moves initScope _ _ := (conducts_freePhysicalPages le_rfl ha pages).ok hpages
    [⟨.basePage, descriptor.memory⟩]
  have h₃ : Moves initScope _ _ := (conducts_freePhysicalPages le_rfl ha [_]).ok hholder []
  rw [List.nil_append] at h₁
  have hmoves := (h₁.trans h₂).trans h₃
  have hlarge₃ : m₃.Unset .largePage := Moves.unset hmoves (by decide) hlarge
  have hhuge₃ : m₃.Unset .hugePage := Moves.unset hmoves (by decide) hhuge
  have hhuge₄ := initPMM_unset hinit (by decide) (by decide) hhuge₃
  exact (Moves.setup hmoves).trans
    ((initPMM_setup hinit hlarge₃ _).trans (initPMM_setup hinit' hhuge₄ _))

/-! ## What the steps do to the size and to the covered addresses -/

/-- A step adds memory, or neither loses any nor moves the table of a larger manager. -/
theorem SetupStep.total_cases (h : SetupStep c d) (hj : ∀ e ∈ d.1.journal, ¬ e.WrapsTableSize)
    (hused : ∀ s, 0 < (c.1.manager s).usedBasePages.toNat) :
    (∀ s, 0 < (d.1.manager s).usedBasePages.toNat) ∧
      (Span.total c.spans < Span.total d.spans ∨ Span.total c.spans ≤ Span.total d.spans ∧
        ∀ e ∈ d.1.journal, e.GrowsLargerTable → e ∈ c.1.journal) := by
  cases h with
  | move h =>
    exact ⟨fun s => (hused s).trans_le (h.usedBasePages_le hj s),
      h.total_cases (by decide) hj hused⟩
  | @install m hand s address unset =>
    refine ⟨fun t => ?_, .inr ⟨?_, fun e he _ => by simpa using he⟩⟩
    · simp only [PhysicalMemory.manager_setManager_eq]
      split
      · exact hused s
      · exact hused t
    · have hset := m.total_setManager s ((m.manager s).install address)
      have hsame : Span.total (((m.manager s).install address).spans s) =
          Span.total ((m.manager s).spans s) := by
        simp [PhysicalMemoryManager.spans, PhysicalMemoryManager.install,
          PhysicalMemoryManager.table]
      rw [placeholder]
      simp only [Custody.total_spans, Custody.total_hold]
      omega

/-- The later custody is no smaller than the earlier one, and larger when the table of a
larger manager was moved. -/
structure Custody.Enlarges (c d : Custody) : Prop where
  frames : ∀ s, 0 < (d.1.manager s).usedBasePages.toNat
  total_le : Span.total c.spans ≤ Span.total d.spans
  total_lt : (∃ e ∈ d.1.journal, e.GrowsLargerTable) → Span.total c.spans < Span.total d.spans

/-- Steps that move such a table add memory. -/
theorem SetupSteps.enlarges (h : SetupSteps c d) (hj : ∀ e ∈ d.1.journal, ¬ e.WrapsTableSize)
    (hused : ∀ s, 0 < (c.1.manager s).usedBasePages.toNat)
    (hc : ∀ e ∈ c.1.journal, ¬ e.GrowsLargerTable) : c.Enlarges d := by
  refine kept_of_moves (p := c.Enlarges)
    (q := fun d : Custody => ∀ e ∈ d.1.journal, ¬ e.WrapsTableSize)
    (fun _ _ hs hj e he => hj e (hs.journal_prefix.subset he)) ?_ h hj
    ⟨hused, le_rfl, fun ⟨e, he, hg⟩ => absurd hg (hc e he)⟩
  rintro x y hstep hj ⟨hused, hle, hlt⟩
  obtain ⟨hused', hmore | ⟨hsame, hold⟩⟩ := hstep.total_cases hj hused
  · exact ⟨hused', hle.trans hmore.le, fun _ => hle.trans_lt hmore⟩
  · exact ⟨hused', hle.trans hsame,
      fun ⟨e, he, hg⟩ => (hlt ⟨e, hold e he hg, hg⟩).trans_le hsame⟩

/-- Memory that is shifted ends up higher. -/
theorem Custody.Shifted.moment_lt (h : c.Shifted d) (hc : c.Sound) :
    Span.moment (2 ^ 64) c.spans < Span.moment (2 ^ 64) d.spans := by
  obtain ⟨x, y, hsize, hpos, hlt, hcount, hcovered⟩ := h
  refine Span.moment_lt hcount hsize hpos hlt ?_
  have hlast : y.stop - 1 ∈ y := by
    rw [Span.mem_iff, Span.stop]
    omega
  obtain ⟨z, hz, haz⟩ := Span.count_pos_iff.mp (hcovered _ hlast)
  have hbelow := hc.inRange z hz _ haz
  omega

/-- Shifted memory is in range. -/
theorem Custody.Shifted.sound (h : c.Shifted d) (hc : c.Sound) (ha : d.Aligned) : d.Sound := by
  obtain ⟨x, y, -, -, -, hcount, hcovered⟩ := h
  refine hc.of_count (fun a h0 => ?_) ha
  have hy : Span.count [y] a = 0 := by
    rw [Span.count_singleton, if_neg]
    intro hay
    have hpos := hcovered a hay
    omega
  have ha := hcount a
  omega

/-- A step that moves no table of a larger manager keeps the spans sound. It leaves each
address covered as often as before, or is a promotion that makes the moment larger. -/
theorem SetupStep.count_cases (h : SetupStep c d)
    (hj : ∀ e ∈ d.1.journal, ¬ e.GrowsLargerTable) (hc : c.Sound) :
    d.Sound ∧ ((∀ a, Span.count d.spans a = Span.count c.spans a) ∧
        (∀ e ∈ d.1.journal, e.BreaksOwnership → e ∈ c.1.journal) ∨
      (∃ e ∈ d.1.journal, e.BreaksOwnership) ∧
        Span.moment (2 ^ 64) c.spans < Span.moment (2 ^ 64) d.spans) := by
  cases h with
  | move h =>
    have haligned := h.aligned hj hc.aligned
    rcases h.count_cases (by decide) hj hc with ⟨heq, hold⟩ | ⟨⟨larger, hmem⟩, hshift⟩
    · exact ⟨hc.of_count (fun a h0 => (heq a).trans h0) haligned, .inl ⟨heq, hold⟩⟩
    · exact ⟨hshift.sound hc haligned, .inr ⟨⟨_, hmem, trivial⟩, hshift.moment_lt hc⟩⟩
  | @install m hand s address unset =>
    obtain ⟨hbuf, hused⟩ := unset (by simpa using hj)
    have heq : ∀ a, Span.count (Custody.spans
        (m.setManager s ((m.manager s).install address), placeholder :: hand)) a =
        Span.count (Custody.spans (m, ⟨.basePage, ⟨address, 1⟩⟩ :: hand)) a := by
      intro a
      have hset := m.count_setManager s ((m.manager s).install address) a
      have hnew : ((m.manager s).install address).table =
          PagedMemory.span .basePage ⟨address, 1⟩ := by
        rw [PhysicalMemoryManager.table, PhysicalMemoryManager.install, hused]
        rfl
      have hold : (m.manager s).table = PagedMemory.span .basePage ⟨0, 1⟩ := by
        rw [PhysicalMemoryManager.table, hbuf, hused]
        rfl
      simp only [PhysicalMemoryManager.spans, hnew, hold] at hset
      rw [Span.count_cons' _ (List.map _ _), Span.count_cons' _ (List.map _ _)] at hset
      change _ + (_ + Span.count ((m.manager s).memory.map (PagedMemory.span s)) a) = _ at hset
      rw [Custody.count_spans, Custody.count_spans, placeholder, Custody.count_hold,
        Custody.count_hold]
      change _ = _ + (_ + Span.count ((m.manager s).memory.map (PagedMemory.span s)) a) at hset
      omega
    refine ⟨hc.of_count (fun a h0 => (heq a).trans h0) ?_,
      .inl ⟨heq, fun e he _ => by simpa using he⟩⟩
    refine hc.aligned.setManager (hc.aligned.listed s) (hc.aligned.inHand _ (List.mem_cons_self ..))
      fun x hx => ?_
    rcases List.mem_cons.mp hx with rfl | hx
    · exact dvd_zero _
    · exact hc.aligned.inHand x (List.mem_cons_of_mem _ hx)

/-- Either nothing was noted that breaks ownership and each address is covered as often as
before, or something was and the moment is larger. -/
def Custody.KeepsOrShifts (c d : Custody) : Prop :=
  (∀ a, Span.count d.spans a = Span.count c.spans a) ∧ (∀ e ∈ d.1.journal, ¬ e.BreaksOwnership) ∨
    (∃ e ∈ d.1.journal, e.BreaksOwnership) ∧
      Span.moment (2 ^ 64) c.spans < Span.moment (2 ^ 64) d.spans

/-- Steps that move no such table keep the memory or shift it. -/
theorem SetupSteps.keepsOrShifts (h : SetupSteps c d)
    (hj : ∀ e ∈ d.1.journal, ¬ e.GrowsLargerTable) (hc : c.Sound)
    (hold : ∀ e ∈ c.1.journal, ¬ e.BreaksOwnership) : c.KeepsOrShifts d := by
  refine (kept_of_moves (p := fun d : Custody => d.Sound ∧ c.KeepsOrShifts d)
    (q := fun d : Custody => ∀ e ∈ d.1.journal, ¬ e.GrowsLargerTable)
    (fun _ _ hs hj e he => hj e (hs.journal_prefix.subset he)) ?_ h hj
    ⟨hc, .inl ⟨fun _ => rfl, hold⟩⟩).2
  rintro x y hstep hj ⟨hsound, hx⟩
  obtain ⟨hsound', hy⟩ := hstep.count_cases hj hsound
  refine ⟨hsound', ?_⟩
  rcases hx with ⟨heq, hclean⟩ | ⟨⟨e, he, hb⟩, hlt⟩
  · rcases hy with ⟨heq', hold'⟩ | ⟨hbroken, hlt'⟩
    · exact .inl ⟨fun a => (heq' a).trans (heq a), fun e he hb => hclean e (hold' e he hb) hb⟩
    · exact .inr ⟨hbroken, (Span.moment_congr heq _).symm.trans_lt hlt'⟩
  · refine .inr ⟨⟨e, hstep.journal_prefix.subset he, hb⟩, ?_⟩
    rcases hy with ⟨heq', -⟩ | ⟨-, hlt'⟩
    · exact hlt.trans_eq (Span.moment_congr heq' _).symm
    · exact hlt.trans hlt'

end Setup

/-! ## The memory map -/

/-- The addresses of the descriptors that the kernel can use. -/
def usableMemory (descriptors : List MemoryDescriptor) : Set Nat :=
  {a | ∃ d ∈ descriptors, canBeUsedByOS d.type ∧ a ∈ d.memory.span .basePage}

/-- The spans of the descriptors that the kernel can use. -/
def usableSpans (descriptors : List MemoryDescriptor) : List Span :=
  ((descriptors.filter fun d => canBeUsedByOS d.type).map MemoryDescriptor.memory).map
    (PagedMemory.span .basePage)

/-- What a memory map of the firmware is like. -/
structure FirmwareMap (descriptors : List MemoryDescriptor) : Prop where
  aligned : ∀ d ∈ descriptors, pageFrameSize ∣ d.physicalStart.toNat
  nonEmpty : ∀ d ∈ descriptors, 0 < d.numberOfPages.toNat
  inRange : ∀ d ∈ descriptors, d.memory.Bounded .basePage
  disjoint : descriptors.Pairwise fun d e =>
    (d.memory.span .basePage).Disjoint (e.memory.span .basePage)

section Map

variable {descriptors rest : List MemoryDescriptor} {d : MemoryDescriptor} {m m' : PhysicalMemory}
  {depth rounds : Nat}

/-- The usable memory of a firmware map is covered once. -/
theorem FirmwareMap.exactCover (h : FirmwareMap descriptors) :
    Span.ExactCover (usableSpans descriptors) (usableMemory descriptors) := by
  refine ⟨?_, fun a => ?_⟩
  · rw [usableSpans, List.pairwise_map, List.pairwise_map]
    exact h.disjoint.filter _
  · simp only [usableSpans, usableMemory, List.mem_map, List.mem_filter, Set.mem_ofPred_eq]
    constructor
    · rintro ⟨d, hd, husable, ha⟩
      exact ⟨_, ⟨_, ⟨d, ⟨hd, husable⟩, rfl⟩, rfl⟩, ha⟩
    · rintro ⟨_, ⟨_, ⟨d, ⟨hd, husable⟩, rfl⟩, rfl⟩, ha⟩
      exact ⟨d, hd, husable, ha⟩

/-- The next usable descriptor is the first of the usable ones. -/
theorem nextValidDescriptor_eq_some (h : nextValidDescriptor descriptors = some (d, rest)) :
    (descriptors.filter fun d => canBeUsedByOS d.type) =
      d :: rest.filter fun d => canBeUsedByOS d.type := by
  induction descriptors with
  | nil => cases h
  | cons d' ds ih =>
    unfold nextValidDescriptor at h
    split at h
    · rename_i hd
      cases h
      simp only [List.filter_cons, hd, if_true]
    · rename_i hd
      simp only [List.filter_cons, hd]
      exact ih h

/-- The descriptor without its first frame, which holds the first table. -/
def MemoryDescriptor.tail (d : MemoryDescriptor) : MemoryDescriptor :=
  { d with physicalStart := d.physicalStart + 4096, numberOfPages := d.numberOfPages - 1 }

/-- A descriptor covers its first frame and its tail. -/
theorem MemoryDescriptor.count_tail (hb : d.memory.Bounded .basePage)
    (hn : 0 < d.numberOfPages.toNat) (a : Nat) :
    Span.count [d.memory.span .basePage] a =
      Span.count [PagedMemory.span .basePage ⟨d.physicalStart, 1⟩] a +
        Span.count [d.tail.memory.span .basePage] a := by
  refine PagedMemory.count_split (n := 1) hb ?_ a
  rw [BitVec.le_def]
  exact hn

/-- The spans at the start of the setup. -/
theorem PhysicalMemory.spans_bootstrap (m : PhysicalMemory) (buf : U64) :
    (m.bootstrap buf).spans =
      [PagedMemory.span .basePage ⟨buf, 1⟩, placeholder.span, placeholder.span] := rfl

/-- What is in hand at first, besides the first table and the placeholders: the memory of
the usable descriptors. -/
theorem Custody.sound_bootstrap (hmap : FirmwareMap descriptors) {buf : U64}
    {pages : List PagedMemory} (hbuf : pageFrameSize ∣ buf.toNat)
    (hpages : ∀ r ∈ pages, pageFrameSize ∣ r.pageStart.toNat)
    (hcount : ∀ a, Span.count [PagedMemory.span .basePage ⟨buf, 1⟩] a +
      Span.count (pages.map (PagedMemory.span .basePage)) a =
        Span.count (usableSpans descriptors) a) :
    Custody.Sound (m.bootstrap buf, pages.map (Holding.mk .basePage)) ∧
      ∀ a, Span.count (Custody.spans (m.bootstrap buf, pages.map (Holding.mk .basePage))) a =
        Span.count (usableSpans descriptors) a +
          Span.count [placeholder.span, placeholder.span] a := by
  have hhand : (pages.map (Holding.mk .basePage)).map Holding.span =
      pages.map (PagedMemory.span .basePage) := List.map_map
  have hall : ∀ a, Span.count (Custody.spans
      (m.bootstrap buf, pages.map (Holding.mk .basePage))) a =
      Span.count (usableSpans descriptors) a +
        Span.count [placeholder.span, placeholder.span] a := by
    intro a
    rw [Custody.count_spans, hhand, PhysicalMemory.spans_bootstrap, Span.count_cons', ← hcount a]
    omega
  refine ⟨⟨fun x hx a hax => ?_, ⟨fun s => ?_, fun s => ?_, fun x hx => ?_⟩⟩, hall⟩
  · have hpos : 0 < Span.count (usableSpans descriptors) a +
        Span.count [placeholder.span, placeholder.span] a := by
      rw [← hall a]
      exact Span.count_pos_iff.mpr ⟨x, hx, hax⟩
    rcases Nat.add_pos_iff_pos_or_pos.mp hpos with husable | hplaceholder
    · obtain ⟨y, hy, hay⟩ := Span.count_pos_iff.mp husable
      simp only [usableSpans, List.mem_map, List.mem_filter] at hy
      obtain ⟨_, ⟨d, ⟨hd, -⟩, rfl⟩, rfl⟩ := hy
      exact hay.2.trans_le (hmap.inRange d hd)
    · obtain ⟨y, hy, hay⟩ := Span.count_pos_iff.mp hplaceholder
      obtain rfl : y = placeholder.span := by simpa using hy
      exact hay.2.trans_le (by decide)
  · cases s <;> exact fun r hr => absurd hr List.not_mem_nil
  · cases s
    · exact hbuf
    · exact dvd_zero _
    · exact dvd_zero _
  · obtain ⟨r, hr, rfl⟩ := List.mem_map.mp hx
    exact hpages r hr

/-- The usable memory is the first frame of the first usable descriptor, the rest of that descriptor
and the usable memory behind it. -/
theorem count_usableSpans_of_next (hmap : FirmwareMap descriptors)
    (hfirst : nextValidDescriptor descriptors = some (d, rest)) (a : Nat) :
    Span.count (usableSpans descriptors) a =
      Span.count [PagedMemory.span .basePage ⟨d.physicalStart, 1⟩] a +
        Span.count [d.tail.memory.span .basePage] a + Span.count (usableSpans rest) a := by
  have hfilter := nextValidDescriptor_eq_some hfirst
  have hd : d ∈ descriptors := (List.mem_filter.mp (by rw [hfilter]; exact List.mem_cons_self)).1
  rw [usableSpans, hfilter, List.map_cons, List.map_cons, Span.count_cons',
    MemoryDescriptor.count_tail (hmap.inRange d hd) (hmap.nonEmpty d hd), usableSpans]

/-- The descriptors behind it are those of whole pages, too. -/
theorem aligned_of_next (hmap : FirmwareMap descriptors)
    (hfirst : nextValidDescriptor descriptors = some (d, rest)) :
    pageFrameSize ∣ d.physicalStart.toNat ∧
      ∀ r ∈ (rest.filter fun d => canBeUsedByOS d.type).map MemoryDescriptor.memory,
        pageFrameSize ∣ r.pageStart.toNat := by
  have hfilter := nextValidDescriptor_eq_some hfirst
  have hmem : ∀ e, e ∈ descriptors.filter (fun d => canBeUsedByOS d.type) → e ∈ descriptors :=
    fun e he => (List.mem_filter.mp he).1
  refine ⟨hmap.aligned d (hmem d (by rw [hfilter]; exact List.mem_cons_self)), fun r hr => ?_⟩
  obtain ⟨e, he, rfl⟩ := List.mem_map.mp hr
  exact hmap.aligned e (hmem e (by rw [hfilter]; exact List.mem_cons_of_mem _ he))

/-- A run of `initPhysicalMemoryManager` that returns starts with the memory of the usable
descriptors in hand and ends with nothing but placeholders in hand. -/
theorem initPhysicalMemoryManager_setup (hmap : FirmwareMap descriptors)
    (h : initPhysicalMemoryManager depth rounds descriptors m = .ok () m') :
    ∃ (buf : U64) (pages : List PagedMemory),
      SetupSteps (m.bootstrap buf, pages.map (Holding.mk .basePage))
        (m', [placeholder, placeholder]) ∧
      pageFrameSize ∣ buf.toNat ∧ (∀ r ∈ pages, pageFrameSize ∣ r.pageStart.toNat) ∧
      ∀ a, Span.count [PagedMemory.span .basePage ⟨buf, 1⟩] a +
        Span.count (pages.map (PagedMemory.span .basePage)) a =
          Span.count (usableSpans descriptors) a := by
  have hunset : ∀ buf : U64,
      (m.bootstrap buf).Unset .largePage ∧ (m.bootstrap buf).Unset .hugePage :=
    fun buf => ⟨fun _ => ⟨rfl, rfl⟩, fun _ => ⟨rfl, rfl⟩⟩
  unfold initPhysicalMemoryManager at h
  simp only [bind_eq_ok, modify_eq_ok] at h
  obtain ⟨_, _, rfl, h⟩ := h
  cases hfirst : nextValidDescriptor descriptors with
  | none => simp [hfirst] at h
  | some next =>
    obtain ⟨d, rest⟩ := next
    simp only [hfirst, bind_eq_ok, modify_eq_ok] at h
    obtain ⟨_, _, rfl, h⟩ := h
    have hsplit := count_usableSpans_of_next hmap hfirst
    obtain ⟨haligned, hlisted⟩ := aligned_of_next hmap hfirst
    change (if d.tail.numberOfPages = 0 then (_ : Kernel Unit) else _) _ = _ at h
    split at h
    · rename_i hempty
      cases hsecond : nextValidDescriptor rest with
      | none => simp [hsecond] at h
      | some next' =>
        obtain ⟨d', rest'⟩ := next'
        simp only [hsecond] at h
        have hfilter' := nextValidDescriptor_eq_some hsecond
        refine ⟨d.physicalStart, (rest'.filter fun d => canBeUsedByOS d.type).map
          MemoryDescriptor.memory ++ [d'.memory], ?_, haligned, fun r hr => ?_, fun a => ?_⟩
        · have hsteps := initFromDescriptors_setup h (hunset _).1 (hunset _).2
          rwa [List.map_append]
        · have hr' :
            r ∈ (rest.filter fun d => canBeUsedByOS d.type).map MemoryDescriptor.memory := by
            rw [hfilter', List.map_cons]
            exact (List.perm_append_singleton _ _).subset hr
          exact hlisted r hr'
        · have hnone : Span.count [d.tail.memory.span .basePage] a = 0 := by
            rw [PagedMemory.span, MemoryDescriptor.memory, hempty]
            simp
          have hperm := Span.count_perm ((List.perm_append_singleton d'.memory
            ((rest'.filter fun d => canBeUsedByOS d.type).map MemoryDescriptor.memory)).map
              (PagedMemory.span .basePage)) a
          rw [hsplit, hnone, hperm, Nat.add_zero, usableSpans, hfilter']
          rfl
    · refine ⟨d.physicalStart, (rest.filter fun d => canBeUsedByOS d.type).map
          MemoryDescriptor.memory ++ [d.tail.memory], ?_, haligned, fun r hr => ?_, fun a => ?_⟩
      · have hsteps := initFromDescriptors_setup h (hunset _).1 (hunset _).2
        rwa [List.map_append]
      · rcases List.mem_append.mp hr with hr | hr
        · exact hlisted r hr
        · rw [List.mem_singleton.mp hr]
          have htail : PageSize.basePage.bytes ∣
              (d.memory.pageStart + 1 * PageSize.basePage.value).toNat :=
            PagedMemory.dvd_page haligned
          exact htail
      · rw [hsplit, List.map_append, Span.count_append, List.map_singleton, usableSpans]
        omega

/-- Exactly when setting up promotes no memory from a region that starts between two
larger pages, and moves no table of a larger manager, do the managers' regions and tables
partition the usable memory. For the second direction, no table may have as many
frames as a 32-bit counter counts. -/
theorem initPhysicalMemoryManager_partitions (hmap : FirmwareMap descriptors)
    (h : initPhysicalMemoryManager depth rounds descriptors m.fresh = .ok () m') :
    ((∀ e ∈ m'.journal, ¬ e.BreaksOwnership) →
      Span.ExactCover m'.spans (usableMemory descriptors)) ∧
    ((∀ e ∈ m'.journal, ¬ e.WrapsTableSize) →
      Span.ExactCover m'.spans (usableMemory descriptors) →
        ∀ e ∈ m'.journal, ¬ e.BreaksOwnership) := by
  obtain ⟨buf, pages, hsteps, hbuf, hpages, hcount⟩ := initPhysicalMemoryManager_setup hmap h
  obtain ⟨hsound, hstart⟩ := Custody.sound_bootstrap (m := m.fresh) hmap hbuf hpages hcount
  have hend : ∀ a, Span.count (Custody.spans (m', [placeholder, placeholder])) a =
      Span.count m'.spans a + Span.count [placeholder.span, placeholder.span] a :=
    fun a => Custody.count_spans m' _ a
  constructor
  · intro hclean
    rcases SetupSteps.keepsOrShifts hsteps (fun e he hg => hclean e he hg.breaks) hsound
      (by simp [PhysicalMemory.bootstrap, PhysicalMemory.fresh]) with ⟨heq, -⟩ | ⟨⟨e, he, hb⟩, -⟩
    · refine hmap.exactCover.congr fun a => ?_
      have h₁ := heq a
      rw [hend, hstart] at h₁
      omega
    · exact absurd hb (hclean e he)
  · intro hwrap hcover
    have hall : ∀ a, Span.count (Custody.spans (m', [placeholder, placeholder])) a =
        Span.count (Custody.spans (m.fresh.bootstrap buf, pages.map (Holding.mk .basePage))) a := by
      intro a
      rw [hend, hstart, hcover.count_eq hmap.exactCover]
    have henlarges := SetupSteps.enlarges hsteps hwrap (fun s => by cases s <;> exact Nat.one_pos)
      (by simp [PhysicalMemory.bootstrap, PhysicalMemory.fresh])
    have hgrow : ∀ e ∈ m'.journal, ¬ e.GrowsLargerTable := fun e he hg =>
      (henlarges.total_lt ⟨e, he, hg⟩).ne' (Span.total_eq_of_count_eq hall)
    rcases SetupSteps.keepsOrShifts hsteps hgrow hsound
      (by simp [PhysicalMemory.bootstrap, PhysicalMemory.fresh]) with ⟨-, hclean⟩ | ⟨-, hlt⟩
    · exact hclean
    · exact absurd (Span.moment_congr hall _) hlt.ne'

/-- A memory map in ascending order. -/
theorem FirmwareMap.of_sorted
    (aligned : ∀ d ∈ descriptors, pageFrameSize ∣ d.physicalStart.toNat)
    (nonEmpty : ∀ d ∈ descriptors, 0 < d.numberOfPages.toNat)
    (inRange : ∀ d ∈ descriptors, (d.memory.span .basePage).stop ≤ 2 ^ 64)
    (sorted : (descriptors.map fun d => d.memory.span .basePage).IsChain
      fun x y => x.stop ≤ y.start) : FirmwareMap descriptors :=
  ⟨aligned, nonEmpty, inRange, List.pairwise_map.mp (Span.pairwise_disjoint_of_sorted sorted)⟩

/-- Of three usable regions the one of 1025 frames starts at a multiple of 2 MiB, and 1024
of its frames become two 2 MiB pages. -/
theorem initPhysicalMemoryManager_partitions_three :
    let map : List MemoryDescriptor := [⟨.conventionalMemory, 0x1000, 3⟩,
      ⟨.reservedMemoryType, 0x4000, 1⟩, ⟨.loaderData, 0x10000, 4⟩,
      ⟨.conventionalMemory, 0x200000, 1025⟩]
    ∃ m', initPhysicalMemoryManager 2 4 map (PhysicalMemory.fresh
        ⟨.reset, .reset, .reset, []⟩) = .ok () m' ∧
        Span.ExactCover m'.spans (usableMemory map) := by
  intro map
  have hmap : FirmwareMap map := .of_sorted (by decide) (by decide) (by decide) (by decide)
  have hinit : ReturnsWith (initPhysicalMemoryManager 2 4 map
      (PhysicalMemory.fresh ⟨.reset, .reset, .reset, []⟩)) fun _ m' =>
      ∀ e ∈ m'.journal, ¬ e.BreaksOwnership := by
    decide +kernel
  obtain ⟨_, m', hok, hclean⟩ := hinit
  exact ⟨m', hok, (initPhysicalMemoryManager_partitions hmap hok).1 hclean⟩

/-- Of a single region of 1026 frames from 2 MiB on, the 2 MiB page at 4 MiB is promoted,
but the frames are taken from the start of the region, and frame `0x202000` is lost. -/
theorem initPhysicalMemoryManager_loses_frames :
    ¬ ∀ (depth rounds : Nat) (descriptors : List MemoryDescriptor) (m m' : PhysicalMemory),
      FirmwareMap descriptors →
      initPhysicalMemoryManager depth rounds descriptors m.fresh = .ok () m' →
      Span.ExactCover m'.spans (usableMemory descriptors) := by
  intro h
  have hmap : FirmwareMap [⟨.conventionalMemory, 0x200000, 1026⟩] :=
    .of_sorted (by decide) (by decide) (by decide) (by decide)
  have hinit : ReturnsWith (initPhysicalMemoryManager 2 4 [⟨.conventionalMemory, 0x200000, 1026⟩]
      (PhysicalMemory.fresh ⟨.reset, .reset, .reset, []⟩)) fun _ m' =>
      Span.count m'.spans 0x202000 = 0 := by
    decide +kernel
  obtain ⟨_, m', hok, hnone⟩ := hinit
  have hcover := h _ _ _ _ _ hmap hok
  have hone := (Span.exactCover_iff.mp hcover 0x202000).1
    ⟨_, List.mem_cons_self .., rfl, by decide⟩
  omega

end Map

end Homegrown.Memory
