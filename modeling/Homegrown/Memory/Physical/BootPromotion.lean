import Homegrown.Memory.Physical.Growth

/-!
# Promotion at boot, how far it gets

`initPhysicalMemoryManager` collects the usable memory in the base manager and promotes it twice.
When no update on the way puts a region with a page of a larger size at a place that a loop has
passed, none is left: `initPhysicalMemoryManager_promotes_iff`. One region that the first loop
passes over may still be broken up: the first table of the huge manager is taken from the first
region of the base manager that has a page.
-/

namespace Homegrown.Memory

/-! ## Setting up -/

/-- `initPMM`, up to its loop. -/
def takeFirstTable (depth : Nat) (pageType : PageSize) : Kernel Unit := do
  let initingManager ← getMemoryManager pageType
  assert (initingManager.usedBasePages = 1 ∧ initingManager.memory.length = 0)
  let buf ← allocContiguousPhysicalPagesWithManager depth
    (initingManager.usedBasePages.setWidth 64) .basePage
  updateManager pageType fun p => p.install buf

/-- `initFromDescriptors`, up to the calls of `initPMM`. -/
def collectFromDescriptors (depth : Nat) (descriptor : MemoryDescriptor)
    (descriptors : List MemoryDescriptor) : Kernel Unit := do
  let maxCapacity := memoryEntriesInBasePages descriptor.numberOfPages
  let freeMemoryHolder := descriptor.memory
  let freeMemoryArray ← collectFreeMemory depth maxCapacity descriptors []
  freePhysicalPages depth freeMemoryArray .basePage
  freePhysicalPage depth freeMemoryHolder .basePage

/-- `initPhysicalMemoryManager`, up to the calls of `initPMM`. -/
def collectMemory (depth : Nat) (descriptors : List MemoryDescriptor) : Kernel Unit := do
  modify fun m => ⟨.reset, .reset, .reset, m.journal⟩
  match nextValidDescriptor descriptors with
  | none => throw .noMorePhysicalMemory
  | some (descriptor, rest) =>
    modify fun m => m.bootstrap descriptor.physicalStart
    if descriptor.tail.numberOfPages = 0 then
      match nextValidDescriptor rest with
      | none => throw .noMorePhysicalMemory
      | some (descriptor, rest) => collectFromDescriptors depth descriptor rest
    else
      collectFromDescriptors depth descriptor.tail rest

section Setup

variable {m m' : PhysicalMemory} {s larger pageType : PageSize} {depth rounds : Nat} {n a : U64}
  {u : Unit} {descriptors : List MemoryDescriptor}

/-- The setup of a manager that returns has set up its table and promoted the regions. -/
theorem initPMM_eq_ok (hs : pageType.smaller? = some s) :
    initPMM depth rounds pageType m = .ok u m' ↔ ∃ m₁, takeFirstTable depth pageType m = .ok () m₁ ∧
      promoteRegions depth pageType s rounds 0 m₁ = .ok u m' := by
  have heq : initPMM depth rounds pageType = (do
      takeFirstTable depth pageType
      promoteRegions depth pageType s rounds 0) := by
    simp only [initPMM, hs, takeFirstTable, bind_assoc]
  rw [heq, bind_eq_ok]
  constructor
  · rintro ⟨_, m₁, htable, hloop⟩
    exact ⟨m₁, htable, hloop⟩
  · rintro ⟨m₁, htable, hloop⟩
    exact ⟨(), m₁, htable, hloop⟩

/-- The setup that returns has gone through its three parts. -/
theorem initPhysicalMemoryManager_eq_ok :
    initPhysicalMemoryManager depth rounds descriptors m = .ok u m' ↔
      ∃ m₀ m₁, collectMemory depth descriptors m = .ok () m₀ ∧
        initPMM depth rounds .largePage m₀ = .ok () m₁ ∧
        initPMM depth rounds .hugePage m₁ = .ok u m' := by
  have heq : initPhysicalMemoryManager depth rounds descriptors = (do
      collectMemory depth descriptors
      initPMM depth rounds .largePage
      initPMM depth rounds .hugePage) := by
    have hfrom : ∀ d ds, initFromDescriptors depth rounds d ds = (do
        collectFromDescriptors depth d ds
        initPMM depth rounds .largePage
        initPMM depth rounds .hugePage) := by
      intro d ds
      simp only [initFromDescriptors, collectFromDescriptors, bind_assoc]
    unfold initPhysicalMemoryManager collectMemory
    rw [bind_assoc]
    congr 1
    funext _
    cases nextValidDescriptor descriptors with
    | none => rfl
    | some next =>
      obtain ⟨d, rest⟩ := next
      dsimp only
      rw [bind_assoc]
      congr 1
      funext _
      change (if d.tail.numberOfPages = 0 then _ else _) = _
      split
      · cases nextValidDescriptor rest with
        | none => rfl
        | some next' => exact hfrom _ _
      · exact hfrom _ _
  rw [heq]
  simp only [bind_eq_ok]
  constructor
  · rintro ⟨_, m₀, hcollect, _, m₁, hlarge, hhuge⟩
    exact ⟨m₀, m₁, hcollect, hlarge, hhuge⟩
  · rintro ⟨m₀, m₁, hcollect, hlarge, hhuge⟩
    exact ⟨(), m₀, hcollect, (), m₁, hlarge, hhuge⟩

/-- While the memory is collected, only the base manager has any. -/
structure Collecting (m : PhysicalMemory) : Prop where
  whole : m.basePMM.AllWhole .basePage
  table : m.basePMM.oldTable.Whole .basePage
  cap : m.basePMM.cap = memoryEntriesInBasePages (m.basePMM.usedBasePages.setWidth 64)
  large : m.largePMM = .reset
  huge : m.hugePMM = .reset

/-- Without a region of the largest size there is none to take pages from. -/
theorem not_allocContiguous_hugePage (hhuge : m.hugePMM.memory = []) :
    allocContiguousPhysicalPagesWithManager depth n .hugePage m ≠ .ok a m' := by
  intro h
  cases depth with
  | zero => exact (throw_eq_ok.mp h).elim
  | succ depth =>
    rcases allocContiguousPhysicalPagesWithManager_eq_ok.mp h with
      ⟨i, region, hfit, -⟩ | ⟨-, -, larger, _, hl, -⟩
    · change firstFit m.hugePMM.memory n = some i at hfit
      rw [hhuge] at hfit
      cases hfit
    · cases hl

/-- Without a region of the largest size, large pages come from a large region. -/
theorem allocContiguous_largePage (hhuge : m.hugePMM.memory = [])
    (h : allocContiguousPhysicalPagesWithManager depth n .largePage m = .ok a m') :
    ∃ i region, m.largePMM.memory[i]? = some region ∧ n ≤ region.numberOfPages ∧
      region.pageStart = a ∧
      m' = m.setManager .largePage (m.largePMM.decrease .largePage i region n) := by
  cases depth with
  | zero => exact (throw_eq_ok.mp h).elim
  | succ depth =>
    rcases allocContiguousPhysicalPagesWithManager_eq_ok.mp h with
      ⟨i, region, -, hi, hle, ha, hm⟩ | ⟨-, -, larger, _, hl, hsteal, -⟩
    · exact ⟨i, region, hi, hle, ha, hm.symm⟩
    · cases hl
      exact (not_allocContiguous_hugePage hhuge hsteal).elim

/-- Frames are taken from the listed regions. -/
theorem Collecting.alloc (hm : Collecting m)
    (h : allocContiguousPhysicalPagesWithManager depth n .basePage m = .ok a m') :
    ∃ i region, m.basePMM.memory[i]? = some region ∧ n ≤ region.numberOfPages ∧
      region.pageStart = a ∧
      m' = m.setManager .basePage (m.basePMM.decrease .basePage i region n) := by
  cases depth with
  | zero => exact (throw_eq_ok.mp h).elim
  | succ depth =>
    rcases allocContiguousPhysicalPagesWithManager_eq_ok.mp h with
      ⟨i, region, -, hi, hle, ha, hm⟩ | ⟨-, -, larger, _, hl, hsteal, -⟩
    · exact ⟨i, region, hi, hle, ha, hm.symm⟩
    · cases hl
      obtain ⟨i, region, hi, -⟩ := allocContiguous_largePage (by rw [hm.huge]; rfl) hsteal
      rw [hm.large] at hi
      cases hi

/-- Freeing whole regions keeps what was collected whole. -/
theorem Collecting.free (hm : Collecting m) {pages : List PagedMemory}
    (hpages : ∀ r ∈ pages, r.Whole .basePage)
    (h : freePhysicalPages depth pages .basePage m = .ok u m') : Collecting m' := by
  induction pages generalizing m with
  | nil =>
    obtain ⟨-, rfl⟩ := pure_eq_ok.mp h
    exact hm
  | cons page pages ih =>
    rw [List.forall_mem_cons] at hpages
    obtain ⟨m₁, hcapacity, hrest⟩ := freePhysicalPagesWithManager_cons_eq_ok.mp h
    refine ih ?_ hpages.2 hrest
    have hm₁ : Collecting m₁ := by
      rcases ensureCapacity_eq_ok.mp hcapacity with ⟨-, rfl⟩ | ⟨-, address, m₂, halloc, rfl⟩
      · exact hm
      · have hnoted : Collecting (m.note (.tableFull .basePage)) :=
          ⟨hm.whole, hm.table, hm.cap, hm.large, hm.huge⟩
        obtain ⟨i, region, hi, hle, rfl, rfl⟩ := hnoted.alloc halloc
        have hwhole : (m.basePMM.decrease .basePage i region _).AllWhole .basePage :=
          PhysicalMemoryManager.AllWhole.decrease hm.whole hi hle
        refine ⟨?_, ?_, rfl, hm.large, hm.huge⟩
        · intro r hr
          rcases List.mem_append.mp hr with hr | hr
          · exact hwhole r hr
          · obtain rfl := List.mem_singleton.mp hr
            change PagedMemory.Whole _ ⟨(m.basePMM.decrease _ i region _).buf,
              (m.basePMM.decrease _ i region _).usedBasePages.setWidth 64⟩
            rw [PhysicalMemoryManager.buf_decrease, PhysicalMemoryManager.usedBasePages_decrease]
            exact hm.table
        · have htaken := (hm.whole region (List.mem_of_getElem? hi)).take hle
          change PagedMemory.Whole _ ⟨region.pageStart,
            ((m.basePMM.decrease _ i region _).usedBasePages + 1).setWidth 64⟩
          rw [PhysicalMemoryManager.usedBasePages_decrease]
          exact htaken
    refine ⟨?_, hm₁.table, hm₁.cap, hm₁.large, hm₁.huge⟩
    intro r hr
    rcases List.mem_append.mp hr with hr | hr
    · exact hm₁.whole r hr
    · rw [List.mem_singleton.mp hr]
      exact hpages.1

/-- The loop over the descriptors keeps what it has collected whole. -/
theorem Collecting.collectFreeMemory {maxCapacity : U64} {ds : List MemoryDescriptor}
    {freeMemoryArray pages : List PagedMemory} (hm : Collecting m)
    (hds : ∀ d ∈ ds, d.memory.Whole .basePage) (harray : ∀ r ∈ freeMemoryArray, r.Whole .basePage)
    (h : Memory.collectFreeMemory depth maxCapacity ds freeMemoryArray m = .ok pages m') :
    Collecting m' ∧ ∀ r ∈ pages, r.Whole .basePage := by
  induction ds generalizing m freeMemoryArray with
  | nil =>
    obtain ⟨rfl, rfl⟩ := pure_eq_ok.mp h
    exact ⟨hm, harray⟩
  | cons d ds ih =>
    rw [List.forall_mem_cons] at hds
    unfold Memory.collectFreeMemory at h
    split at h
    · split at h
      · rw [bind_eq_ok] at h
        obtain ⟨_, m₁, hfree, hrest⟩ := h
        exact ih (hm.free harray hfree) hds.2 (by simpa using hds.1) hrest
      · refine ih hm hds.2 ?_ h
        simpa only [List.forall_mem_append, List.forall_mem_singleton] using ⟨harray, hds.1⟩
    · exact ih hm hds.2 harray h

/-- Collecting the descriptors lists whole regions only. -/
theorem Collecting.collectFromDescriptors {d : MemoryDescriptor} {ds : List MemoryDescriptor}
    (hm : Collecting m) (hd : d.memory.Whole .basePage) (hds : ∀ d ∈ ds, d.memory.Whole .basePage)
    (h : Memory.collectFromDescriptors depth d ds m = .ok u m') : Collecting m' := by
  simp only [Memory.collectFromDescriptors, bind_eq_ok] at h
  obtain ⟨pages, m₁, hcollect, _, m₂, hpages, hholder⟩ := h
  obtain ⟨hm₁, hwhole⟩ := hm.collectFreeMemory hds (fun _ hr => absurd hr List.not_mem_nil) hcollect
  exact (hm₁.free hwhole hpages).free (by simpa using hd) hholder

/-- The descriptors of a firmware map are whole regions. -/
theorem FirmwareMap.whole (hmap : FirmwareMap descriptors) {d : MemoryDescriptor}
    (hd : d ∈ descriptors) : d.memory.Whole .basePage :=
  ⟨hmap.aligned d hd, hmap.inRange d hd⟩

/-- What is next is one of the descriptors, and so is what is behind it. -/
theorem nextValidDescriptor_subset {d : MemoryDescriptor} {ds rest : List MemoryDescriptor}
    (h : nextValidDescriptor ds = some (d, rest)) : ∀ e ∈ d :: rest, e ∈ ds := by
  induction ds with
  | nil => cases h
  | cons d' ds ih =>
    unfold nextValidDescriptor at h
    split at h
    · cases h
      exact fun e he => he
    · exact fun e he => List.mem_cons_of_mem _ (ih h e he)

/-- All the memory is collected by the base manager. -/
theorem collectMemory_collecting (hmap : FirmwareMap descriptors)
    (h : collectMemory depth descriptors m = .ok u m') : Collecting m' := by
  unfold collectMemory at h
  simp only [bind_eq_ok, modify_eq_ok] at h
  obtain ⟨_, _, rfl, h⟩ := h
  cases hfirst : nextValidDescriptor descriptors with
  | none =>
    rw [hfirst] at h
    exact (throw_eq_ok.mp h).elim
  | some next =>
    obtain ⟨d, rest⟩ := next
    rw [hfirst] at h
    simp only [bind_eq_ok, modify_eq_ok] at h
    obtain ⟨_, _, rfl, h⟩ := h
    have hsubset := nextValidDescriptor_subset hfirst
    have hd := hsubset d (List.mem_cons_self ..)
    have hpos : (1 : U64) ≤ d.numberOfPages := BitVec.le_def.mpr (hmap.nonEmpty d hd)
    have hstart : ∀ m : PhysicalMemory, Collecting (m.bootstrap d.physicalStart) := fun m =>
      ⟨fun r hr => absurd hr List.not_mem_nil, (hmap.whole hd).take hpos, rfl, rfl, rfl⟩
    have hrest : ∀ e ∈ rest, e.memory.Whole .basePage := fun e he =>
      hmap.whole (hsubset e (List.mem_cons_of_mem _ he))
    split at h
    · cases hsecond : nextValidDescriptor rest with
      | none =>
        rw [hsecond] at h
        exact (throw_eq_ok.mp h).elim
      | some next' =>
        obtain ⟨d', rest'⟩ := next'
        rw [hsecond] at h
        have hsubset' := nextValidDescriptor_subset hsecond
        exact (hstart _).collectFromDescriptors (hrest d' (hsubset' d' (List.mem_cons_self ..)))
          (fun e he => hrest e (hsubset' e (List.mem_cons_of_mem _ he))) h
    · rename_i htail
      refine (hstart _).collectFromDescriptors ?_ hrest h
      refine (hmap.whole hd).drop (n := 1) (lt_of_le_of_ne (hmap.nonEmpty d hd) fun heq => ?_)
      refine htail (BitVec.eq_of_toNat_eq ?_)
      change (d.numberOfPages - 1).toNat = 0
      have hone : d.numberOfPages.toNat = 1 := heq.symm
      rw [BitVec.toNat_sub_of_le hpos, hone]
      rfl

/-- The first table is one frame. -/
theorem takeFirstTable_eq_ok : takeFirstTable depth pageType m = .ok u m' ↔
    (m.manager pageType).usedBasePages = 1 ∧ (m.manager pageType).memory = [] ∧ ∃ buf m₁,
      allocContiguousPhysicalPagesWithManager depth 1 .basePage m = .ok buf m₁ ∧
      m₁.setManager pageType ((m₁.manager pageType).install buf) = m' := by
  simp only [takeFirstTable, bind_eq_ok, getMemoryManager_eq_ok, assert_eq_ok, updateManager_eq_ok,
    List.length_eq_zero_iff]
  constructor
  · rintro ⟨_, _, ⟨rfl, rfl⟩, _, _, ⟨⟨hused, hempty⟩, rfl⟩, buf, m₁, halloc, hm⟩
    rw [hused] at halloc
    exact ⟨hused, hempty, buf, m₁, halloc, hm⟩
  · rintro ⟨hused, hempty, buf, m₁, halloc, hm⟩
    refine ⟨_, _, ⟨rfl, rfl⟩, (), _, ⟨⟨hused, hempty⟩, rfl⟩, buf, m₁, ?_, hm⟩
    rw [hused]
    exact halloc

/-- The managers where the loop of the large manager starts. -/
theorem Collecting.takeFirstTable (hm : Collecting m)
    (h : Memory.takeFirstTable depth .largePage m = .ok u m') :
    m'.basePMM.AllWhole .basePage ∧
      m'.basePMM.cap = memoryEntriesInBasePages (m'.basePMM.usedBasePages.setWidth 64) ∧
      m'.largePMM.memory = [] ∧ m'.hugePMM = .reset := by
  obtain ⟨-, hempty, buf, m₁, halloc, rfl⟩ := takeFirstTable_eq_ok.mp h
  obtain ⟨i, region, hi, hle, -, rfl⟩ := hm.alloc halloc
  refine ⟨PhysicalMemoryManager.AllWhole.decrease hm.whole hi hle, ?_, hempty, hm.huge⟩
  change (m.basePMM.decrease _ i region 1).cap =
    memoryEntriesInBasePages ((m.basePMM.decrease _ i region 1).usedBasePages.setWidth 64)
  rw [PhysicalMemoryManager.cap_decrease, PhysicalMemoryManager.usedBasePages_decrease]
  exact hm.cap

/-- The regions that the loop of the large manager may pass over when no table is moved later:
those without a large page, and the first one with a page, when it has no large page but with its
first page. -/
def SparedBase (before : List PagedMemory) (r : PagedMemory) : Prop :=
  ¬ Promotable .largePage .basePage r ∨
    ¬ Promotable .largePage .basePage (r.drop .basePage 1) ∧ ∀ q ∈ before, q.numberOfPages = 0

instance (before : List PagedMemory) (r : PagedMemory) : Decidable (SparedBase before r) :=
  inferInstanceAs (Decidable (_ ∨ _))

/-- A first fit for one page comes behind regions without pages only. -/
theorem firstFit_one_spec {memory : List PagedMemory} {i : Nat}
    (hfit : firstFit memory 1 = some i) :
    ∀ j < i, ∀ r, memory[j]? = some r → r.numberOfPages = 0 := by
  rw [firstFit, Option.filter_eq_some_iff, List.findIdx?_eq_some_iff_getElem] at hfit
  obtain ⟨⟨hi, -, hbefore⟩, -⟩ := hfit
  intro j hj r hr
  have hno := hbefore j hj
  rw [List.getElem_of_getElem? hr |>.2, decide_eq_true_iff, BitVec.le_def] at hno
  apply BitVec.eq_of_toNat_eq
  change ¬ 1 ≤ _ at hno
  change _ = 0
  omega

/-- Which regions may be passed over, when the page is taken from the one at an index. -/
theorem sparedBase_iff {regions : List PagedMemory} {i j : Nat} {region r : PagedMemory}
    (hfit : firstFit regions 1 = some i) (hi : regions[i]? = some region)
    (hr : regions[j]? = some r) :
    SparedBase (regions.take j) r ↔ if j = i then
      ¬ Promotable .largePage .basePage (r.drop .basePage 1) else
      ¬ Promotable .largePage .basePage r := by
  have hzero := firstFit_one_spec hfit
  obtain ⟨region', hi', hone⟩ := firstFit_eq_some hfit
  obtain rfl := Option.some.inj (hi.symm.trans hi')
  split
  · rename_i hj
    subst hj
    obtain rfl := Option.some.inj (hi.symm.trans hr)
    constructor
    · rintro (hnot | ⟨hdrop, -⟩)
      · exact fun hp => hnot (hp.of_drop rfl hone)
      · exact hdrop
    · refine fun hdrop => .inr ⟨hdrop, fun q hq => ?_⟩
      obtain ⟨k, hk⟩ := List.mem_iff_getElem?.mp hq
      have hkj : k < j := by
        have hbound := (List.getElem?_eq_some_iff.mp hk).1
        rw [List.length_take] at hbound
        omega
      rw [List.getElem?_take_of_lt hkj] at hk
      exact hzero k hkj q hk
  · rename_i hj
    constructor
    · rintro (hnot | ⟨-, hbefore⟩)
      · exact hnot
      · rcases Nat.lt_or_gt_of_ne hj with hlt | hgt
        · refine not_promotable_of_lt ?_
          rw [hzero j hlt r hr]
          decide
        · have hmem : region ∈ regions.take j := by
            refine List.mem_of_getElem? (i := i) ?_
            rw [List.getElem?_take_of_lt hgt, hi]
          rw [hbefore region hmem] at hone
          exact absurd hone (by decide)
    · exact Or.inl

/-- A region of one page, and what is left without it, hold no larger page. -/
theorem not_promotable_one {larger s : PageSize} {r : PagedMemory} (hr : r.numberOfPages = 1) :
    ¬ Promotable larger s r ∧ ¬ Promotable larger s (r.drop s 1) := by
  refine ⟨not_promotable_of_lt (by rw [hr]; decide), not_promotable_of_lt ?_⟩
  change (r.numberOfPages - 1).toNat < 512
  rw [hr]
  decide

/-- Taking a page from the first region that has one leaves no region with a large page, exactly
when all regions could be passed over. -/
theorem examined_iff_decrease {p : PhysicalMemoryManager} {i : Nat} {region : PagedMemory}
    (hfit : firstFit p.memory 1 = some i) (hi : p.memory[i]? = some region) :
    Examined SparedBase p.memory.length p.memory ↔
      (p.decrease .basePage i region 1).Settled .largePage .basePage := by
  have hspared : Examined SparedBase p.memory.length p.memory ↔ ∀ j r, p.memory[j]? = some r →
      if j = i then ¬ Promotable .largePage .basePage (r.drop .basePage 1)
      else ¬ Promotable .largePage .basePage r := by
    constructor
    · intro h j r hr
      exact (sparedBase_iff hfit hi hr).mp (h j (List.getElem?_eq_some_iff.mp hr).1 r hr)
    · intro h j _ r hr
      exact (sparedBase_iff hfit hi hr).mpr (h j r hr)
  rw [hspared]
  constructor
  · intro h r hr
    obtain ⟨j, hj⟩ := List.mem_iff_getElem?.mp hr
    rcases getElem?_decrease hi hj with ⟨hji, hj⟩ | ⟨-, ⟨-, rfl⟩ | hlast⟩
    · have hjr := h j r hj
      rwa [if_neg hji] at hjr
    · have hdrop := h i region hi
      rwa [if_pos rfl] at hdrop
    · -- The last region was listed elsewhere, or it is the region of one page itself.
      obtain ⟨k, hk⟩ := List.mem_iff_getElem?.mp (mem_of_moved hlast)
      have hkr := h k r hk
      split at hkr
      · rename_i hki
        rw [hki, hi] at hk
        obtain rfl := Option.some.inj hk
        exact (not_promotable_one (moved_whole hlast hi)).1
      · exact hkr
  · intro h j r hr
    split
    · rename_i hji
      rw [hji, hi] at hr
      obtain rfl := Option.some.inj hr
      by_cases hone : region.numberOfPages = 1
      · exact (not_promotable_one hone).2
      · refine h _ ?_
        rw [PhysicalMemoryManager.decrease, if_neg hone]
        exact List.mem_set (List.getElem?_eq_some_iff.mp hi).1 _
    · rename_i hji
      by_cases hone : region.numberOfPages = 1
      · have hperm := (swapRemove_perm hi).symm.subset (List.mem_of_getElem? hr)
        rcases List.mem_cons.mp hperm with rfl | hmem
        · exact (not_promotable_one hone).1
        · refine h r ?_
          rwa [PhysicalMemoryManager.decrease, if_pos hone]
      · refine h r (List.mem_of_getElem? (i := j) ?_)
        rw [PhysicalMemoryManager.decrease, if_neg hone]
        dsimp only
        rw [List.getElem?_set_ne (Ne.symm hji), hr]

/-- Without huge pages, a full base manager without pages cannot get the frames of its next table
out of a large page: the rest of that page would have to be listed first. -/
theorem not_grow_from_largePage {p : PhysicalMemoryManager}
    (h : allocContiguousPhysicalPagesWithManager depth ((p.usedBasePages + 1).setWidth 64) .basePage
      m = .ok a m')
    (hp : m.basePMM = p) (hhuge : m.hugePMM.memory = []) (hfull : p.cap.toNat ≤ p.memory.length)
    (hfit : firstFit p.memory ((p.usedBasePages + 1).setWidth 64) = none) : False := by
  induction depth generalizing m a m' with
  | zero => exact throw_eq_ok.mp h
  | succ depth ih =>
    rcases allocContiguousPhysicalPagesWithManager_eq_ok.mp h with
      ⟨i, region, hi, -⟩ | ⟨-, -, larger, m₁, hl, hsteal, hfree⟩
    · change firstFit m.basePMM.memory _ = some i at hi
      rw [hp, hfit] at hi
      cases hi
    · cases hl
      obtain ⟨i, region, -, -, -, rfl⟩ := allocContiguous_largePage hhuge hsteal
      obtain ⟨m₂, hcapacity, -⟩ := freePhysicalPagesWithManager_cons_eq_ok.mp hfree
      rcases ensureCapacity_eq_ok.mp hcapacity with ⟨hroom, -⟩ | ⟨-, newBuf, m₃, hgrow, -⟩
      · change m.basePMM.memory.length < m.basePMM.cap.toNat at hroom
        rw [hp] at hroom
        omega
      · change allocContiguousPhysicalPagesWithManager depth
          ((m.basePMM.usedBasePages + 1).setWidth 64) .basePage _ = _ at hgrow
        rw [hp] at hgrow
        exact ih hgrow hp hhuge

/-- A base manager without pages has no pages for its next table either. -/
theorem firstFit_nextTable (hcap : m.basePMM.cap =
      memoryEntriesInBasePages (m.basePMM.usedBasePages.setWidth 64))
    (hfull : m.basePMM.cap.toNat ≤ m.basePMM.memory.length)
    (hlen : m.basePMM.memory.length < 2 ^ 32) (hnone : firstFit m.basePMM.memory 1 = none) :
    firstFit m.basePMM.memory ((m.basePMM.usedBasePages + 1).setWidth 64) = none := by
  rw [firstFit_eq_none_iff hlen] at hnone ⊢
  rintro ⟨r, hr, hle⟩
  refine hnone ⟨r, hr, ?_⟩
  rw [hcap, toNat_memoryEntriesInBasePages] at hfull
  have hused : (m.basePMM.usedBasePages + 1).toNat = m.basePMM.usedBasePages.toNat + 1 := by
    rw [BitVec.toNat_add]
    exact Nat.mod_eq_of_lt (show m.basePMM.usedBasePages.toNat + 1 < 2 ^ 32 by omega)
  rw [BitVec.le_def, BitVec.toNat_setWidth_of_le (by norm_num), hused] at hle
  rw [BitVec.le_def]
  change 1 ≤ _
  omega

/-- Along an allocation of large pages no table is moved, when there are no huge ones. -/
theorem alongAlloc_largePage (hhuge : m.hugePMM.memory = []) :
    AlongAlloc (ListsNone larger s) depth n .largePage m := by
  cases depth with
  | zero => trivial
  | succ depth =>
    unfold AlongAlloc
    split
    · trivial
    · trivial
    · rename_i hl
      cases hl
      refine ⟨?_, fun a m₁ hsteal => (not_allocContiguous_hugePage hhuge hsteal).elim⟩
      cases depth with
      | zero => trivial
      | succ depth =>
        unfold AlongAlloc
        rw [show firstFit (m.manager .hugePage).memory _ = none by
          change firstFit m.hugePMM.memory _ = none
          rw [hhuge]
          rfl]
        trivial

/-- The managers where the loop of the huge manager starts: the frame for its first table comes
from the first region of the base manager that has one, or else from a large page. -/
structure FirstHugeTable (depth : Nat) (m m' : PhysicalMemory) : Prop where
  large : m'.largePMM.AllWhole .largePage
  base : m'.basePMM.AllWhole .basePage
  huge : m'.hugePMM.memory = []
  settled_iff : Examined SparedBase m.basePMM.memory.length m.basePMM.memory ↔
    m'.basePMM.Settled .largePage .basePage
  lists : AlongAlloc (ListsNone .largePage .basePage) depth 1 .basePage m

/-- What setting up the first table of `hugePMM` does. -/
theorem takeFirstTable_hugePage (hbase : m.basePMM.AllWhole .basePage)
    (hlarge : m.largePMM.AllWhole .largePage) (hhuge : m.hugePMM = .reset)
    (hcap : m.basePMM.cap = memoryEntriesInBasePages (m.basePMM.usedBasePages.setWidth 64))
    (h : takeFirstTable depth .hugePage m = .ok u m') : FirstHugeTable depth m m' := by
  obtain ⟨-, hempty, buf, m₁, halloc, rfl⟩ := takeFirstTable_eq_ok.mp h
  have hnoHuge : m.hugePMM.memory = [] := by
    rw [hhuge]
    rfl
  cases depth with
  | zero => exact (throw_eq_ok.mp halloc).elim
  | succ depth =>
    rcases allocContiguousPhysicalPagesWithManager_eq_ok.mp halloc with
      ⟨i, region, hfit, hi, hle, -, rfl⟩ | ⟨hnone, hlen, larger, m₂, hl, hsteal, hfree⟩
    · refine ⟨hlarge, PhysicalMemoryManager.AllWhole.decrease hbase hi hle, hempty,
        examined_iff_decrease hfit hi, ?_⟩
      unfold AlongAlloc
      rw [hfit]
      trivial
    · cases hl
      obtain ⟨i, region, hi, hle, rfl, rfl⟩ := allocContiguous_largePage hnoHuge hsteal
      have hroom : m.basePMM.memory.length < m.basePMM.cap.toNat := by
        by_contra hfull
        rw [not_lt] at hfull
        obtain ⟨m₂, hcapacity, -⟩ := freePhysicalPagesWithManager_cons_eq_ok.mp hfree
        rcases ensureCapacity_eq_ok.mp hcapacity with ⟨hroom, -⟩ | ⟨-, newBuf, m₃, hgrow, -⟩
        · exact absurd hroom (not_lt.mpr hfull)
        · exact not_grow_from_largePage hgrow rfl hnoHuge hfull
            (firstFit_nextTable hcap hfull hlen hnone)
      have hceiling : ceilingDivValue (1 : U64) 512 = 1 := by decide +kernel
      have hpages : toSmallerPages 1 = 512 := by decide +kernel
      have halong : AlongAlloc (ListsNone .largePage .basePage) (depth + 1) 1 .basePage m := by
        unfold AlongAlloc
        rw [hnone]
        refine ⟨alongAlloc_largePage hnoHuge, fun a m₁ hagain => alongFree_of_room ?_⟩
        obtain ⟨_, _, -, -, -, rfl⟩ := allocContiguous_largePage hnoHuge hagain
        exact hroom
      rw [hceiling] at hle hfree
      rw [hpages] at hfree
      rw [freePhysicalPagesWithManager_room (s := .basePage) (m := (m.setManager .largePage
        (m.largePMM.decrease .largePage i region 1)).note (.stolen 1)) hroom] at hfree
      subst hfree
      have hnoPages : ∀ r ∈ m.basePMM.memory, r.numberOfPages.toNat < 1 := fun r hr =>
        BitVec.lt_def.mp (firstFit_eq_none hnone hlen r hr)
      have hregion := (hlarge region (List.mem_of_getElem? hi)).take hle
      have hsmaller : PagedMemory.Whole .basePage ⟨region.pageStart, 512⟩ := by
        refine ⟨(PageSize.bytes_dvd_larger rfl).trans hregion.aligned, ?_⟩
        have hb := PagedMemory.bounded_iff.mp hregion.bounded
        have hone : (1 : U64).toNat = 1 := rfl
        have hmany : (512 : U64).toNat = 512 := rfl
        rw [hone, PageSize.bytes_largePage] at hb
        rw [PagedMemory.bounded_iff, hmany, PageSize.bytes_basePage]
        exact hb
      have hrest : PagedMemory.Whole .basePage
          ⟨region.pageStart + 1 * PageSize.basePage.value, 512 - 1⟩ :=
        hsmaller.drop (n := 1) (show 1 < 512 by norm_num)
      have hfew : (512 - 1 : U64).toNat < 512 := by decide
      refine ⟨PhysicalMemoryManager.AllWhole.decrease hlarge hi hle, ?_, hempty,
        iff_of_true ?_ ?_, halong⟩
      · intro r hr
        rcases List.mem_append.mp hr with hr | hr
        · exact hbase r hr
        · rw [List.mem_singleton.mp hr]
          exact hrest
      · intro j _ r hr
        have hzero := hnoPages r (List.mem_of_getElem? hr)
        exact .inl (not_promotable_of_lt (by omega))
      · intro r hr
        rcases List.mem_append.mp hr with hr | hr
        · have hzero := hnoPages r hr
          exact not_promotable_of_lt (by omega)
        · rw [List.mem_singleton.mp hr]
          exact not_promotable_of_lt hfew

/-! ## How far it gets -/

/-- After setting up, no region of the base manager contains a large page and no region of the
large manager a huge one. -/
structure PhysicalMemory.Promoted (m : PhysicalMemory) : Prop where
  base : ∀ r ∈ m.basePMM.memory, ¬ r.HoldsLarger .largePage .basePage
  large : ∀ r ∈ m.largePMM.memory, ¬ r.HoldsLarger .hugePage .largePage

/-- A run of `initPhysicalMemoryManager` that returns, by the managers where its two loops start
and end. -/
structure PromotionRun (depth rounds : Nat) (descriptors : List MemoryDescriptor)
    (m m₁ m₂ m₃ m' : PhysicalMemory) : Prop where
  collected : (do collectMemory depth descriptors; takeFirstTable depth .largePage) m = .ok () m₁
  large : promoteRegions depth .largePage .basePage rounds 0 m₁ = .ok () m₂
  table : takeFirstTable depth .hugePage m₂ = .ok () m₃
  huge : promoteRegions depth .hugePage .largePage rounds 0 m₃ = .ok () m'

/-- No update puts a region with a page of the larger size at a place that a loop has passed: none
in the rounds of the two loops for the list that they walk, and none behind the first loop for the
list of the base manager, which is then passed as a whole. `spared` says which regions the first
loop may pass over. -/
structure PassesOverNone (spared : List PagedMemory → PagedMemory → Prop) (depth rounds : Nat)
    (m₁ m₂ m₃ : PhysicalMemory) : Prop where
  large : EveryRound (fun i => AlongRound (SkipsNone spared .largePage .basePage i) depth .largePage
    .basePage i) depth .largePage .basePage rounds 0 m₁
  table : AlongAlloc (ListsNone .largePage .basePage) depth 1 .basePage m₂
  huge : EveryRound (fun i => AlongRound (SkipsNone (Unpromotable .hugePage .largePage) .hugePage
    .largePage i) depth .hugePage .largePage i) depth .hugePage .largePage rounds 0 m₃
  tables : EveryRound (AlongRound (ListsNone .largePage .basePage) depth .hugePage .largePage) depth
    .hugePage .largePage rounds 0 m₃

/-- No table is full when a round of the two loops promotes. -/
structure RoundsHaveRoom (depth rounds : Nat) (m₁ m₃ : PhysicalMemory) : Prop where
  large : EveryRound (RoomToPromote .largePage .basePage) depth .largePage .basePage rounds 0 m₁
  huge : EveryRound (RoomToPromote .hugePage .largePage) depth .hugePage .largePage rounds 0 m₃

/-- Up to the first index nothing has to be shown. -/
theorem examined_zero {spared : List PagedMemory → PagedMemory → Prop}
    {regions : List PagedMemory} : Examined spared 0 regions := fun j hj =>
  absurd hj (Nat.not_lt_zero j)

/-- A run that passes over no region leaves none to promote, whatever tables it moves. -/
theorem PromotionRun.promoted {m₁ m₂ m₃ : PhysicalMemory}
    (hrun : PromotionRun depth rounds descriptors m m₁ m₂ m₃ m')
    (h : PassesOverNone (Unpromotable .largePage .basePage) depth rounds m₁ m₂ m₃) :
    m'.Promoted := by
  have hbase₂ : m₂.basePMM.Settled .largePage .basePage :=
    settled_promoteRegions rfl h.large examined_zero hrun.large
  have hbase₃ : m₃.basePMM.Settled .largePage .basePage := by
    obtain ⟨-, -, buf, m₄, halloc, hm₃⟩ := takeFirstTable_eq_ok.mp hrun.table
    have hbase₄ : m₄.basePMM.Settled .largePage .basePage :=
      (kept_settled (s := .basePage) rfl).alloc h.table hbase₂ halloc
    rw [← hm₃]
    exact hbase₄
  have hbase : m'.basePMM.Settled .largePage .basePage :=
    (kept_settled (s := .basePage) rfl).promoteRegions (by decide) h.tables hbase₃ hrun.huge
  have hlarge : m'.largePMM.Settled .hugePage .largePage :=
    settled_promoteRegions rfl h.huge examined_zero hrun.huge
  exact ⟨fun r hr hholds => hbase r hr (hholds.promotable rfl),
    fun r hr hholds => hlarge r hr (hholds.promotable rfl)⟩

/-- Where the rounds find room in the tables, a run that leaves no region to promote has passed
over none. -/
theorem PromotionRun.promoted_iff {m₁ m₂ m₃ : PhysicalMemory} (hmap : FirmwareMap descriptors)
    (hrun : PromotionRun depth rounds descriptors m m₁ m₂ m₃ m')
    (hroom : RoundsHaveRoom depth rounds m₁ m₃) :
    m'.Promoted ↔ PassesOverNone SparedBase depth rounds m₁ m₂ m₃ := by
  obtain ⟨_, m₀, hcollect, htable⟩ := bind_eq_ok.mp hrun.collected
  obtain ⟨hbase₁, hcap₁, hlarge₁, hhuge₁⟩ :=
    (collectMemory_collecting hmap hcollect).takeFirstTable htable
  have hfirst : LoopResult SparedBase depth .largePage .basePage rounds 0 m₁ m₂ :=
    promoteRegions_of_room rfl (fun _ _ => Or.inl) hroom.large hbase₁
      (fun r hr => by rw [show (m₁.manager .largePage).memory = [] from hlarge₁] at hr; cases hr)
      hrun.large
  have hhuge₂ : m₂.hugePMM = .reset :=
    (hfirst.others .hugePage (by decide) (by decide)).trans hhuge₁
  have hcap₂ :
      m₂.basePMM.cap = memoryEntriesInBasePages (m₂.basePMM.usedBasePages.setWidth 64) := by
    rw [show m₂.basePMM.cap = m₁.basePMM.cap from hfirst.cap,
      show m₂.basePMM.usedBasePages = m₁.basePMM.usedBasePages from hfirst.usedBasePages, hcap₁]
  have htaken := takeFirstTable_hugePage hfirst.wholeS hfirst.wholeL hhuge₂ hcap₂ hrun.table
  have hsecond : LoopResult (Unpromotable .hugePage .largePage) depth .hugePage .largePage rounds 0
      m₃ m' :=
    promoteRegions_of_room rfl (fun _ _ hnot => hnot) hroom.huge htaken.large
      (fun r hr => by rw [show (m₃.manager .hugePage).memory = [] from htaken.huge] at hr; cases hr)
      hrun.huge
  have hbase : m'.basePMM = m₃.basePMM := hsecond.others .basePage (by decide) (by decide)
  have hbaseIff : (∀ r ∈ m'.basePMM.memory, ¬ r.HoldsLarger .largePage .basePage) ↔
      EveryRound (fun i => AlongRound (SkipsNone SparedBase .largePage .basePage i) depth .largePage
        .basePage i) depth .largePage .basePage rounds 0 m₁ := by
    have hexamined := hfirst.examined_iff
    rw [and_iff_right examined_zero] at hexamined
    rw [← hexamined]
    refine Iff.trans ?_ htaken.settled_iff.symm
    rw [hbase]
    exact forall₂_congr fun r hr => not_congr (promotable_iff rfl (htaken.base r hr)).symm
  have hlargeIff : (∀ r ∈ m'.largePMM.memory, ¬ r.HoldsLarger .hugePage .largePage) ↔
      EveryRound (fun i => AlongRound (SkipsNone (Unpromotable .hugePage .largePage) .hugePage
        .largePage i) depth .hugePage .largePage i) depth .hugePage .largePage rounds 0 m₃ := by
    have hexamined := hsecond.examined_iff
    rw [and_iff_right examined_zero] at hexamined
    rw [← hexamined]
    constructor
    · intro h j _ r hr hp
      have hmem := List.mem_of_getElem? hr
      exact h r hmem ((promotable_iff rfl (hsecond.wholeS r hmem)).mp hp)
    · intro h r hr hholds
      obtain ⟨j, hj⟩ := List.mem_iff_getElem?.mp hr
      exact h j (List.getElem?_eq_some_iff.mp hj).1 r hj (hholds.promotable rfl)
  constructor
  · intro h
    exact ⟨hbaseIff.mp h.base, htaken.lists, hlargeIff.mp h.large,
      everyRound_of_room rfl hroom.huge fun _ _ _ _ => trivial⟩
  · intro h
    exact ⟨hbaseIff.mpr h.large, hlargeIff.mpr h.huge⟩

/-- When no update while setting up puts a region with a page of a larger size at a place that a
loop has passed, no such region is left; where no table is full in a round that promotes, that is
so exactly when the loops pass over none but the one region that the first table of the huge
manager is taken from. -/
theorem initPhysicalMemoryManager_promotes_iff (hmap : FirmwareMap descriptors)
    (h : initPhysicalMemoryManager depth rounds descriptors m = .ok () m') :
    ∃ m₁ m₂ m₃, PromotionRun depth rounds descriptors m m₁ m₂ m₃ m' ∧
      (PassesOverNone (Unpromotable .largePage .basePage) depth rounds m₁ m₂ m₃ → m'.Promoted) ∧
      (RoundsHaveRoom depth rounds m₁ m₃ →
        (m'.Promoted ↔ PassesOverNone SparedBase depth rounds m₁ m₂ m₃)) := by
  obtain ⟨m₀, m₂, hcollect, hlarge, hhuge⟩ := initPhysicalMemoryManager_eq_ok.mp h
  obtain ⟨m₁, htable, hloop⟩ := (initPMM_eq_ok rfl).mp hlarge
  obtain ⟨m₃, htable', hloop'⟩ := (initPMM_eq_ok rfl).mp hhuge
  have hrun : PromotionRun depth rounds descriptors m m₁ m₂ m₃ m' :=
    ⟨bind_eq_ok.mpr ⟨(), m₀, hcollect, htable⟩, hloop, htable', hloop'⟩
  exact ⟨m₁, m₂, m₃, hrun, hrun.promoted, hrun.promoted_iff hmap⟩

end Setup

instance (spared : List PagedMemory → PagedMemory → Prop) [∀ before r, Decidable (spared before r)]
    (depth rounds : Nat) (m₁ m₂ m₃ : PhysicalMemory) :
    Decidable (PassesOverNone spared depth rounds m₁ m₂ m₃) :=
  decidable_of_iff (_ ∧ _ ∧ _ ∧ _) ⟨fun ⟨hlarge, htable, hhuge, htables⟩ =>
    ⟨hlarge, htable, hhuge, htables⟩, fun h => ⟨h.large, h.table, h.huge, h.tables⟩⟩

/-- 255 usable regions of two frames, and one of 1025 frames that starts at a multiple of 2 MiB. -/
def fullTableMap : List MemoryDescriptor :=
  (List.range 255).map (fun k => ⟨.conventionalMemory, BitVec.ofNat 64 (0x1000 + k * 0x3000), 2⟩) ++
    [⟨.conventionalMemory, 0x400000, 1025⟩]

/-- The table of the base manager is full when its last region is promoted, and again when the
first table of the huge manager is taken. -/
theorem initPhysicalMemoryManager_promotes_iff_full :
    ∃ m', initPhysicalMemoryManager 2 300 fullTableMap ⟨.reset, .reset, .reset, []⟩ = .ok () m' ∧
      m'.Promoted := by
  have hmap : FirmwareMap fullTableMap :=
    .of_sorted (by decide +kernel) (by decide +kernel) (by decide +kernel) (by decide +kernel)
  obtain ⟨_, m', hok, -⟩ : ReturnsWith (initPhysicalMemoryManager 2 300 fullTableMap
      ⟨.reset, .reset, .reset, []⟩) fun _ m' => m'.largePMM.memory = [⟨0x400000, 2⟩] := by
    decide +kernel
  refine ⟨m', hok, ?_⟩
  obtain ⟨m₁, m₂, m₃, hrun, henough, -⟩ := initPhysicalMemoryManager_promotes_iff hmap hok
  have hnone : ReturnsWith ((do collectMemory 2 fullTableMap; takeFirstTable 2 .largePage)
      ⟨.reset, .reset, .reset, []⟩) fun _ m₁ =>
      ReturnsWith (promoteRegions 2 .largePage .basePage 300 0 m₁) fun _ m₂ =>
        ReturnsWith (takeFirstTable 2 .hugePage m₂) fun _ m₃ =>
          m₂.basePMM.cap.toNat ≤ m₂.basePMM.memory.length ∧
            PassesOverNone (Unpromotable .largePage .basePage) 2 300 m₁ m₂ m₃ := by
    decide +kernel
  rw [hrun.collected] at hnone
  obtain ⟨_, _, heq, hrest⟩ := hnone
  cases heq
  rw [hrun.large] at hrest
  obtain ⟨_, _, heq, hrest⟩ := hrest
  cases heq
  rw [hrun.table] at hrest
  obtain ⟨_, _, heq, -, hnone⟩ := hrest
  cases heq
  exact henough hnone

/-- Of three regions that start at a multiple of 2 MiB the first one gives its first frame to a
table, the second one is promoted, and the third one is moved into its place and passed over. -/
theorem initPhysicalMemoryManager_passes_over :
    ¬ ∀ (depth rounds : Nat) (descriptors : List MemoryDescriptor) (m m' : PhysicalMemory),
      FirmwareMap descriptors →
      initPhysicalMemoryManager depth rounds descriptors m = .ok () m' → m'.Promoted := by
  intro h
  have hmap : FirmwareMap [⟨.conventionalMemory, 0x1ff000, 513⟩,
      ⟨.conventionalMemory, 0x600000, 512⟩, ⟨.conventionalMemory, 0xa00000, 512⟩] :=
    .of_sorted (by decide) (by decide) (by decide) (by decide)
  obtain ⟨_, m', hok, hmem⟩ : ReturnsWith (initPhysicalMemoryManager 2 4
      [⟨.conventionalMemory, 0x1ff000, 513⟩, ⟨.conventionalMemory, 0x600000, 512⟩,
        ⟨.conventionalMemory, 0xa00000, 512⟩] ⟨.reset, .reset, .reset, []⟩) fun _ m' =>
      ⟨0x200000, 512⟩ ∈ m'.basePMM.memory := by
    decide +kernel
  exact (h _ _ _ _ _ hmap hok).base _ hmem ⟨0x200000, by decide, le_rfl, by decide⟩

end Homegrown.Memory
