import Homegrown.Memory.Policy.Sound

/-!
# What is freed

`freeMapped` frees regions that it has gathered page by page, so none of them is empty
(`freeMappedCalls_filled`), and while no table of a manager is full, exactly their addresses are
added to the free memory (`freeRegions_returns`).
-/

namespace Homegrown.Memory

/-! ## Whatever is looked up -/

/-- The walk of `freeMapped` ends before its first page: the start lies within a page that does
not end before the range. -/
def StopsAtOnce (lookup : U64 → MappedPage) (start bytes : U64) : Prop :=
  ringRangeValue start (lookup start).pageSize ≠ 0 ∧
    start + bytes ≤ alignUpValue start (lookup start).pageSize

instance (lookup : U64 → MappedPage) (start bytes : U64) :
    Decidable (StopsAtOnce lookup start bytes) := inferInstanceAs (Decidable (_ ∧ _))

/-- The region has a page, and its page size is one of the architecture. -/
def IsFilled (f : PagedMemory × U64) : Prop :=
  0 < f.1.numberOfPages.toNat ∧ ∃ s : PageSize, f.2 = s.value

/-- Every region that was freed has a page. -/
def FreeCalls.Filled (c : FreeCalls) : Prop := ∀ f ∈ c.freed, IsFilled f

section Walk

variable {lookup : U64 → MappedPage} {start bytes stop : U64} {w : FreeWalk} {c c' : FreeCalls}
  {rounds : Nat} {u : Unit}

/-- `getMappedPage` reports a page size, whatever the tables hold. -/
theorem exists_pageSize_getMappedPage (words : U64 → U64) (root virt : U64) :
    ∃ s : PageSize, (getMappedPage words root virt).pageSize = s.value := by
  have hhuge : wumboPageSize / BitVec.ofNat 64 PageTableFormat.entries /
      BitVec.ofNat 64 PageTableFormat.entries = PageSize.hugePage.value := by decide
  have hlarge : PageSize.hugePage.value / BitVec.ofNat 64 PageTableFormat.entries =
      PageSize.largePage.value := by decide
  have hbase : PageSize.largePage.value / BitVec.ofNat 64 PageTableFormat.entries =
      PageSize.basePage.value := by decide
  have hdepth : pageSizeToDepth .basePage = 4 := rfl
  rw [getMappedPage, hdepth, getMappedPageFrom, if_neg (by simp [isExtendedPageLevel]),
    getMappedPageFrom, hhuge]
  split
  · exact ⟨.hugePage, rfl⟩
  · rw [getMappedPageFrom, hlarge]
    split
    · exact ⟨.largePage, rfl⟩
    · rw [getMappedPageFrom, hbase, if_neg (by simp [isExtendedPageLevel])]
      exact ⟨.basePage, rfl⟩

theorem FreeCalls.Filled.nil {asked : List U64} : FreeCalls.Filled ⟨asked, []⟩ :=
  fun _ hf => absurd hf List.not_mem_nil

theorem FreeCalls.Filled.free (h : c.Filled) {f : PagedMemory × U64} (hf : IsFilled f) :
    FreeCalls.Filled { c with freed := c.freed ++ [f] } := by
  simpa only [FreeCalls.Filled, List.forall_mem_append, List.forall_mem_singleton] using ⟨h, hf⟩

/-- Regions with pages have frames. -/
theorem FreeCalls.Filled.freed_eq_nil (h : c.Filled) (hnil : c.frames = []) : c.freed = [] := by
  rw [FreeCalls.frames, List.flatMap_eq_nil_iff] at hnil
  by_contra hne
  obtain ⟨f, hf⟩ := List.exists_mem_of_ne_nil _ hne
  have hlength := congrArg List.length (hnil f hf)
  rw [framesOf, List.length_map, List.length_range] at hlength
  exact absurd hlength (h f hf).1.ne'

/-- The region that is gathered has a page, and no more pages than fit below its end. -/
structure FreeWalk.Gathers (w : FreeWalk) : Prop where
  pos : 0 < w.pagedEntry.numberOfPages.toNat
  below : w.pagedEntry.numberOfPages.toNat * 4096 ≤ w.nextPhysical.toNat
  size : ∃ s : PageSize, w.previousPageSize = s.value

theorem toNat_getPhysicalAddressFrame_lt (entry : U64) :
    (getPhysicalAddressFrame entry).toNat < 2 ^ 48 := by
  rw [toNat_getPhysicalAddressFrame]
  omega

theorem FreeWalk.Gathers.first {page : MappedPage} {s : PageSize} (hs : page.pageSize = s.value) :
    (FreeWalk.first start page).Gathers := by
  have hframe := toNat_getPhysicalAddressFrame_lt page.entry
  have hbytes := s.bytes_le
  have hfour := four_kib_le s
  refine ⟨show 0 < (1 : U64).toNat by decide, ?_, s, hs⟩
  change 1 * 4096 ≤ (getPhysicalAddressFrame page.entry + page.pageSize).toNat
  rw [hs, BitVec.toNat_add, PageSize.toNat_value, Nat.mod_eq_of_lt (by omega)]
  omega

/-- A round gathers one page more, or frees what it has gathered and starts with the next page. -/
theorem freeMappedRound_gathers (hsize : ∀ a, ∃ s : PageSize, (lookup a).pageSize = s.value)
    (stop : U64) (w : FreeWalk) :
    Ensures (fun c => w.Gathers ∧ c.Filled)
      (freeMappedRound (FreeCalls.ask lookup) FreeCalls.free stop w)
      fun r c' => match r with
        | .inl next => next.Gathers ∧ c'.Filled
        | .inr last => last.Gathers ∧ c'.Filled := by
  obtain ⟨x, ⟨pageStart, numberOfPages⟩, previous, next⟩ := w
  rintro c r c' ⟨⟨hpos, hbelow, s, rfl⟩, hfilled⟩ hrun
  obtain ⟨t, ht⟩ := hsize x
  unfold freeMappedRound at hrun
  split at hrun
  · rw [bind_of_ok (ask_returns x c)] at hrun
    dsimp only at hpos hbelow hrun
    split at hrun
    · rename_i hfollows
      obtain ⟨rfl, rfl⟩ := pure_eq_ok.mp hrun
      have hframe := toNat_getPhysicalAddressFrame_lt (lookup x).entry
      rw [hfollows.1] at hframe
      have hbytes := s.bytes_le
      have hfour := four_kib_le s
      have hmore : (numberOfPages + 1).toNat = numberOfPages.toNat + 1 := by
        rw [BitVec.toNat_add]
        exact Nat.mod_eq_of_lt (show _ + 1 < _ by omega)
      refine ⟨⟨?_, ?_, s, rfl⟩, hfilled⟩
      · change 0 < (numberOfPages + 1).toNat
        omega
      · change (numberOfPages + 1).toNat * 4096 ≤ (next + s.value).toNat
        rw [hmore, BitVec.toNat_add, PageSize.toNat_value, Nat.mod_eq_of_lt (by omega), Nat.add_mul,
          Nat.one_mul]
        exact Nat.add_le_add hbelow hfour
    · rw [bind_of_ok (free_returns ⟨pageStart, numberOfPages⟩ s.value _)] at hrun
      obtain ⟨rfl, rfl⟩ := pure_eq_ok.mp hrun
      exact ⟨.first ht, hfilled.free ⟨hpos, s, rfl⟩⟩
  · obtain ⟨rfl, rfl⟩ := pure_eq_ok.mp hrun
    exact ⟨⟨hpos, hbelow, s, rfl⟩, hfilled⟩

/-- A walk that gets to its first page frees a region. -/
theorem freeMappedFrom_filled (hsize : ∀ a, ∃ s : PageSize, (lookup a).pageSize = s.value)
    (hc : c.Filled)
    (hrun : freeMappedFrom (FreeCalls.ask lookup) FreeCalls.free rounds stop start (lookup start)
      c = .ok u c') : c'.Filled ∧ c'.freed ≠ [] := by
  obtain ⟨s, hs⟩ := hsize start
  rw [freeMappedFrom, bind_eq_ok] at hrun
  obtain ⟨w, c₁, hloop, hfree⟩ := hrun
  obtain ⟨hgathers, hfilled⟩ : w.Gathers ∧ c₁.Filled := by
    refine @Ensures.loop _ _ _ _ _ _ (fun w c => w.Gathers ∧ c.Filled)
      (fun w c => w.Gathers ∧ c.Filled) (fun w => ?_) rounds _ c w c₁
      ⟨FreeWalk.Gathers.first hs, hc⟩ hloop
    refine (freeMappedRound_gathers hsize stop w).weaken ?_
    rintro (_ | _) _ hr <;> exact hr
  rw [free_returns] at hfree
  obtain ⟨-, rfl⟩ := EStateM.Result.ok.inj hfree
  exact ⟨hfilled.free ⟨hgathers.pos, hgathers.size⟩, by simp⟩

/-- What `freeMapped` frees are regions with pages, none only where its walk stops at once. -/
theorem freeMappedCalls_filled (hsize : ∀ a, ∃ s : PageSize, (lookup a).pageSize = s.value)
    (hrun : freeMappedCalls lookup rounds start bytes ⟨[], []⟩ = .ok u c) :
    c.Filled ∧ (c.freed = [] → StopsAtOnce lookup start bytes) := by
  rw [freeMappedCalls, freeMapped, bind_of_ok (ask_returns start _)] at hrun
  dsimp only at hrun
  split at hrun
  · rename_i hunaligned
    split at hrun
    · rename_i hle
      obtain ⟨-, rfl⟩ := pure_eq_ok.mp hrun
      exact ⟨.nil, fun _ => ⟨hunaligned, hle⟩⟩
    · rw [bind_of_ok (ask_returns _ _)] at hrun
      obtain ⟨hfilled, hne⟩ := freeMappedFrom_filled hsize .nil hrun
      exact ⟨hfilled, fun hnil => absurd hnil hne⟩
  · obtain ⟨hfilled, hne⟩ := freeMappedFrom_filled hsize .nil hrun
    exact ⟨hfilled, fun hnil => absurd hnil hne⟩

/-- A walk that stops at once frees nothing. -/
theorem freeMappedCalls_of_stopsAtOnce (h : StopsAtOnce lookup start bytes) (rounds : Nat) :
    freeMappedCalls lookup rounds start bytes ⟨[], []⟩ = .ok () ⟨[start], []⟩ := by
  rw [freeMappedCalls, freeMapped, bind_of_ok (ask_returns start _)]
  dsimp only
  rw [if_pos h.1, if_pos h.2]
  rfl

end Walk

/-! ## The addresses that are freed -/

/-- The addresses of a freed region. -/
def freedSpan (f : PagedMemory × U64) : Span :=
  ⟨f.1.pageStart.toNat, f.1.numberOfPages.toNat * f.2.toNat⟩

/-- The addresses of a frame of some size. -/
def sizedSpan (x : U64 × U64) : Span := ⟨x.1.toNat, x.2.toNat⟩

section Addresses

variable {c : FreeCalls} {f : PagedMemory × U64} {r : PagedMemory} {s : PageSize} {a k : Nat}

/-- Frames below bit 48 follow each other without wrapping. -/
theorem toNat_frame (hbelow : ∀ x ∈ framesOf (r, s.value), x.1.toNat < 2 ^ 48)
    (hk : k < r.numberOfPages.toNat) :
    (r.pageStart + BitVec.ofNat 64 k * s.value).toNat = r.pageStart.toNat + k * s.bytes := by
  induction k with
  | zero => simp
  | succ k ih =>
    have hbytes := s.bytes_le
    have hlt := hbelow _ (List.mem_map_of_mem (List.mem_range.mpr (Nat.lt_of_succ_lt hk)))
    have hnext : r.pageStart + BitVec.ofNat 64 (k + 1) * s.value =
        r.pageStart + BitVec.ofNat 64 k * s.value + s.value := by
      rw [BitVec.ofNat_add, BitVec.add_mul, BitVec.add_assoc]
      exact congrArg (fun x => r.pageStart + (BitVec.ofNat 64 k * s.value + x)) (BitVec.one_mul _)
    rw [ih (Nat.lt_of_succ_lt hk)] at hlt
    rw [hnext, BitVec.toNat_add, ih (Nat.lt_of_succ_lt hk), PageSize.toNat_value,
      Nat.mod_eq_of_lt (by omega), Nat.add_mul, Nat.one_mul, Nat.add_assoc]

/-- The addresses of a region are those of its frames. -/
theorem mem_freedSpan (hf : IsFilled f) (hbelow : ∀ x ∈ framesOf f, x.1.toNat < 2 ^ 48) :
    a ∈ freedSpan f ↔ ∃ x ∈ framesOf f, a ∈ sizedSpan x := by
  obtain ⟨r, size⟩ := f
  obtain ⟨-, s, rfl⟩ := hf
  have hspan : freedSpan (r, s.value) =
      ⟨r.pageStart.toNat, r.numberOfPages.toNat * s.bytes⟩ := by
    rw [freedSpan, PageSize.toNat_value]
  have hframe : ∀ k < r.numberOfPages.toNat,
      sizedSpan (r.pageStart + BitVec.ofNat 64 k * s.value, s.value) =
        ⟨r.pageStart.toNat + k * s.bytes, s.bytes⟩ := by
    intro k hk
    rw [sizedSpan, toNat_frame hbelow hk, PageSize.toNat_value]
  rw [hspan, Span.mem_mul_iff s.bytes_pos]
  constructor
  · rintro ⟨k, hk, ha⟩
    exact ⟨_, List.mem_map_of_mem (List.mem_range.mpr hk), hframe k hk ▸ ha⟩
  · rintro ⟨x, hx, ha⟩
    obtain ⟨k, hk, rfl⟩ := List.mem_map.mp hx
    rw [List.mem_range] at hk
    exact ⟨k, hk, hframe k hk ▸ ha⟩

/-- The addresses that are freed are those of the frames. -/
theorem FreeCalls.Filled.mem_freed (h : c.Filled) (hbelow : ∀ x ∈ c.frames, x.1.toNat < 2 ^ 48) :
    (∃ f ∈ c.freed, a ∈ freedSpan f) ↔ ∃ x ∈ c.frames, a ∈ sizedSpan x := by
  have hregion : ∀ f ∈ c.freed, (a ∈ freedSpan f ↔ ∃ x ∈ framesOf f, a ∈ sizedSpan x) :=
    fun f hf => mem_freedSpan (h f hf) fun x hx => hbelow x (List.mem_flatMap.mpr ⟨f, hf, hx⟩)
  constructor
  · rintro ⟨f, hf, ha⟩
    obtain ⟨x, hx, hax⟩ := (hregion f hf).mp ha
    exact ⟨x, List.mem_flatMap.mpr ⟨f, hf, hx⟩, hax⟩
  · rintro ⟨x, hx, ha⟩
    obtain ⟨f, hf, hxf⟩ := List.mem_flatMap.mp hx
    exact ⟨f, hf, (hregion f hf).mpr ⟨x, hxf, ha⟩⟩

end Addresses

/-! ## On the memory itself -/

section Memory

variable {m : MappedMemory} {depth : Nat} {freed : List (PagedMemory × U64)}

theorem PageSize.ofValue?_value (s : PageSize) : PageSize.ofValue? s.value = some s := by
  cases s <;> decide

theorem freePageOfSize_value (depth : Nat) (memory : PagedMemory) (s : PageSize) :
    freePageOfSize depth memory s.value = onPhysical (freePhysicalPage depth memory s) := by
  rw [freePageOfSize, PageSize.ofValue?_value]

/-- The tables after a region was freed. -/
theorem noneFull_final_onPhysical {α : Type} {x : Kernel α} :
    (final (onPhysical x m)).NoneFull ↔ (final (x m.paging.allocator)).NoneFull := by
  rw [onPhysical, final_zoom]
  rfl

/-- Freeing does not undo that a table was full. -/
theorem keeps_freeRegions (depth : Nat) (freed : List (PagedMemory × U64)) :
    Keeps (fun m => ¬ m.NoneFull) (freeRegions depth freed) := by
  induction freed with
  | nil => exact Keeps.pure _
  | cons f freed ih =>
    refine Keeps.bind (fun m hm => ?_) fun _ => ih
    cases hsize : PageSize.ofValue? f.2 with
    | none =>
      rw [freePageOfSize, hsize]
      exact hm
    | some s =>
      have hadds : AddsToJournal (freePhysicalPage depth f.1 s) :=
        AddsToJournal.freePhysicalPagesWithManager
          (fun n => AddsToJournal.allocContiguousPhysicalPagesWithManager depth n _) s _
      rw [freePageOfSize, hsize]
      change ¬ (final (onPhysical (freePhysicalPage depth f.1 s) m)).NoneFull
      rw [noneFull_final_onPhysical]
      exact fun hnone => hm (hnone.of_prefix (hadds m.paging.allocator))

/-- A region that is listed is free. -/
theorem PhysicalMemory.free_setManager (p : PhysicalMemory) (s : PageSize) (r : PagedMemory) :
    (p.setManager s { p.manager s with memory := (p.manager s).memory ++ [r] }).free =
      p.free ∪ {a | a ∈ r.span s} := by
  ext a
  simp only [PhysicalMemory.free, PhysicalMemory.mem_freeSpans, Set.mem_ofPred_eq, Set.mem_union,
    PhysicalMemory.manager_setManager_eq]
  constructor
  · rintro ⟨_, ⟨t, q, hq, rfl⟩, ha⟩
    by_cases ht : t = s
    · subst ht
      rw [if_pos rfl] at hq
      rcases List.mem_append.mp hq with hq | hq
      · exact .inl ⟨_, ⟨t, q, hq, rfl⟩, ha⟩
      · rw [List.mem_singleton] at hq
        exact .inr (hq ▸ ha)
    · rw [if_neg ht] at hq
      exact .inl ⟨_, ⟨t, q, hq, rfl⟩, ha⟩
  · rintro (⟨_, ⟨t, q, hq, rfl⟩, ha⟩ | ha)
    · refine ⟨_, ⟨t, q, ?_, rfl⟩, ha⟩
      by_cases ht : t = s
      · subst ht
        rw [if_pos rfl]
        exact List.mem_append_left _ hq
      · rwa [if_neg ht]
    · refine ⟨_, ⟨s, r, ?_, rfl⟩, ha⟩
      rw [if_pos rfl]
      exact List.mem_append_right _ (List.mem_singleton_self r)

/-- Regions are freed, if no table is full. -/
theorem freeRegions_returns (hsize : ∀ f ∈ freed, ∃ s : PageSize, f.2 = s.value)
    (hfull : (final (freeRegions depth freed m)).NoneFull) :
    ReturnsWith (freeRegions depth freed m) fun _ m' =>
      m'.free = m.free ∪ {a | ∃ f ∈ freed, a ∈ freedSpan f} := by
  induction freed generalizing m with
  | nil =>
    refine ReturnsWith.pure ?_
    ext a
    simp
  | cons f freed ih =>
    obtain ⟨memory, size⟩ := f
    rw [List.forall_mem_cons] at hsize
    obtain ⟨⟨s, rfl⟩, hsize⟩ := hsize
    have hfirst : (final (freePhysicalPage depth memory s m.paging.allocator)).NoneFull := by
      have hpage := final_of_keeps_not (fun _ => keeps_freeRegions depth freed) hfull
      rwa [freePageOfSize_value, noneFull_final_onPhysical] at hpage
    have hpage : freePageOfSize depth memory s.value m = .ok () { m with paging := { m.paging with
        allocator := m.paging.allocator.setManager s { m.paging.allocator.manager s with
          memory := (m.paging.allocator.manager s).memory ++ [memory] } } } := by
      rw [freePageOfSize_value]
      exact zoom_eq_ok.mpr ⟨_, freePhysicalPages_of_noneFull hfirst, rfl⟩
    rw [freeRegions, bind_of_ok hpage] at hfull ⊢
    refine (ih hsize hfull).weaken fun _ m' hfree => ?_
    rw [hfree, MappedMemory.free, PhysicalMemory.free_setManager]
    ext a
    simp [MappedMemory.free, freedSpan, PagedMemory.span, or_assoc]

end Memory

end Homegrown.Memory
