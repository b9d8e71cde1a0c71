import Homegrown.Memory.Policy.Tenancy

/-!
# Runs of tenancies

What holds in every state that callers get to: where each address of the usable memory is, and what
a load returns. From each of these states the pages in hand can be freed, and `kernelmain` is the
first to do so: it frees what its arena has left of the memory it was allocated.
-/

namespace Homegrown.Memory

/-- The tables of the managers. -/
def PhysicalMemory.tables (m : PhysicalMemory) : List Span :=
  [m.basePMM.table, m.largePMM.table, m.hugePMM.table]

theorem PhysicalMemory.count_spans_eq (m : PhysicalMemory) (a : Nat) :
    Span.count m.spans a = Span.count m.tables a + Span.count m.freeSpans a := by
  simp only [spans, PhysicalMemoryManager.spans, freeSpans, tables, Span.count_append,
    Span.count_cons' _ (List.map _ _), Span.count_cons' _ (_ :: _)]
  omega

namespace Tenancy

/-- Every address of the usable memory has one use: a table of a manager, a free region, a page
table, the frame of a page that callers hold, or what else was in hand before the run. The pages
do not overlap, and each is looked up at all its addresses. -/
structure Accounts (t : Tenancy) (use : MemoryUse) (others : List Holding) (usable : Set Nat) :
    Prop where
  directory : Directory t.memory.paging.words t.memory.paging.level4PageTable use.tree
  tables : ∀ table, table ∈ use.tables ↔ table ∈ use.tree.tables
  partition : Span.ExactCover (t.memory.paging.allocator.tables ++
    t.memory.paging.allocator.freeSpans ++ use.tables.map (fun table => (tableFrame table).span) ++
    t.pages.map VirtualPage.frameSpan ++ others.map Holding.span) usable
  disjoint : t.pages.Pairwise fun p q => p.span.Disjoint q.span
  looked : ∀ p ∈ t.pages, ∀ a : U64, a.toNat ∈ p.span →
    t.memory.lookUp a = ⟨pageEntry p.size p.frame 0, p.size.value⟩

section Runs

variable {depth : Nat} {m m' : MappedMemory} {use : MemoryUse} {others : List Holding}
  {usable : Set Nat} {t t' : Tenancy} {events : List (CellEvent U64 U64)} {start bytes : U64}

theorem Sound.accounts (h : t.Sound use others usable) : t.Accounts use others usable := by
  refine ⟨h.memory.directory, h.memory.mem_tables, h.memory.owns.cover.congr fun a => ?_,
    h.disjoint, fun p hp a ha => h.lookUp_eq hp ha⟩
  rw [Custody.count_spans, PhysicalMemory.count_spans_eq, use.count_inHand, h.outstanding,
    MemoryUse.tableCount]
  simp only [List.map_append, Span.count_append, map_span_holding]
  omega

/-- In every state that callers get to, each address of the usable memory has one use. -/
theorem accounts_of_run (hm : m.Sound use usable) (hbelow : ∀ a ∈ usable, a < 2 ^ 48)
    (hrun : Run depth ⟨m, []⟩ events t) : ∃ use', t.Accounts use' use.outstanding usable := by
  obtain ⟨⟨use', hsound⟩, -⟩ := (Sound.of_memory hm).run hbelow hrun
  exact ⟨use', hsound.accounts⟩

/-- A word is stored to the first of three pages, and the first two of them can be freed. -/
theorem sixteenFrames_run : ∃ m : MappedMemory, Run 1 ⟨sixteenFrames, []⟩
    ([] ++ [.lend (wordsIn ⟨higherHalfStart.toNat, 0x3000⟩)] ++ [.store higherHalfStart 7])
    ⟨m.store higherHalfStart 7, m.pagesAt .basePage higherHalfStart 3⟩ ∧
      (final (freeMapped lookUpPage (freePageOfSize 1) (2 ^ 64) higherHalfStart 0x2000
        (m.store higherHalfStart 7).fresh)).paging.allocator.journal = [] := by
  obtain ⟨v, m, hrun, rfl, hjournal, hheld, hfree⟩ :
      ReturnsWith (allocAndMapExplicit 1 3 0x1000 sixteenFrames.fresh) fun v m =>
        v = higherHalfStart ∧ m.paging.allocator.journal = [.slotWritten 0] ∧
        Held ⟨m, m.pagesAt .basePage higherHalfStart 3⟩ higherHalfStart ∧
        (final (freeMapped lookUpPage (freePageOfSize 1) (2 ^ 64) higherHalfStart 0x2000
          (m.store higherHalfStart 7).fresh)).paging.allocator.journal = [] := by
    decide +kernel
  have hsize : PageSize.ofValue? (convertPreferredPageToAvailablePages 0x1000).pageSize =
      some .basePage := by decide +kernel
  have hroom : sixteenFrames.RoomFor .basePage (convertedNumberOfPages 3 0x1000) := by
    rw [MappedMemory.RoomFor]
    decide +kernel
  have htake : Step 1 ⟨sixteenFrames, []⟩ _ _ :=
    .allocAndMapExplicit hsize hroom hrun (noneFull_of_journal hjournal)
  have hpages : convertedNumberOfPages 3 0x1000 = 3 := by decide +kernel
  rw [hpages, List.append_nil] at htake
  exact ⟨m, .snoc (.snoc (.nil _) htake) (.store hheld), hfree⟩

theorem accounts_of_run_sixteen : ∃ (m : MappedMemory) (use : MemoryUse), Accounts
    ⟨m.store higherHalfStart 7, m.pagesAt .basePage higherHalfStart 3⟩ use []
    {a | ∃ x ∈ Custody.spans (sixteenFrames.paging.allocator, [tableFrame 0x14000]), a ∈ x} := by
  obtain ⟨m, hrun, -⟩ := sixteenFrames_run
  obtain ⟨use, haccounts⟩ := accounts_of_run sixteenFrames_sound sixteenFrames_lt hrun
  exact ⟨m, use, haccounts⟩

/-- Where callers hold all pages of a range, `freeMapped` returns unless a table of a manager
becomes full, and the frames of the pages that start in the range are free then. -/
theorem Sound.free_returns (h : t.Sound use others usable)
    (hcovered : ∀ a ∈ Span.mk start.toNat bytes.toNat, ∃ p ∈ t.pages, a ∈ p.span)
    (hbytes : bytes ≠ 0) (hfits : start.toNat + bytes.toNat < 2 ^ 64)
    (hfull : (final (freeMapped lookUpPage (freePageOfSize depth) (2 ^ 64) start bytes
      t.memory.fresh)).NoneFull) :
    ReturnsWith (freeMapped lookUpPage (freePageOfSize depth) (2 ^ 64) start bytes t.memory.fresh)
      fun _ m' => m'.free = t.memory.free ∪
        {a | ∃ p ∈ pagesStartingIn t.pages ⟨start.toNat, bytes.toNat⟩, a ∈ p.frameSpan} := by
  obtain ⟨freed, hfree, hcount, -⟩ := h.exists_freed depth hcovered hbytes hfits
  rw [hfree] at hfull ⊢
  refine (freeRegions_returns (fun f hf => ?_) hfull).weaken fun _ m' hm' => ?_
  · obtain ⟨x, -, rfl⟩ := List.mem_map.mp hf
    exact ⟨x.pageSize, rfl⟩
  · rw [hm']
    ext a
    rw [Set.mem_union, Set.mem_union, Set.mem_ofPred_eq, Set.mem_ofPred_eq, ← frameCount_pos,
      ← hcount, Span.count_pos_iff]
    refine or_congr Iff.rfl ?_
    simp only [List.mem_map, exists_exists_and_eq_and]
    refine exists_congr fun x => and_congr_right fun _ => ?_
    rw [freedSpan, Holding.region, PageSize.toNat_value]
    rfl

/-- In every state that callers get to, they can free every range they hold, and go on. -/
theorem run_free (hm : m.Sound use usable) (hbelow : ∀ a ∈ usable, a < 2 ^ 48)
    (hrun : Run depth ⟨m, []⟩ events t)
    (hcovered : ∀ a ∈ Span.mk start.toNat bytes.toNat, ∃ p ∈ t.pages, a ∈ p.span)
    (hbytes : bytes ≠ 0) (hfits : start.toNat + bytes.toNat < 2 ^ 64)
    (hfull : (final (freeMapped lookUpPage (freePageOfSize depth) (2 ^ 64) start bytes
      t.memory.fresh)).NoneFull) :
    ∃ m', Run depth ⟨m, []⟩ (events ++ [.takeBack
        {a | ∃ p ∈ pagesStartingIn t.pages ⟨start.toNat, bytes.toNat⟩, a.toNat ∈ p.span}])
        ⟨m', pagesLeft t.pages ⟨start.toNat, bytes.toNat⟩⟩ ∧
      m'.free = t.memory.free ∪
        {a | ∃ p ∈ pagesStartingIn t.pages ⟨start.toNat, bytes.toNat⟩, a ∈ p.frameSpan} := by
  obtain ⟨⟨use', hsound⟩, -⟩ := (Sound.of_memory hm).run hbelow hrun
  obtain ⟨⟨⟩, m', hfree, hm'⟩ := hsound.free_returns hcovered hbytes hfits hfull
  rw [hfree] at hfull
  exact ⟨m', hrun.snoc (.freeMapped hcovered hbytes hfits hfree hfull), hm'⟩

theorem run_free_sixteen : ∃ (m m' : MappedMemory) (events : List (CellEvent U64 U64)),
    Run 1 ⟨sixteenFrames, []⟩ events ⟨m', pagesLeft (m.pagesAt .basePage higherHalfStart 3)
      ⟨higherHalfStart.toNat, 0x2000⟩⟩ := by
  obtain ⟨m, hrun, hjournal⟩ := sixteenFrames_run
  have hbytes : (0x2000 : U64) ≠ 0 := by decide
  obtain ⟨m', hrun', -⟩ := run_free sixteenFrames_sound sixteenFrames_lt hrun
    (fun a ha => (MappedMemory.mem_span_pagesAt (by decide)).mp
      (Span.mem_mk.mpr ⟨ha.1, ha.2.trans (by decide)⟩))
    hbytes (by decide) (fun t ht => absurd (hjournal ▸ ht) List.not_mem_nil)
  exact ⟨m, m', _, hrun'⟩

/-- Stores leave the pages with their callers. -/
theorem Run.pages_eq (hrun : Run depth t events t')
    (hstores : ∀ e ∈ events, ∃ a value, e = .store a value) : t'.pages = t.pages := by
  induction hrun with
  | nil => rfl
  | snoc run step ih =>
    rw [List.forall_mem_append, List.forall_mem_singleton] at hstores
    obtain ⟨hstores, a, value, rfl⟩ := hstores
    rw [← ih hstores]
    cases step with
    | store held => rfl

/-- The pages that start below an address. -/
def pagesBelow (pages : List VirtualPage) (limit : Nat) : List VirtualPage :=
  pages.filter fun p => decide (p.virt.toNat < limit)

/-- What `kernelmain` does with the memory for its arena: some of it is used and stored to, and the
rest is freed. The pages that start in the used part are still in hand with what was stored there,
and every other page of the allocation is free again. -/
theorem free_rest (hm : m.Sound use usable) (hbelow : ∀ a ∈ usable, a < 2 ^ 48) {bytes v used : U64}
    (hbytes : bytes.toNat ≤ 2 ^ 64 - 2 ^ 30) (hused : used < bytes) (hroom : m.HasRoom bytes)
    (halloc : allocAndMap depth bytes m.fresh = .ok v m') (hfull : m'.NoneFull)
    (hrun : Run depth
      ⟨m', m'.pagesAt (chosenPageSize bytes) v (chosenPages bytes).toNat⟩ events t)
    (hstores : ∀ e ∈ events, ∃ a value, e = .store a value)
    (hfull' : (final (freeMapped lookUpPage (freePageOfSize depth) (2 ^ 64) (v + used)
      (bytes - used) t.memory.fresh)).NoneFull) :
    ReturnsWith (freeMapped lookUpPage (freePageOfSize depth) (2 ^ 64) (v + used) (bytes - used)
      t.memory.fresh) fun _ m'' => ∃ use',
        Accounts ⟨m'', pagesBelow t.pages (v.toNat + used.toNat)⟩ use' use.outstanding usable ∧
        ∀ a : U64, 8 ∣ a.toNat → v.toNat ≤ a.toNat → a.toNat < v.toNat + used.toNat →
          m''.load a = t.memory.load a := by
  obtain ⟨next, chunks, p, htakes, -⟩ := allocAndMap_takes hm halloc hroom
  have hend := htakes.fits
  rw [htakes.pages] at hend
  obtain ⟨henough, hwaste⟩ := chosenPages_bounds hbytes
  obtain ⟨⟨use₁, hsound₁⟩, -⟩ :=
    (Sound.of_memory hm).step hbelow (.allocAndMap hroom halloc hfull)
  rw [List.append_nil] at hsound₁
  obtain ⟨⟨use₂, hsound₂⟩, -⟩ := hsound₁.run hbelow hrun
  have hpages := hrun.pages_eq hstores
  dsimp only at hpages
  rw [BitVec.lt_def] at hused
  have hstart : (v + used).toNat = v.toNat + used.toNat := by
    rw [BitVec.toNat_add, Nat.mod_eq_of_lt (by omega)]
  have hrest : (bytes - used).toNat = bytes.toNat - used.toNat :=
    BitVec.toNat_sub_of_le (BitVec.le_def.mpr hused.le)
  have hcovered : ∀ a ∈ Span.mk (v + used).toNat (bytes - used).toNat,
      ∃ q ∈ t.pages, a ∈ q.span := by
    intro a ha
    rw [hstart, hrest, Span.mem_mk] at ha
    rw [hpages, ← MappedMemory.mem_span_pagesAt hend, Span.mem_mk]
    omega
  have hsome : bytes - used ≠ 0 := by
    intro hzero
    rw [hzero] at hrest
    change 0 = _ at hrest
    omega
  have hfits : (v + used).toNat + (bytes - used).toNat < 2 ^ 64 := by omega
  -- Every page starts within the bytes, so those that do not start in the rest start below it.
  have hleft : pagesLeft t.pages ⟨(v + used).toNat, (bytes - used).toNat⟩ =
      pagesBelow t.pages (v.toNat + used.toNat) := by
    refine List.filter_congr fun q hq => ?_
    rw [hpages] at hq
    obtain ⟨-, k, hk, hvirt⟩ := MappedMemory.exists_index_pagesAt hend hq
    have hle := Nat.mul_le_mul_right (chosenPageSize bytes).bytes (Nat.succ_le_of_lt hk)
    rw [Nat.succ_mul] at hle
    rw [decide_eq_decide, hstart, hrest, Span.mem_mk]
    omega
  obtain ⟨⟨⟩, m'', hfree, -⟩ := hsound₂.free_returns hcovered hsome hfits hfull'
  rw [hfree] at hfull'
  obtain ⟨⟨use₃, hsound₃⟩, hcells⟩ :=
    hsound₂.step hbelow (.freeMapped hcovered hsome hfits hfree hfull')
  rw [hleft] at hsound₃ hcells
  refine ⟨(), m'', hfree, use₃, hsound₃.accounts, fun a hword hlow hhigh => ?_⟩
  obtain ⟨q, hq, haq⟩ := (MappedMemory.mem_span_pagesAt (m := m') hend).mp
    (Span.mem_mk.mpr ⟨hlow, by omega⟩)
  rw [← hpages] at hq
  have hqlow : q ∈ pagesBelow t.pages (v.toNat + used.toNat) :=
    List.mem_filter.mpr ⟨hq, decide_eq_true (lt_of_le_of_lt haq.1 hhigh)⟩
  have hkept := hcells.kept_of_not_touches (a := a) (by
    rintro ⟨r, hr, har⟩
    have hin := of_decide_eq_true (List.mem_filter.mp hr).2
    rw [hstart, Span.mem_mk] at hin
    exact absurd (hin.1.trans har.1) (by omega))
  rw [cells_of_held (held_of_mem hword hqlow haq), cells_of_held (held_of_mem hword hq haq),
    Option.some.injEq] at hkept
  exact hkept

/-- The second of the two pages of 5000 bytes is freed, of which 16 bytes are used. -/
theorem free_rest_sixteen : ∃ m m' : MappedMemory, ∃ use,
    (m.store higherHalfStart 7).load higherHalfStart = 7 ∧
      Accounts ⟨m', pagesBelow (m.pagesAt .basePage higherHalfStart 2) (higherHalfStart.toNat + 16)⟩
        use [] {a | ∃ x ∈ Custody.spans (sixteenFrames.paging.allocator, [tableFrame 0x14000]),
          a ∈ x} ∧
      m'.load higherHalfStart = (m.store higherHalfStart 7).load higherHalfStart := by
  obtain ⟨v, m, hrun, rfl, hjournal, hheld, hload, hfree⟩ :
      ReturnsWith (allocAndMap 1 5000 sixteenFrames.fresh) fun v m =>
        v = higherHalfStart ∧ m.paging.allocator.journal = [.slotWritten 0] ∧
        Held ⟨m, m.pagesAt .basePage higherHalfStart 2⟩ higherHalfStart ∧
        (m.store higherHalfStart 7).load higherHalfStart = 7 ∧
        (final (freeMapped lookUpPage (freePageOfSize 1) (2 ^ 64) (higherHalfStart + 16) (5000 - 16)
          (m.store higherHalfStart 7).fresh)).paging.allocator.journal = [] := by
    decide +kernel
  have hroom : sixteenFrames.HasRoom 5000 := by
    rw [MappedMemory.HasRoom]
    decide +kernel
  have hsize : chosenPageSize 5000 = .basePage := by decide +kernel
  have hpages : (chosenPages 5000).toNat = 2 := by decide +kernel
  have hstore : Run 1 ⟨m, m.pagesAt (chosenPageSize 5000) higherHalfStart (chosenPages 5000).toNat⟩
      ([] ++ [.store higherHalfStart 7]) ⟨m.store higherHalfStart 7,
        m.pagesAt (chosenPageSize 5000) higherHalfStart (chosenPages 5000).toNat⟩ := by
    rw [hsize, hpages]
    exact .snoc (.nil _) (.store hheld)
  obtain ⟨⟨⟩, m', -, use, haccounts, hkept⟩ := free_rest sixteenFrames_sound sixteenFrames_lt
    (by decide) (by decide : (16 : U64) < 5000) hroom hrun (noneFull_of_journal hjournal) hstore
    (List.forall_mem_singleton.mpr ⟨_, _, rfl⟩)
    (fun t ht => absurd (hfree ▸ ht) List.not_mem_nil)
  rw [hsize, hpages] at haccounts
  exact ⟨m, m', use, hload, haccounts, hkept _ (by decide) le_rfl (by decide)⟩

end Runs

end Tenancy

end Homegrown.Memory
