import Homegrown.Core.Cells
import Homegrown.Memory.Policy.Handover

/-!
# Tenancies

Callers allocate mapped memory, store words in it, and free it again, in any order. A state of such
a run is the memory and the pages that callers hold. `Tenancy.Sound` is kept by every step: what is
free, what page tables use and what callers hold partition the usable memory, and every page is
looked up at all its addresses. The words of the pages then behave as cells that are lent out: the
calls change no word of a page they do not lend or take back, although page tables, pages and free
frames lie in one physical memory and the mapper writes to it.
-/

namespace Homegrown.Memory

open Radix

/-! ## Loads and stores -/

section Access

variable (m : MappedMemory) (virt value : U64)

/-- Where the processor finds an address: in the frame of its page. -/
def MappedMemory.physicalAddress : U64 :=
  let page := m.lookUp virt
  getPhysicalAddressFrame page.entry + ringRangeValue virt page.pageSize

/-- A load of a word. -/
def MappedMemory.load : U64 := m.paging.words (m.physicalAddress virt)

/-- A store of a word. -/
def MappedMemory.store : MappedMemory :=
  { m with paging := { m.paging with
      words := Function.update m.paging.words (m.physicalAddress virt) value } }

end Access

/-! ## Steps -/

/-- So many pages fit in what is left of the higher half. -/
def MappedMemory.RoomFor (m : MappedMemory) (s : PageSize) (n : Nat) : Prop :=
  roundUp m.higherHalfRegion.start.toNat s.bytes + n * s.bytes ≤ m.higherHalfRegion.limit.toNat

/-- The pages that a number of pages of a preferred size is converted to. -/
def convertedNumberOfPages (np preferred : U64) : Nat :=
  (np * (convertPreferredPageToAvailablePages preferred).numberOfPages).toNat

/-- The addresses of the words in a span. -/
def wordsIn (x : Span) : Set U64 := {a | 8 ∣ a.toNat ∧ a.toNat ∈ x}

/-- The memory, and the pages that callers hold. -/
structure Tenancy where
  memory : MappedMemory
  pages : List VirtualPage

namespace Tenancy

/-- The address of a word in a page that callers hold. -/
def Held (t : Tenancy) (a : U64) : Prop := 8 ∣ a.toNat ∧ ∃ p ∈ t.pages, a.toNat ∈ p.span

instance (t : Tenancy) (a : U64) : Decidable (t.Held a) := inferInstanceAs (Decidable (_ ∧ _))

/-- The words of the pages, as cells. -/
def cells (t : Tenancy) : Cells U64 U64 := fun a =>
  if t.Held a then some (t.memory.load a) else none

theorem cells_of_held {t : Tenancy} {a : U64} (h : t.Held a) :
    t.cells a = some (t.memory.load a) := if_pos h

theorem cells_of_not_held {t : Tenancy} {a : U64} (h : ¬ t.Held a) : t.cells a = none := if_neg h

/-- The pages that do not start in a range. -/
def pagesLeft (pages : List VirtualPage) (range : Span) : List VirtualPage :=
  pages.filter fun p => decide (p.virt.toNat ∉ range)

/-- What callers do. They free what they hold, and store where they hold a page. No call notes a
full table of a manager, and none asks for more than the virtual addresses that are left. -/
inductive Step (depth : Nat) : Tenancy → CellEvent U64 U64 → Tenancy → Prop where
  | allocAndMapExplicit {m m' : MappedMemory} {pages : List VirtualPage} {np preferred v : U64}
      {s : PageSize}
      (size : PageSize.ofValue? (convertPreferredPageToAvailablePages preferred).pageSize = some s)
      (room : m.RoomFor s (convertedNumberOfPages np preferred))
      (run : allocAndMapExplicit depth np preferred m.fresh = .ok v m') (noneFull : m'.NoneFull) :
      Step depth ⟨m, pages⟩
        (.lend (wordsIn ⟨v.toNat, convertedNumberOfPages np preferred * s.bytes⟩))
        ⟨m', m'.pagesAt s v (convertedNumberOfPages np preferred) ++ pages⟩
  | allocContiguousAndMap {m m' : MappedMemory} {pages : List VirtualPage} {np preferred v : U64}
      {s : PageSize}
      (size : PageSize.ofValue? (convertPreferredPageToAvailablePages preferred).pageSize = some s)
      (room : m.RoomFor s (convertedNumberOfPages np preferred))
      (run : allocContiguousAndMap depth np preferred m.fresh = .ok v m')
      (noneFull : m'.NoneFull) :
      Step depth ⟨m, pages⟩
        (.lend (wordsIn ⟨v.toNat, convertedNumberOfPages np preferred * s.bytes⟩))
        ⟨m', m'.pagesAt s v (convertedNumberOfPages np preferred) ++ pages⟩
  | allocAndMap {m m' : MappedMemory} {pages : List VirtualPage} {bytes v : U64}
      (room : m.RoomFor (chosenPageSize bytes) (chosenPages bytes).toNat)
      (run : allocAndMap depth bytes m.fresh = .ok v m') (noneFull : m'.NoneFull) :
      Step depth ⟨m, pages⟩
        (.lend (wordsIn ⟨v.toNat, (chosenPages bytes).toNat * (chosenPageSize bytes).bytes⟩))
        ⟨m', m'.pagesAt (chosenPageSize bytes) v (chosenPages bytes).toNat ++ pages⟩
  | freeMapped {m m' : MappedMemory} {pages : List VirtualPage} {start bytes : U64}
      (covered : ∀ a ∈ Span.mk start.toNat bytes.toNat, ∃ p ∈ pages, a ∈ p.span)
      (some : bytes ≠ 0) (fits : start.toNat + bytes.toNat < 2 ^ 64)
      (run : freeMapped lookUpPage (freePageOfSize depth) (2 ^ 64) start bytes m.fresh = .ok () m')
      (noneFull : m'.NoneFull) :
      Step depth ⟨m, pages⟩
        (.takeBack {a | ∃ p ∈ pagesStartingIn pages ⟨start.toNat, bytes.toNat⟩, a.toNat ∈ p.span})
        ⟨m', pagesLeft pages ⟨start.toNat, bytes.toNat⟩⟩
  | store {m : MappedMemory} {pages : List VirtualPage} {a value : U64}
      (held : Held ⟨m, pages⟩ a) :
      Step depth ⟨m, pages⟩ (.store a value) ⟨m.store a value, pages⟩

/-- Steps one after the other. -/
inductive Run (depth : Nat) : Tenancy → List (CellEvent U64 U64) → Tenancy → Prop where
  | nil (t : Tenancy) : Run depth t [] t
  | snoc {t t' t'' : Tenancy} {events : List (CellEvent U64 U64)} {e : CellEvent U64 U64}
      (run : Run depth t events t') (step : Step depth t' e t'') :
      Run depth t (events ++ [e]) t''

/-! ## The invariant -/

/-- The pages that callers hold do not overlap, lie below the virtual addresses that are left, and
are mapped to frames in hand. What else is in hand was so before the run. -/
structure Sound (t : Tenancy) (use : MemoryUse) (others : List Holding) (usable : Set Nat) :
    Prop where
  memory : t.memory.Sound use usable
  outstanding : use.outstanding = t.pages.map VirtualPage.holding ++ others
  backed : ∀ p ∈ t.pages, Backed use.tree p
  below : ∀ p ∈ t.pages, p.span.stop ≤ t.memory.higherHalfRegion.start.toNat
  disjoint : t.pages.Pairwise fun p q => p.span.Disjoint q.span

section Facts

variable {t : Tenancy} {use : MemoryUse} {others : List Holding} {usable : Set Nat}
  {p q : VirtualPage} {a b : U64}

/-- Every address of a page is looked up to the entry of the page. -/
theorem Sound.lookUp_eq (h : t.Sound use others usable) (hp : p ∈ t.pages) (ha : a.toNat ∈ p.span) :
    t.memory.lookUp a = ⟨pageEntry p.size p.frame 0, p.size.value⟩ := by
  rw [MappedMemory.lookUp, h.memory.directory.getMappedPage_eq ((h.backed p hp).leaf a ha)]

/-- An address is found in the frame of its page, as far behind its start as it is in the page. -/
theorem Sound.toNat_physicalAddress (h : t.Sound use others usable) (hp : p ∈ t.pages)
    (ha : a.toNat ∈ p.span) : (t.memory.physicalAddress a).toNat =
      p.frame.toNat + (a.toNat - p.virt.toNat) := by
  have hpos := p.size.bytes_pos
  have hlt := (h.backed p hp).frame_lt
  obtain ⟨k, hk⟩ := (h.backed p hp).virt_aligned
  have hring : (ringRangeValue a p.size.value).toNat = a.toNat - p.virt.toNat := by
    rw [toNat_ringRangeValue p.size.isTwoPow_value, PageSize.toNat_value]
    rw [VirtualPage.span, Span.mem_mk] at ha
    have hsplit : a.toNat = (a.toNat - p.virt.toNat) + p.size.bytes * k := by omega
    rw [hsplit, Nat.add_mul_mod_self_left, Nat.mod_eq_of_lt (by omega)]
    omega
  rw [VirtualPage.span, Span.mem_mk] at ha
  simp only [MappedMemory.physicalAddress, h.lookUp_eq hp (Span.mem_mk.mpr ha),
    (h.backed p hp).frame_eq]
  rw [BitVec.toNat_add, hring, Nat.mod_eq_of_lt (by omega)]

theorem Sound.physicalAddress_mem (h : t.Sound use others usable) (hp : p ∈ t.pages)
    (ha : a.toNat ∈ p.span) : (t.memory.physicalAddress a).toNat ∈ p.frameSpan := by
  rw [h.toNat_physicalAddress hp ha]
  rw [VirtualPage.span, Span.mem_mk] at ha
  rw [VirtualPage.frameSpan, Span.mem_mk]
  omega

/-- What is free, what page tables use, the pages and what else is in hand do not overlap. -/
theorem Sound.count_le (h : t.Sound use others usable) (x : Nat) :
    Span.count t.memory.paging.allocator.freeSpans x + use.tableCount x + frameCount t.pages x +
      Span.count (others.map Holding.span) x ≤ 1 := by
  have hle := h.memory.owns.count_le x
  dsimp only at hle
  rw [use.count_inHand, h.outstanding, List.map_append, Span.count_append, map_span_holding] at hle
  rw [frameCount]
  omega

/-- The pages have frames of their own. -/
theorem Sound.frames_disjoint (h : t.Sound use others usable) :
    (t.pages.map VirtualPage.frameSpan).Pairwise Span.Disjoint := by
  rw [Span.pairwise_disjoint_iff_count]
  intro x
  have hle := h.count_le x
  rw [frameCount] at hle
  omega

/-- Pages that share a frame are the same page. -/
theorem Sound.eq_of_mem_frameSpan (h : t.Sound use others usable) (hp : p ∈ t.pages)
    (hq : q ∈ t.pages) {x : Nat} (hxp : x ∈ p.frameSpan) (hxq : x ∈ q.frameSpan) : p = q := by
  by_contra hne
  have hsymm : Std.Symm fun p q : VirtualPage => p.frameSpan.Disjoint q.frameSpan :=
    ⟨fun _ _ hd => hd.symm⟩
  exact (List.pairwise_map.mp h.frames_disjoint).forall hp hq hne x hxp hxq

/-- Two addresses of pages are found in two places. -/
theorem Sound.physicalAddress_inj (h : t.Sound use others usable) (ha : t.Held a) (hb : t.Held b)
    (hsame : t.memory.physicalAddress a = t.memory.physicalAddress b) : a = b := by
  obtain ⟨-, p, hp, hap⟩ := ha
  obtain ⟨-, q, hq, hbq⟩ := hb
  obtain rfl := h.eq_of_mem_frameSpan hp hq (h.physicalAddress_mem hp hap)
    (hsame ▸ h.physicalAddress_mem hq hbq)
  have hvalue := congrArg BitVec.toNat hsame
  rw [h.toNat_physicalAddress hp hap, h.toNat_physicalAddress hp hbq] at hvalue
  rw [VirtualPage.span, Span.mem_mk] at hap hbq
  exact BitVec.eq_of_toNat_eq (by omega)

/-- No word of a page lies in a page table. -/
theorem Sound.physicalAddress_not_mem_table (h : t.Sound use others usable) (ha : t.Held a)
    {table : U64} (htable : table ∈ use.tree.tables) :
    ¬ (table.toNat ≤ (t.memory.physicalAddress a).toNat ∧
      (t.memory.physicalAddress a).toNat < table.toNat + pageFrameSize) := by
  obtain ⟨-, p, hp, hap⟩ := ha
  intro hin
  have hcount := h.count_le (t.memory.physicalAddress a).toNat
  have hpage := frameCount_pos.mpr ⟨p, hp, h.physicalAddress_mem hp hap⟩
  have hused := h.memory.tableCount_pos.mpr ⟨table, htable, by
    rw [span_tableFrame, Span.mem_mk]
    exact hin⟩
  omega

end Facts

/-! ## Stores -/

section Store

variable {t : Tenancy} {use : MemoryUse} {others : List Holding} {usable : Set Nat}
  {a value : U64}

/-- A store to a page leaves the page tables as they are. -/
theorem Sound.store (h : t.Sound use others usable) (ha : t.Held a) (value : U64) :
    Sound ⟨t.memory.store a value, t.pages⟩ use others usable := by
  have hdirectory : Directory (t.memory.store a value).paging.words
      (t.memory.store a value).paging.level4PageTable use.tree := by
    refine h.memory.directory.congr_words fun table htable i => Function.update_of_ne ?_ _ _
    intro heq
    have haligned : pageFrameSize ∣ table.toNat := by
      obtain ⟨path, hpath⟩ := htable
      exact h.memory.directory.aligned hpath
    exact h.physicalAddress_not_mem_table ha htable
      (heq ▸ (entryAddress_mem_frame haligned haligned).mpr rfl)
  exact ⟨⟨hdirectory, h.memory.pruned, h.memory.mem_tables, h.memory.owns, h.memory.inHigherHalf,
    h.memory.unmapped⟩, h.outstanding, h.backed, h.below, h.disjoint⟩

/-- A store changes the word it stores. -/
theorem Sound.cells_store (h : t.Sound use others usable) (ha : t.Held a) :
    Cells.Step t.cells (.store a value) (cells ⟨t.memory.store a value, t.pages⟩) := by
  have hstored := h.store ha value
  have hplace : ∀ {b}, t.Held b →
      (t.memory.store a value).physicalAddress b = t.memory.physicalAddress b := by
    rintro b ⟨-, p, hp, hb⟩
    apply BitVec.eq_of_toNat_eq
    rw [h.toNat_physicalAddress hp hb]
    exact hstored.toNat_physicalAddress hp hb
  have hcell : ∀ {b}, t.Held b → cells ⟨t.memory.store a value, t.pages⟩ b =
      some (Function.update t.memory.paging.words (t.memory.physicalAddress a) value
        (t.memory.physicalAddress b)) := by
    intro b hb
    rw [← hplace hb]
    exact cells_of_held hb
  refine .store a value ?_ ?_ fun b hb => ?_
  · rw [cells_of_held ha]
    rfl
  · rw [hcell ha, Function.update_self]
  · by_cases hheld : t.Held b
    · rw [hcell hheld, cells_of_held hheld, MappedMemory.load, Function.update_of_ne]
      exact fun hsame => hb (h.physicalAddress_inj hheld ha hsame)
    · rw [cells_of_not_held hheld]
      exact cells_of_not_held hheld

end Store

/-! ## Pages that are taken -/

section Take

variable {depth : Nat} {m m' : MappedMemory} {pages : List VirtualPage} {use : MemoryUse}
  {others : List Holding} {usable : Set Nat} {s : PageSize} {n : Nat} {v : U64}
  {next : VirtualRegion} {chunks : List PagedMemory} {p : PhysicalMemory}

/-- A call that takes pages adds them to those in hand. -/
theorem Sound.take (h : Sound ⟨m, pages⟩ use others usable) (hbelow : ∀ a ∈ usable, a < 2 ^ 48)
    (htakes : m.Takes use s n v next chunks p)
    (hmap : mapChunks depth s v chunks ⟨next, { m.paging with allocator := p }⟩ = .ok () m')
    (hfull : m'.NoneFull) :
    ∃ use', Sound ⟨m', m'.pagesAt s v n ++ pages⟩ use' others usable ∧
      SameOutside use'.tree.tables m.paging.words m'.paging.words := by
  obtain ⟨use', hout, hgrown, hm', -, hsame⟩ := htakes.grows h.memory hmap hfull
  obtain ⟨_, -, -, hserves⟩ := htakes.serves h.memory hmap hfull
  have hbacked : ∀ q ∈ chunkPages s v chunks, q.size = s ∧ Backed use'.tree q := fun q hq =>
    htakes.backed h.memory hm' hbelow hout hgrown hq
  have hstart : m'.higherHalfRegion.start.toNat = v.toNat + n * s.bytes := by
    obtain ⟨paging, -, rfl⟩ := mapChunks_eq_ok.mp hmap
    exact htakes.stop_eq
  have hold : ∀ q ∈ pages, q.span.stop ≤ v.toNat := fun q hq =>
    (h.below q hq).trans htakes.start_le
  rw [htakes.pagesAt_eq h.memory hm' hbacked]
  have hbounded : ∀ chunk ∈ chunks, chunk.Bounded s := by
    intro chunk hc
    refine hm'.owns.sound.bounded_inHand (x := Holding.mk s chunk) (List.mem_append_right _ ?_)
    rw [hout]
    exact List.mem_append_left _ (List.mem_map_of_mem hc)
  have hregrouped := hm'.regroup
    ((chunkPages s v chunks ++ pages).map VirtualPage.holding ++ others)
    (fun a => ?_) ?_
  · refine ⟨_, ⟨hregrouped, rfl, ?_, ?_, ?_⟩, hsame⟩
    · intro q hq
      rcases List.mem_append.mp hq with hq | hq
      · exact (hbacked q hq).2
      · obtain ⟨hvirt, hframe, hlt, hleaf⟩ := h.backed q hq
        exact ⟨hvirt, hframe, hlt, fun a ha => (hgrown.leaf_iff _ _).mpr (.inl (hleaf a ha))⟩
    · intro q hq
      rw [hstart]
      rcases List.mem_append.mp hq with hq | hq
      · obtain ⟨k, hk, hvirt⟩ := hserves.exists_index hq
        have hle := Nat.mul_le_mul_right s.bytes (Nat.succ_le_of_lt hk)
        rw [Nat.succ_mul] at hle
        change q.virt.toNat + q.size.bytes ≤ _
        rw [hserves.size_eq q hq]
        omega
      · exact (hold q hq).trans (Nat.le_add_right _ _)
    · refine List.pairwise_append.mpr ⟨hserves.pairwise, h.disjoint, fun q hq r hr => ?_⟩
      obtain ⟨k, -, hvirt⟩ := hserves.exists_index hq
      refine (Span.disjoint_of_stop_le ((hold r hr).trans ?_)).symm
      change v.toNat ≤ q.virt.toNat
      omega
  · rw [hout, h.outstanding]
    simp only [List.map_append, Span.count_append, map_span_holding, count_frameSpans hbounded]
    rw [List.map_map, Nat.add_assoc]
    rfl
  · intro x hx
    rw [List.map_append, List.append_assoc] at hx
    rcases List.mem_append.mp hx with hx | hx
    · obtain ⟨q, hq, rfl⟩ := List.mem_map.mp hx
      exact (hbacked q hq).2.frame_aligned
    · rw [← h.outstanding] at hx
      exact h.memory.owns.sound.aligned.inHand x (List.mem_append_right _ hx)

/-- A word of a page is held at an address of the page. -/
theorem held_of_mem {t : Tenancy} {q : VirtualPage} {a : U64} (hword : 8 ∣ a.toNat)
    (hq : q ∈ t.pages) (ha : a.toNat ∈ q.span) : t.Held a := ⟨hword, q, hq, ha⟩

/-- A call that takes pages lends their words, and changes no word that is lent already. -/
theorem Sound.cells_take {use' : MemoryUse} (h : Sound ⟨m, pages⟩ use others usable)
    (h' : Sound ⟨m', m'.pagesAt s v n ++ pages⟩ use' others usable)
    (hsame : SameOutside use'.tree.tables m.paging.words m'.paging.words)
    (hstart : m.higherHalfRegion.start.toNat ≤ v.toNat)
    (hend : v.toNat + n * s.bytes < 2 ^ 64) :
    Cells.Step (cells ⟨m, pages⟩) (.lend (wordsIn ⟨v.toNat, n * s.bytes⟩))
      (cells ⟨m', m'.pagesAt s v n ++ pages⟩) := by
  refine .lend _ ?_ ?_ fun a ha => ?_
  · rintro a ⟨-, ha⟩
    refine cells_of_not_held ?_
    rintro ⟨-, q, hq, haq⟩
    have hstop := h.below q hq
    rw [Span.mem_mk] at ha
    have hlt := haq.2
    change _ < q.span.stop at hlt
    dsimp only at hstop
    omega
  · rintro a ⟨hword, ha⟩
    obtain ⟨q, hq, haq⟩ := (MappedMemory.mem_span_pagesAt hend).mp ha
    rw [cells_of_held (held_of_mem hword (List.mem_append_left _ hq) haq)]
    rfl
  · by_cases hheld : Held ⟨m, pages⟩ a
    · obtain ⟨hword, q, hq, haq⟩ := hheld
      have hq' : q ∈ m'.pagesAt s v n ++ pages := List.mem_append_right _ hq
      have hheld' : Held ⟨m', m'.pagesAt s v n ++ pages⟩ a := held_of_mem hword hq' haq
      have hplace : m'.physicalAddress a = m.physicalAddress a := by
        apply BitVec.eq_of_toNat_eq
        exact (h'.toNat_physicalAddress hq' haq).trans (h.toNat_physicalAddress hq haq).symm
      rw [cells_of_held hheld', cells_of_held (held_of_mem hword hq haq)]
      refine congrArg some ?_
      change m'.paging.words (m'.physicalAddress a) = m.paging.words (m.physicalAddress a)
      rw [← hplace]
      exact hsame _ fun table htable => h'.physicalAddress_not_mem_table hheld' htable
    · rw [cells_of_not_held hheld, cells_of_not_held]
      rintro ⟨hword, q, hq, haq⟩
      rcases List.mem_append.mp hq with hq | hq
      · exact ha ⟨hword, (MappedMemory.mem_span_pagesAt hend).mpr ⟨q, hq, haq⟩⟩
      · exact hheld ⟨hword, q, hq, haq⟩

end Take

/-! ## Pages that are given back -/

section Free

variable {depth : Nat} {m m' : MappedMemory} {pages : List VirtualPage} {use : MemoryUse}
  {others : List Holding} {usable : Set Nat} {start bytes : U64}

theorem perm_pagesLeft (pages : List VirtualPage) (range : Span) :
    pages.Perm (pagesStartingIn pages range ++ pagesLeft pages range) := by
  have hperm := List.filter_append_perm (fun p : VirtualPage => decide (p.virt.toNat ∈ range)) pages
  simp only [← decide_not] at hperm
  exact hperm.symm

/-- The pages in hand are laid out for every range they cover. -/
theorem Sound.laidOut (h : Sound ⟨m, pages⟩ use others usable) {range : Span}
    (hcovered : ∀ a ∈ range, ∃ p ∈ pages, a ∈ p.span) : LaidOut m.lookUp pages range := by
  refine ⟨fun p hp => (h.backed p hp).virt_aligned, fun p hp => ?_, h.disjoint, hcovered,
    fun p hp a _ ha => ?_⟩
  · exact (h.below p hp).trans_lt m.higherHalfRegion.start.isLt
  · have hlook : m.lookUp a = _ := h.lookUp_eq hp ha
    rw [hlook]
    exact ⟨rfl, (h.backed p hp).frame_eq⟩

/-- What is given back for a range: the pages that start there, as the regions that
`freeMapped` frees for them. -/
theorem Sound.exists_freed (h : Sound ⟨m, pages⟩ use others usable) (depth : Nat)
    (hcovered : ∀ a ∈ Span.mk start.toNat bytes.toNat, ∃ p ∈ pages, a ∈ p.span)
    (hbytes : bytes ≠ 0) (hfits : start.toNat + bytes.toNat < 2 ^ 64) :
    ∃ freed : List Holding,
      (freeMapped lookUpPage (freePageOfSize depth) (2 ^ 64) start bytes m.fresh =
        freeRegions depth (freed.map Holding.region) m.fresh) ∧
      (∀ a, Span.count (freed.map Holding.span) a =
        frameCount (pagesStartingIn pages ⟨start.toNat, bytes.toNat⟩) a) ∧
      ∀ x ∈ freed, x.pageSize.bytes ∣ x.memory.pageStart.toNat := by
  obtain ⟨u, c, hcalls, hexact⟩ := freeMappedCalls_returns (h.laidOut hcovered) hbytes hfits
  have hfilled := (freeMappedCalls_filled (exists_pageSize_getMappedPage _ _) hcalls).1
  have hframes := hexact.frames
  obtain ⟨freed, hfreed⟩ := hfilled.exists_freed
  have hpage : ∀ y ∈ c.frames, ∃ p ∈ pages, p.sizedFrame = y := by
    intro y hy
    obtain ⟨p, hp, rfl⟩ := List.mem_map.mp (hframes.subset hy)
    exact ⟨p, (List.mem_filter.mp hp).1, rfl⟩
  have hbelow : ∀ y ∈ c.frames, y.1.toNat < 2 ^ 48 := by
    intro y hy
    obtain ⟨p, hp, rfl⟩ := hpage y hy
    have hpos := p.size.bytes_pos
    have hlt := (h.backed p hp).frame_lt
    change p.frame.toNat < _
    omega
  have hpos : ∀ x ∈ freed, 0 < x.memory.numberOfPages.toNat := by
    intro x hx
    exact (hfilled _ (hfreed ▸ List.mem_map_of_mem hx)).1
  rw [FreeCalls.frames, ← hfreed] at hframes hpage hbelow
  refine ⟨freed, ?_, fun a => ?_, fun x hx => ?_⟩
  · rw [hfreed]
    exact freeMapped_eq_freeRegions (m := m.fresh) hcalls
  · rw [← count_framesOf hpos hbelow, Span.count_perm (hframes.map sizedSpan), List.map_map,
      frameCount]
    exact congrArg (fun l => Span.count l a)
      (List.map_congr_left fun p _ => p.sizedSpan_sizedFrame)
  · -- A region starts at the frame of its first page.
    have hfirst : x.region.1.pageStart + BitVec.ofNat 64 0 * x.region.2 = x.memory.pageStart := by
      simp [Holding.region]
    obtain ⟨p, hp, heq⟩ := hpage _ (List.mem_flatMap.mpr
      ⟨x.region, List.mem_map_of_mem hx, List.mem_map_of_mem (List.mem_range.mpr (hpos x hx))⟩)
    rw [hfirst, VirtualPage.sizedFrame, Prod.mk.injEq] at heq
    obtain ⟨hstart, hsize⟩ := heq
    have hbytes := congrArg BitVec.toNat hsize
    change p.size.value.toNat = x.pageSize.value.toNat at hbytes
    rw [PageSize.toNat_value, PageSize.toNat_value] at hbytes
    rw [← hbytes, ← hstart]
    exact (h.backed p hp).frame_aligned

/-- Regions that cover the frames of some pages are given back for these pages. -/
theorem Sound.giveBack (h : Sound ⟨m, pages⟩ use others usable) {gone left : List VirtualPage}
    {freed : List Holding} (hperm : pages.Perm (gone ++ left))
    (hcount : ∀ a, Span.count (freed.map Holding.span) a = frameCount gone a)
    (haligned : ∀ x ∈ freed, x.pageSize.bytes ∣ x.memory.pageStart.toNat)
    (hrun : freeRegions depth (freed.map Holding.region) m.fresh = .ok () m')
    (hfull : m'.NoneFull) :
    Sound ⟨m', left⟩ { use with outstanding := left.map VirtualPage.holding ++ others } others
      usable ∧ m'.paging.words = m.paging.words := by
  obtain ⟨p, rfl, hnoted, hmoves⟩ := freeRegions_moves hrun
  have hregrouped := h.memory.regroup (freed ++ (left.map VirtualPage.holding ++ others))
    (fun a => ?_)
    (fun x hx => ?_)
  · have hmoved : Moves callScope (m.paging.allocator.fresh,
        use.tables.map tableFrame ++ (freed ++ (left.map VirtualPage.holding ++ others)))
        (p, use.tables.map tableFrame ++ (left.map VirtualPage.holding ++ others)) :=
      (moves_reorder (List.perm_append_comm_assoc ..)).trans (hmoves _)
    obtain ⟨howns, -⟩ := Moves.exchange hmoved hregrouped.owns
      (hnoted PhysicalMemory.movesNoted_fresh) hfull
    have hleft : ∀ q ∈ left, q ∈ pages := fun q hq =>
      hperm.symm.subset (List.mem_append_right _ hq)
    exact ⟨⟨⟨h.memory.directory, h.memory.pruned, h.memory.mem_tables, howns,
      h.memory.inHigherHalf, h.memory.unmapped⟩, rfl, fun q hq => h.backed q (hleft q hq),
      fun q hq => h.below q (hleft q hq),
      (List.pairwise_append.mp (hperm.pairwise h.disjoint fun hd => hd.symm)).2.1⟩, rfl⟩
  · rw [h.outstanding]
    simp only [List.map_append, Span.count_append, map_span_holding, hcount]
    rw [Span.count_perm (hperm.map VirtualPage.frameSpan), List.map_append, Span.count_append,
      frameCount, Nat.add_assoc]
  · rcases List.mem_append.mp hx with hx | hx
    · exact haligned x hx
    · refine h.memory.owns.sound.aligned.inHand x (List.mem_append_right _ ?_)
      rw [h.outstanding]
      rcases List.mem_append.mp hx with hx | hx
      · obtain ⟨q, hq, rfl⟩ := List.mem_map.mp hx
        exact List.mem_append_left _
          (List.mem_map_of_mem (hperm.symm.subset (List.mem_append_right _ hq)))
      · exact List.mem_append_right _ hx

/-- Pages that are given back are not lent any longer, and no other word changes. -/
theorem Sound.cells_free {use' : MemoryUse} {range : Span}
    (h : Sound ⟨m, pages⟩ use others usable)
    (h' : Sound ⟨m', pagesLeft pages range⟩ use' others usable)
    (hwords : m'.paging.words = m.paging.words) :
    Cells.Step (cells ⟨m, pages⟩)
      (.takeBack {a | ∃ p ∈ pagesStartingIn pages range, a.toNat ∈ p.span})
      (cells ⟨m', pagesLeft pages range⟩) := by
  have hperm := perm_pagesLeft pages range
  have hapart := (List.pairwise_append.mp (hperm.pairwise h.disjoint fun hd => hd.symm)).2.2
  refine .takeBack _ ?_ fun a ha => ?_
  · rintro a ⟨p, hp, hap⟩
    refine cells_of_not_held ?_
    rintro ⟨-, q, hq, haq⟩
    exact hapart p hp q hq _ hap haq
  · by_cases hheld : Held ⟨m, pages⟩ a
    · obtain ⟨hword, q, hq, haq⟩ := hheld
      have hq' : q ∈ pagesLeft pages range := by
        rcases List.mem_append.mp (hperm.subset hq) with hgone | hleft
        · exact absurd ⟨q, hgone, haq⟩ ha
        · exact hleft
      rw [cells_of_held (held_of_mem hword hq' haq), cells_of_held (held_of_mem hword hq haq)]
      refine congrArg some ?_
      change m'.paging.words (m'.physicalAddress a) = m.paging.words (m.physicalAddress a)
      rw [hwords]
      refine congrArg m.paging.words (BitVec.eq_of_toNat_eq ?_)
      exact (h'.toNat_physicalAddress hq' haq).trans (h.toNat_physicalAddress hq haq).symm
    · rw [cells_of_not_held hheld, cells_of_not_held]
      rintro ⟨hword, q, hq, haq⟩
      exact hheld ⟨hword, q, hperm.symm.subset (List.mem_append_right _ hq), haq⟩

end Free

/-! ## Every step -/

section Steps

variable {depth : Nat} {m m' : MappedMemory} {use : MemoryUse} {others : List Holding}
  {usable : Set Nat} {s : PageSize} {np preferred v : U64} {t t' : Tenancy}
  {e : CellEvent U64 U64} {events : List (CellEvent U64 U64)}

/-- `allocContiguousAndMap` takes its pages as one chunk. -/
theorem allocContiguousAndMap_takes (hm : m.Sound use usable)
    (hsize : PageSize.ofValue? (convertPreferredPageToAvailablePages preferred).pageSize = some s)
    (hroom : m.RoomFor s (convertedNumberOfPages np preferred))
    (hrun : allocContiguousAndMap depth np preferred m.fresh = .ok v m') :
    ∃ next address p,
      m.Takes use s (convertedNumberOfPages np preferred) v next
        [⟨address, np * (convertPreferredPageToAvailablePages preferred).numberOfPages⟩] p ∧
      mapChunks depth s v
        [⟨address, np * (convertPreferredPageToAvailablePages preferred).numberOfPages⟩]
        ⟨next, { m.paging with allocator := p }⟩ = .ok () m' := by
  simp only [allocContiguousAndMap, onRegion, onPhysical, bind_eq_ok, pure_eq_ok, zoom_eq_ok]
    at hrun
  obtain ⟨⟨pages, size⟩, _, hconverted, v', _, ⟨next, hregion, rfl⟩, address, _, ⟨p, halloc, rfl⟩,
    _, m₁, hmap, rfl, rfl⟩ := hrun
  obtain ⟨rfl, hpages, hle, hsize'⟩ := convertedPages_eq_ok hconverted
  obtain rfl : s = size := Option.some.inj (hsize.symm.trans hsize')
  change pages = _ at hpages
  change pages.toNat ≤ 512 at hle
  rw [MappedMemory.RoomFor, convertedNumberOfPages, ← hpages] at hroom
  rw [convertedNumberOfPages, ← hpages]
  have hbytes : (pages * s.value).toNat = pages.toNat * s.bytes := by
    have hmul : pages.toNat * s.bytes ≤ 512 * 2 ^ 30 := Nat.mul_le_mul hle s.bytes_le
    rw [BitVec.toNat_mul, PageSize.toNat_value]
    exact Nat.mod_eq_of_lt (by omega)
  have hresult : v'.toNat = roundUp m.higherHalfRegion.start.toNat s.bytes :=
    toNat_getVirtualMemory hm.inHigherHalf.start_pos hregion
  obtain ⟨hlimit, hstop, hstart⟩ := getVirtualMemory_next hregion (by
    rw [hbytes, hresult]
    exact hroom)
  have hlimits : pages.toNat ≤ callScope.limit := hle.trans (by norm_num [callScope])
  refine ⟨next, address, p, ⟨?_, hstart, ?_, ?_, hlimit, Nat.add_zero _, ?_, ?_⟩, ?_⟩
  · rw [hresult]
    exact dvd_roundUp
  · rw [hstop, hbytes]
  · rw [hresult]
    exact hroom
  · exact (keeps_allocContiguousPhysicalPagesWithManager depth pages s).of_ok
      PhysicalMemory.movesNoted_fresh halloc
  · exact (conducts_allocContiguousPhysicalPages le_rfl _ pages s hlimits).ok halloc use.inHand
  · simp only [mapChunks, bind_eq_ok, pure_eq_ok]
    exact ⟨(), _, hmap, trivial, rfl⟩

/-- A call that takes pages is a step that keeps the invariant. -/
theorem Sound.step_take {pages : List VirtualPage} {n : Nat} {next : VirtualRegion}
    {chunks : List PagedMemory} {p : PhysicalMemory} (h : Sound ⟨m, pages⟩ use others usable)
    (hbelow : ∀ a ∈ usable, a < 2 ^ 48) (htakes : m.Takes use s n v next chunks p)
    (hmap : mapChunks depth s v chunks ⟨next, { m.paging with allocator := p }⟩ = .ok () m')
    (hfull : m'.NoneFull) :
    (∃ use', Sound ⟨m', m'.pagesAt s v n ++ pages⟩ use' others usable) ∧
      Cells.Step (cells ⟨m, pages⟩) (.lend (wordsIn ⟨v.toNat, n * s.bytes⟩))
        (cells ⟨m', m'.pagesAt s v n ++ pages⟩) := by
  obtain ⟨use', hsound, hsame⟩ := h.take hbelow htakes hmap hfull
  have hfits := htakes.fits
  rw [htakes.pages] at hfits
  exact ⟨⟨use', hsound⟩, h.cells_take hsound hsame htakes.start_le hfits⟩

/-- Every step keeps the invariant, and is one of cells that are lent out. -/
theorem Sound.step (h : t.Sound use others usable) (hbelow : ∀ a ∈ usable, a < 2 ^ 48)
    (hstep : Step depth t e t') :
    (∃ use', t'.Sound use' others usable) ∧ Cells.Step t.cells e t'.cells := by
  cases hstep with
  | allocAndMapExplicit size room run noneFull =>
    obtain ⟨next, chunks, p, htakes, hmap⟩ := allocAndMapExplicit_takes h.memory size room run
    exact h.step_take hbelow htakes hmap noneFull
  | allocContiguousAndMap size room run noneFull =>
    obtain ⟨next, address, p, htakes, hmap⟩ := allocContiguousAndMap_takes h.memory size room run
    exact h.step_take hbelow htakes hmap noneFull
  | allocAndMap room run noneFull =>
    obtain ⟨next, chunks, p, htakes, hmap⟩ := allocAndMap_takes h.memory run room
    exact h.step_take hbelow htakes hmap noneFull
  | freeMapped covered some fits run noneFull =>
    obtain ⟨freed, hfree, hcount, haligned⟩ := h.exists_freed _ covered some fits
    obtain ⟨hsound, hwords⟩ := h.giveBack (perm_pagesLeft _ _) hcount haligned
      (hfree.symm.trans run) noneFull
    exact ⟨⟨_, hsound⟩, h.cells_free hsound hwords⟩
  | store held => exact ⟨⟨use, h.store held _⟩, h.cells_store held⟩

/-- A run keeps the invariant, and is one of cells that are lent out. -/
theorem Sound.run (h : t.Sound use others usable) (hbelow : ∀ a ∈ usable, a < 2 ^ 48)
    (hrun : Run depth t events t') :
    (∃ use', t'.Sound use' others usable) ∧ Cells.Run t.cells events t'.cells := by
  induction hrun with
  | nil => exact ⟨⟨use, h⟩, .nil _⟩
  | snoc run step ih =>
    obtain ⟨⟨use', hsound⟩, hcells⟩ := ih
    obtain ⟨hnext, hcell⟩ := hsound.step hbelow step
    exact ⟨hnext, hcells.snoc hcell⟩

/-- A state in which callers hold no page. -/
theorem Sound.of_memory (h : m.Sound use usable) : Sound ⟨m, []⟩ use use.outstanding usable :=
  ⟨h, rfl, fun _ hp => absurd hp List.not_mem_nil, fun _ hp => absurd hp List.not_mem_nil,
    List.Pairwise.nil⟩

end Steps

end Tenancy

end Homegrown.Memory
