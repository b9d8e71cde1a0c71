import Homegrown.Memory.Physical.Free
import Homegrown.Memory.Physical.Slots

/-!
# Requests for pages, exactly

A request for pages takes listed regions from the last one on. What they lack is taken as
larger pages from the next larger manager, listed as pages of the request's size and requested
again. `allocPhysicalPages_exact` counts the pages through all of this: the request is met
exactly when the free pages suffice, by chunks of as many pages as were requested.
-/

namespace Homegrown.Memory

/-- The pages of regions. -/
def pagesIn (regions : List PagedMemory) : Nat := (regions.map fun r => r.numberOfPages.toNat).sum

@[simp] theorem pagesIn_nil : pagesIn [] = 0 := rfl

/-- The pages of the first region and of the others. -/
@[simp] theorem pagesIn_cons (r : PagedMemory) (regions : List PagedMemory) :
    pagesIn (r :: regions) = r.numberOfPages.toNat + pagesIn regions := rfl

/-- The pages of two lists add up. -/
@[simp] theorem pagesIn_append (regions regions' : List PagedMemory) :
    pagesIn (regions ++ regions') = pagesIn regions + pagesIn regions' := by
  simp [pagesIn]

/-- The order of the regions does not matter. -/
theorem pagesIn_perm {regions regions' : List PagedMemory} (h : regions.Perm regions') :
    pagesIn regions = pagesIn regions' := (h.map _).sum_eq

/-- Regions with a page each are no more than their pages. -/
theorem length_le_pagesIn {regions : List PagedMemory}
    (h : ∀ r ∈ regions, 0 < r.numberOfPages.toNat) : regions.length ≤ pagesIn regions := by
  induction regions with
  | nil => exact le_rfl
  | cons r regions ih =>
    have hr := h r List.mem_cons_self
    have hrest := ih fun r' hr' => h r' (List.mem_cons_of_mem _ hr')
    rw [List.length_cons, pagesIn_cons]
    omega

/-- The free pages of a size. -/
def PhysicalMemory.freePages (m : PhysicalMemory) (s : PageSize) : Nat :=
  pagesIn (m.manager s).memory

/-- The listed regions of a size have pages. -/
def PhysicalMemory.Listed (m : PhysicalMemory) (s : PageSize) : Prop :=
  ∀ r ∈ (m.manager s).memory, 0 < r.numberOfPages.toNat

section Request

variable {m m' : PhysicalMemory} {s larger : PageSize} {depth slot : Nat}

/-- An entry that is written is noted. -/
theorem PhysicalMemory.journal_slotWritten {p : PhysicalMemoryManager} {e : Event}
    (he : e ∈ ((m.note (.slotWritten slot)).setManager s p).journal) :
    e ∈ m.journal ∨ ∃ k, e = .slotWritten k := by
  rw [PhysicalMemory.journal_setManager, PhysicalMemory.journal_note, List.mem_append,
    List.mem_singleton] at he
  exact he.imp_right fun h => ⟨slot, h⟩

/-- The other managers stay. -/
theorem PhysicalMemory.manager_slotWritten_of_ne {p : PhysicalMemoryManager} {t : PageSize}
    (ht : t ≠ s) : ((m.note (.slotWritten slot)).setManager s p).manager t = m.manager t := by
  rw [PhysicalMemory.manager_setManager_of_ne _ _ _ _ ht, PhysicalMemory.manager_note]

/-- A region that suffices meets the request. -/
theorem takeListedPages_of_le {region : PagedMemory} {rest : List PagedMemory} {requested : U32}
    (slot : Nat) (hlist : (m.manager s).memory.reverse = region :: rest)
    (hle : requested.setWidth 64 ≤ region.numberOfPages) :
    ∃ p, takeListedPages s (region :: rest) slot requested m =
      .ok ([⟨region.pageStart, requested.setWidth 64⟩], none)
        ((m.note (.slotWritten slot)).setManager s p) := by
  rw [← m.manager_note s (.slotWritten slot)] at hlist
  obtain ⟨hat, -, -⟩ := PhysicalMemoryManager.pop_of_reverse (s := s) hlist
  rw [takeListedPages, bind_of_ok (note_eq_ok (u := ()) |>.mpr rfl), if_pos hle,
    bind_of_ok (decreasePages_eq_ok (u := ()) |>.mpr ⟨region, hat, hle, rfl⟩)]
  exact ⟨_, rfl⟩

/-- A region that does not is taken whole. -/
theorem takeListedPages_of_lt {region : PagedMemory} (rest : List PagedMemory) {requested : U32}
    (slot : Nat) (hlt : ¬ requested.setWidth 64 ≤ region.numberOfPages) :
    takeListedPages s (region :: rest) slot requested m = (do
      let (pages, left) ← takeListedPages s rest (slot + 1)
        (requested - region.numberOfPages.setWidth 32)
      return (region :: pages, left) : Kernel (List PagedMemory × Option U32))
        ((m.note (.slotWritten slot)).setManager s (m.manager s).pop) := by
  rw [takeListedPages, bind_of_ok (note_eq_ok (u := ()) |>.mpr rfl), if_neg hlt,
    bind_of_ok (updateManager_eq_ok (u := ()) |>.mpr rfl), PhysicalMemory.manager_note]

/-- What the loop over the listed regions does. -/
theorem takeListedPages_eq {regions : List PagedMemory} (slot : Nat) (requested : U32)
    (hlist : (m.manager s).memory.reverse = regions) (hlisted : m.Listed s)
    (hpos : 0 < requested.toNat) :
    ∃ chunks left m', takeListedPages s regions slot requested m = .ok (chunks, left) m' ∧
      (∀ chunk ∈ chunks, 0 < chunk.numberOfPages.toNat) ∧
      (∀ e ∈ m'.journal, e ∈ m.journal ∨ ∃ k, e = .slotWritten k) ∧
      (∀ t ≠ s, m'.manager t = m.manager t) ∧
      match left with
      | none => requested.toNat ≤ pagesIn regions ∧ pagesIn chunks = requested.toNat
      | some rest => rest.toNat + pagesIn regions = requested.toNat ∧ 0 < rest.toNat ∧
          pagesIn chunks = pagesIn regions ∧ (m'.manager s).memory = [] := by
  induction regions generalizing m slot requested with
  | nil =>
    refine ⟨[], some requested, m, rfl, by simp, fun e he => .inl he, fun _ _ => rfl, rfl, hpos,
      rfl, ?_⟩
    rwa [List.reverse_eq_nil_iff] at hlist
  | cons region rest ih =>
    obtain ⟨hat, -, hrest⟩ := PhysicalMemoryManager.pop_of_reverse (s := s) hlist
    have hregion : 0 < region.numberOfPages.toNat := hlisted region (List.mem_of_getElem? hat)
    have hwide : (requested.setWidth 64).toNat = requested.toNat :=
      BitVec.toNat_setWidth_of_le (by norm_num)
    by_cases hle : requested.setWidth 64 ≤ region.numberOfPages
    · obtain ⟨p, hrun⟩ := takeListedPages_of_le slot hlist hle
      rw [BitVec.le_def, hwide] at hle
      refine ⟨_, _, _, hrun, by simpa [hwide] using hpos,
        fun e he => PhysicalMemory.journal_slotWritten he,
        fun t ht => PhysicalMemory.manager_slotWritten_of_ne ht, ?_, ?_⟩
      · rw [pagesIn_cons]
        omega
      · rw [pagesIn_cons, hwide]
        rfl
    · have hrun := takeListedPages_of_lt (m := m) (s := s) rest slot hle
      rw [BitVec.not_le, BitVec.lt_def, hwide] at hle
      have hlt := requested.isLt
      have hsub : (requested - region.numberOfPages.setWidth 32).toNat =
          requested.toNat - region.numberOfPages.toNat := by
        bv_omega
      generalize hm₁ : (m.note (.slotWritten slot)).setManager s (m.manager s).pop = m₁ at hrun
      have hmanager : m₁.manager s = (m.manager s).pop := by
        rw [← hm₁, PhysicalMemory.manager_setManager]
      have hlisted₁ : m₁.Listed s := fun r hr => hlisted r (by
        rw [hmanager] at hr
        exact List.dropLast_subset _ hr)
      obtain ⟨chunks, left, m', hrun', hchunks, hadd, hothers, hleft⟩ := ih (slot + 1)
        (requested - region.numberOfPages.setWidth 32) (by rwa [hmanager]) hlisted₁ (by omega)
      rw [bind_of_ok hrun'] at hrun
      refine ⟨region :: chunks, left, m', hrun, List.forall_mem_cons.mpr ⟨hregion, hchunks⟩,
        fun e he => ?_, fun t ht => ?_, ?_⟩
      · rcases hadd e he with he | he
        · exact PhysicalMemory.journal_slotWritten (hm₁ ▸ he)
        · exact .inr he
      · rw [hothers t ht, ← hm₁, PhysicalMemory.manager_slotWritten_of_ne ht]
      · cases left with
        | none =>
          simp only [pagesIn_cons] at hleft ⊢
          omega
        | some r =>
          simp only [pagesIn_cons] at hleft ⊢
          obtain ⟨h1, h2, h3, h4⟩ := hleft
          exact ⟨by omega, h2, by omega, h4⟩

/-- The final journal of a sequence extends that of its first part. -/
theorem journal_final_bind {α β : Type} {x : Kernel α} {f : α → Kernel β}
    (hf : ∀ a, AddsToJournal (f a)) :
    (final (x m)).journal <+: (final ((x >>= f) m)).journal := by
  cases h : x m with
  | ok a t =>
    rw [bind_of_ok h]
    exact hf a t
  | error e t =>
    rw [bind_of_error h]
    exact List.prefix_rfl

/-- No table was full so far. -/
def PhysicalMemory.NoneFull (m : PhysicalMemory) : Prop := ∀ t, .tableFull t ∉ m.journal

/-- If no table is full later, none was before. -/
theorem PhysicalMemory.NoneFull.of_prefix (h : m'.NoneFull) (hp : m.journal <+: m'.journal) :
    m.NoneFull := fun t ht => h t (hp.subset ht)

/-- A full table is noted. -/
theorem tableFull_mem_of_full {allocate : U64 → Kernel U64}
    (ha : ∀ n, AddsToJournal (allocate n))
    (hfull : (m.manager s).cap.toNat ≤ (m.manager s).memory.length) :
    .tableFull s ∈ (final (ensureCapacity allocate s m)).journal := by
  have hgrow : AddsToJournal (do
      let newBuf ← allocate (((m.manager s).usedBasePages + 1).setWidth 64)
      moveTable s newBuf) := (ha _).bind fun _ => AddsToJournal.moveTable s _
  rw [ensureCapacity, bind_of_ok (getMemoryManager_eq_ok.mpr ⟨rfl, rfl⟩), if_pos hfull, growTable,
    bind_of_ok (getMemoryManager_eq_ok.mpr ⟨rfl, rfl⟩),
    bind_of_ok (note_eq_ok (u := ()) |>.mpr rfl)]
  exact (hgrow (m.note (.tableFull s))).subset (by simp)

/-- Regions that are freed are listed, if no table is full. -/
theorem freePhysicalPages_of_noneFull {pages : List PagedMemory}
    (hfull : (final (freePhysicalPages depth pages s m)).NoneFull) :
    freePhysicalPages depth pages s m = .ok () (m.setManager s
      { m.manager s with memory := (m.manager s).memory ++ pages }) := by
  unfold freePhysicalPages at hfull ⊢
  induction pages generalizing m with
  | nil =>
    rw [List.append_nil]
    cases s <;> rfl
  | cons page pages ih =>
    have hcontiguous (k : U64) :=
      AddsToJournal.allocContiguousPhysicalPagesWithManager depth k .basePage
    have hrest (u : Unit) : AddsToJournal (do
        updateManager s fun p => p.push page
        freePhysicalPagesWithManager
          (fun n => allocContiguousPhysicalPagesWithManager depth n .basePage) s pages) :=
      (AddsToJournal.updateManager s _).bind fun _ =>
        AddsToJournal.freePhysicalPagesWithManager hcontiguous s pages
    rw [freePhysicalPagesWithManager] at hfull ⊢
    by_cases hroom : (m.manager s).memory.length < (m.manager s).cap.toNat
    · have hensure : ensureCapacity (fun n =>
          allocContiguousPhysicalPagesWithManager depth n .basePage) s m = .ok () m :=
        ensureCapacity_eq_ok.mpr (.inl ⟨hroom, rfl⟩)
      rw [bind_of_ok hensure, bind_of_ok (updateManager_eq_ok (u := ()) |>.mpr rfl)] at hfull ⊢
      rw [ih hfull, PhysicalMemory.manager_setManager, PhysicalMemory.setManager_setManager]
      simp only [PhysicalMemoryManager.push, List.append_assoc, List.singleton_append]
    · have hjournal := journal_final_bind (m := m) (x := ensureCapacity (fun n =>
        allocContiguousPhysicalPagesWithManager depth n .basePage) s) hrest
      refine (hfull s (hjournal.subset ?_)).elim
      exact tableFull_mem_of_full (hcontiguous) (not_lt.mp hroom)

/-- Chunks of larger pages have 512 times as many smaller ones. -/
theorem pagesIn_smaller {chunks : List PagedMemory}
    (hfits : ∀ chunk ∈ chunks, chunk.numberOfPages.toNat < 2 ^ 32) :
    pagesIn (chunks.map fun page => { page with numberOfPages := page.numberOfPages * 512 }) =
      512 * pagesIn chunks := by
  induction chunks with
  | nil => rfl
  | cons chunk chunks ih =>
    have hfit := hfits chunk List.mem_cons_self
    have hmul : (chunk.numberOfPages * 512).toNat = chunk.numberOfPages.toNat * 512 := by
      rw [BitVec.toNat_mul]
      exact Nat.mod_eq_of_lt (show chunk.numberOfPages.toNat * 512 < 2 ^ 64 by omega)
    rw [List.map_cons, pagesIn_cons, pagesIn_cons, hmul,
      ih fun c hc => hfits c (List.mem_cons_of_mem _ hc)]
    omega

/-- What a request that is met has done. -/
structure Met (m : PhysicalMemory) (s : PageSize) (n : Nat) (chunks : List PagedMemory)
    (m' : PhysicalMemory) : Prop where
  pages : pagesIn chunks = n
  pos : ∀ chunk ∈ chunks, 0 < chunk.numberOfPages.toNat
  journal : ∀ e ∈ m'.journal, e ∈ m.journal ∨ ∃ k, e = .slotWritten k
  smaller : ∀ t : PageSize, t.exponent < s.exponent → m'.manager t = m.manager t

/-- A number that fits is not cut off. -/
theorem toNat_narrow {len : U64} (h : len.toNat < 2 ^ 32) :
    (len.setWidth 32).toNat = len.toNat := by
  rw [BitVec.toNat_setWidth, Nat.mod_eq_of_lt h]

/-- The pages of a list that is walked from its end. -/
theorem pagesIn_reverse (regions : List PagedMemory) : pagesIn regions.reverse = pagesIn regions :=
  pagesIn_perm (List.reverse_perm regions)

/-- Smaller pages are other pages. -/
theorem ne_of_exponent_lt {t : PageSize} (h : t.exponent < s.exponent) : t ≠ s := by
  rintro rfl
  exact h.false

/-- A request for no more pages than are listed is met by them. -/
theorem allocPhysicalPages_of_le (depth slot : Nat) {len : U64} (hpos : 0 < len.toNat)
    (hlt : len.toNat < 2 ^ 32) (hlisted : m.Listed s) (hle : len.toNat ≤ m.freePages s) :
    ∃ chunks m', allocPhysicalPagesWithManager (depth + 1) slot len s m = .ok chunks m' ∧
      Met m s len.toNat chunks m' := by
  have hnarrow := toNat_narrow hlt
  obtain ⟨chunks, left, m', hrun, hchunks, hadd, hothers, hleft⟩ :=
    takeListedPages_eq slot (len.setWidth 32) rfl hlisted (by omega)
  rw [PhysicalMemory.freePages, ← pagesIn_reverse] at hle
  cases left with
  | some r => omega
  | none =>
    refine ⟨chunks, m', ?_, hleft.2.trans hnarrow, hchunks, hadd, fun t ht =>
      hothers t (ne_of_exponent_lt ht)⟩
    rw [allocPhysicalPagesWithManager, bind_of_ok (getMemoryManager_eq_ok.mpr ⟨rfl, rfl⟩),
      bind_of_ok hrun]
    rfl

/-- How a request for more pages than are listed goes on. -/
theorem allocPhysicalPages_of_lt (depth slot : Nat) {len : U64} (hlt : len.toNat < 2 ^ 32)
    (hlisted : m.Listed s) (hmore : m.freePages s < len.toNat) :
    ∃ (pages : List PagedMemory) (requested : U32) (m₁ : PhysicalMemory),
      requested.toNat = len.toNat - m.freePages s ∧ pagesIn pages = m.freePages s ∧
      (∀ chunk ∈ pages, 0 < chunk.numberOfPages.toNat) ∧
      (∀ e ∈ m₁.journal, e ∈ m.journal ∨ ∃ k, e = .slotWritten k) ∧
      (∀ t ≠ s, m₁.manager t = m.manager t) ∧ (m₁.manager s).memory = [] ∧
      allocPhysicalPagesWithManager (depth + 1) slot len s m = match s.larger? with
        | none => .error .noMorePhysicalMemory m₁
        | some larger => (do
          let largerPage ← allocPhysicalPagesWithManager depth (slot + pages.length)
            (ceilingDivValue (requested.setWidth 64) 512) larger
          freePhysicalPages depth
            (largerPage.map fun page => { page with numberOfPages := page.numberOfPages * 512 }) s
          let addedPages ← allocPhysicalPagesWithManager depth (slot + pages.length)
            (requested.setWidth 64) s
          return pages ++ addedPages : Kernel (List PagedMemory)) m₁ := by
  have hnarrow := toNat_narrow hlt
  obtain ⟨pages, left, m₁, hrun, hpages, hadd, hothers, hleft⟩ :=
    takeListedPages_eq slot (len.setWidth 32) rfl hlisted (by omega)
  rw [PhysicalMemory.freePages, ← pagesIn_reverse] at hmore ⊢
  cases left with
  | none => omega
  | some requested =>
    obtain ⟨hsum, -, htaken, hempty⟩ := hleft
    refine ⟨pages, requested, m₁, by omega, htaken, hpages, hadd, hothers, hempty, ?_⟩
    rw [allocPhysicalPagesWithManager, bind_of_ok (getMemoryManager_eq_ok.mpr ⟨rfl, rfl⟩),
      bind_of_ok hrun]
    cases hl : s.larger? with
    | none => rfl
    | some larger => rfl

/-- How many page sizes there are from this one on. -/
def PageSize.levels : PageSize → Nat
  | .basePage => 3
  | .largePage => 2
  | .hugePage => 1

/-- The next larger size has one level less. -/
theorem PageSize.levels_larger (h : s.larger? = some larger) : s.levels = larger.levels + 1 := by
  cases s <;> cases h <;> rfl

/-- The next larger size is larger. -/
theorem PageSize.exponent_lt_larger (h : s.larger? = some larger) :
    s.exponent < larger.exponent := by
  cases s <;> cases h <;> decide

/-- The free pages of the size and of the larger sizes suffice for a request. -/
def PhysicalMemory.Suffices (m : PhysicalMemory) : PageSize → Nat → Prop
  | .hugePage, n => n ≤ m.freePages .hugePage
  | .largePage, n => n ≤ m.freePages .largePage ∨
      (n - m.freePages .largePage + 511) / 512 ≤ m.freePages .hugePage
  | .basePage, n => n ≤ m.freePages .basePage ∨
      (n - m.freePages .basePage + 511) / 512 ≤ m.freePages .largePage ∨
      ((n - m.freePages .basePage + 511) / 512 - m.freePages .largePage + 511) / 512 ≤
        m.freePages .hugePage

/-- The pages of a size suffice, or those of the larger sizes make up for what they lack. -/
theorem PhysicalMemory.suffices_iff {n : Nat} :
    m.Suffices s n ↔ n ≤ m.freePages s ∨ ∃ larger, s.larger? = some larger ∧
      m.Suffices larger ((n - m.freePages s + 511) / 512) := by
  cases s with
  | hugePage => simp [Suffices, PageSize.larger?]
  | largePage => simp [Suffices, PageSize.larger?]
  | basePage => simp [Suffices, PageSize.larger?]

/-- Whether the free pages suffice depends on the managers from the size on. -/
theorem PhysicalMemory.suffices_congr {n : Nat}
    (h : ∀ t : PageSize, s.exponent ≤ t.exponent → m'.manager t = m.manager t) :
    m'.Suffices s n ↔ m.Suffices s n := by
  cases s with
  | hugePage => simp only [Suffices, freePages, h .hugePage le_rfl]
  | largePage => simp only [Suffices, freePages, h .largePage le_rfl, h .hugePage (by decide)]
  | basePage =>
    simp only [Suffices, freePages, h .basePage le_rfl, h .largePage (by decide),
      h .hugePage (by decide)]

/-- The larger pages that a request took are listed, and the request made again. -/
def requestAgain (depth slot : Nat) (requested : U32) (s : PageSize)
    (pages largerPage : List PagedMemory) : Kernel (List PagedMemory) := do
  freePhysicalPages depth
    (largerPage.map fun page => { page with numberOfPages := page.numberOfPages * 512 }) s
  let addedPages ← allocPhysicalPagesWithManager depth slot (requested.setWidth 64) s
  return pages ++ addedPages

/-- The request made again adds to the journal only. -/
theorem AddsToJournal.requestAgain (depth slot : Nat) (s : PageSize) (requested : U32)
    (pages largerPage : List PagedMemory) :
    AddsToJournal (requestAgain depth slot requested s pages largerPage) := by
  apply AddsToJournal.bind
  · exact AddsToJournal.freePhysicalPagesWithManager (fun k =>
      AddsToJournal.allocContiguousPhysicalPagesWithManager depth k .basePage) s _
  · intro _
    apply AddsToJournal.bind
    · exact AddsToJournal.allocPhysicalPagesWithManager depth slot _ s
    · exact fun _ => AddsToJournal.pure _

/-- The request made again is met, when no table is full. -/
theorem requestAgain_met (requested : U32) (pages : List PagedMemory)
    {largerPage : List PagedMemory} (hdepth : 0 < depth) (hpos : 0 < requested.toNat)
    (hempty : (m.manager s).memory = [])
    (hlarger : ∀ chunk ∈ largerPage, 0 < chunk.numberOfPages.toNat)
    (hfits : ∀ chunk ∈ largerPage, chunk.numberOfPages.toNat < 2 ^ 32)
    (henough : requested.toNat ≤ 512 * pagesIn largerPage)
    (hfull : (final (requestAgain depth slot requested s pages largerPage m)).NoneFull) :
    ∃ added m', requestAgain depth slot requested s pages largerPage m = .ok (pages ++ added) m' ∧
      Met m s requested.toNat added m' := by
  obtain ⟨depth, rfl⟩ := Nat.exists_eq_succ_of_ne_zero hdepth.ne'
  have hwide : (requested.setWidth 64 : U64).toNat = requested.toNat :=
    BitVec.toNat_setWidth_of_le (by norm_num)
  have hlt := requested.isLt
  have hfree := freePhysicalPages_of_noneFull (hfull.of_prefix (journal_final_bind fun _ =>
    AddsToJournal.bind (AddsToJournal.allocPhysicalPagesWithManager (depth + 1) slot _ s)
      fun _ => AddsToJournal.pure _))
  rw [hempty, List.nil_append] at hfree
  generalize hm₁ : m.setManager s _ = m₁ at hfree
  have hmemory : (m₁.manager s).memory = largerPage.map fun page =>
      { page with numberOfPages := page.numberOfPages * 512 } := by
    rw [← hm₁, PhysicalMemory.manager_setManager]
  have hlisted : m₁.Listed s := by
    rw [PhysicalMemory.Listed, hmemory]
    exact PhysicalMemory.NonEmpty.pos_of_larger hlarger hfits
  have hpages : requested.toNat ≤ m₁.freePages s := by
    rw [PhysicalMemory.freePages, hmemory, pagesIn_smaller hfits]
    exact henough
  obtain ⟨added, m', hadded, hmet⟩ := allocPhysicalPages_of_le depth slot
    (show 0 < (requested.setWidth 64 : U64).toNat by omega) (by omega) hlisted (by omega)
  refine ⟨added, m', ?_, hmet.pages.trans hwide, hmet.pos, fun e he => ?_, fun t ht => ?_⟩
  · rw [requestAgain, bind_of_ok hfree, bind_of_ok hadded]
    rfl
  · have hjournal := hmet.journal e he
    rwa [← hm₁, PhysicalMemory.journal_setManager] at hjournal
  · rw [hmet.smaller t ht, ← hm₁, PhysicalMemory.manager_setManager_of_ne _ _ _ _
      (ne_of_exponent_lt ht)]

/-- A request is met by what is listed and, when larger pages were listed, by the request made
again. -/
theorem Met.append {m₁ m₂ : PhysicalMemory} {pages largerPage added : List PagedMemory} {k n : Nat}
    (hexponent : s.exponent < larger.exponent)
    (hpages : ∀ chunk ∈ pages, 0 < chunk.numberOfPages.toNat)
    (hadd : ∀ e ∈ m₁.journal, e ∈ m.journal ∨ ∃ k, e = .slotWritten k)
    (hothers : ∀ t ≠ s, m₁.manager t = m.manager t) (hlarger : Met m₁ larger k largerPage m₂)
    (hagain : Met m₂ s n added m') : Met m s (pagesIn pages + n) (pages ++ added) m' := by
  refine ⟨?_, fun chunk hc => ?_, fun e he => ?_, fun t ht => ?_⟩
  · rw [pagesIn_append, hagain.pages]
  · rcases List.mem_append.mp hc with hc | hc
    · exact hpages chunk hc
    · exact hagain.pos chunk hc
  · rcases hagain.journal e he with he | he
    · rcases hlarger.journal e he with he | he
      · exact hadd e he
      · exact .inr he
    · exact .inr he
  · rw [hagain.smaller t ht, hlarger.smaller t (ht.trans hexponent),
      hothers t (ne_of_exponent_lt ht)]

/-- A request is met when the free pages suffice, and fails otherwise. -/
theorem allocPhysicalPages_spec {len : U64} (hdepth : s.levels ≤ depth) (hpos : 0 < len.toNat)
    (hlt : len.toNat < 2 ^ 32) (hlisted : ∀ t, m.Listed t)
    (hfull : (final (allocPhysicalPagesWithManager depth slot len s m)).NoneFull) :
    (m.Suffices s len.toNat →
      ∃ chunks m', allocPhysicalPagesWithManager depth slot len s m = .ok chunks m' ∧
        Met m s len.toNat chunks m') ∧
    (¬ m.Suffices s len.toNat →
      ∃ m', allocPhysicalPagesWithManager depth slot len s m =
        .error .noMorePhysicalMemory m') := by
  induction depth generalizing m s slot len with
  | zero =>
    cases s <;> exact absurd hdepth (by decide)
  | succ depth ih =>
    rw [PhysicalMemory.suffices_iff]
    by_cases hle : len.toNat ≤ m.freePages s
    · exact ⟨fun _ => allocPhysicalPages_of_le depth slot hpos hlt (hlisted s) hle,
        fun hno => (hno (.inl hle)).elim⟩
    · obtain ⟨pages, requested, m₁, hrequested, hpages, hpagesPos, hadd, hothers, hempty, hrun⟩ :=
        allocPhysicalPages_of_lt depth slot hlt (hlisted s) (not_le.mp hle)
      rw [hrun] at hfull ⊢
      cases hl : s.larger? with
      | none => simp [hle]
      | some larger =>
        simp only [hl, Option.some.injEq, exists_eq_left', hle, false_or] at hfull ⊢
        have hwide : (requested.setWidth 64 : U64).toNat = requested.toNat :=
          BitVec.toNat_setWidth_of_le (by norm_num)
        have hceil : (ceilingDivValue ((requested.setWidth 64 : U64)) 512).toNat =
            (len.toNat - m.freePages s + 511) / 512 := by
          rw [← hrequested, ← hwide]
          exact toNat_ceilingDivValue (k := 9) rfl (by rw [hwide]; omega)
        have hlevels := PageSize.levels_larger hl
        have hexponent := PageSize.exponent_lt_larger hl
        -- the request of the larger manager
        have hlisted₁ (t : PageSize) : m₁.Listed t := by
          by_cases ht : t = s
          · rw [ht, PhysicalMemory.Listed, hempty]
            simp
          · rw [PhysicalMemory.Listed, hothers t ht]
            exact hlisted t
        have hsuffices : m₁.Suffices larger ((len.toNat - m.freePages s + 511) / 512) ↔
            m.Suffices larger ((len.toNat - m.freePages s + 511) / 512) :=
          PhysicalMemory.suffices_congr fun t ht =>
            hothers t (ne_of_exponent_lt (hexponent.trans_le ht)).symm
        have hjournal := journal_final_bind (m := m₁) (x := allocPhysicalPagesWithManager depth
          (slot + pages.length) (ceilingDivValue (requested.setWidth 64) 512) larger)
          (AddsToJournal.requestAgain depth (slot + pages.length) s requested pages)
        obtain ⟨hmet, hfails⟩ := ih (by omega) (by omega) (by omega) hlisted₁
          (hfull.of_prefix hjournal)
        rw [hceil, hsuffices] at hmet hfails
        constructor
        · intro hsuff
          obtain ⟨largerPage, m₂, htaken, hmet⟩ := hmet hsuff
          rw [bind_of_ok htaken] at hfull ⊢
          have hlevel : 0 < larger.levels := by
            cases larger <;> decide
          obtain ⟨added, m', hagain, hadded⟩ :=
            requestAgain_met requested pages (by omega) (by omega)
              (by rw [hmet.smaller s hexponent, hempty]) hmet.pos
              (allocPhysicalPagesWithManager_fits htaken) (by rw [hmet.pages]; omega) hfull
          have htotal : pagesIn pages + requested.toNat = len.toNat := by omega
          exact ⟨pages ++ added, m', hagain,
            htotal ▸ Met.append hexponent hpagesPos hadd hothers hmet hadded⟩
        · intro hno
          obtain ⟨m', herr⟩ := hfails hno
          exact ⟨m', bind_of_error herr⟩

/-! ## The call -/

/-- The free pages of the next larger size, where there is one. -/
def PhysicalMemory.freePagesOf (m : PhysicalMemory) (size? : Option PageSize) : Nat :=
  size?.elim 0 m.freePages

/-- The pages do not suffice when each size lacks some. -/
theorem PhysicalMemory.not_suffices_iff {n : Nat} :
    ¬ m.Suffices s n ↔ m.freePages s < n ∧
      m.freePagesOf s.larger? < (n - m.freePages s + 511) / 512 ∧
      m.freePagesOf (s.larger?.bind PageSize.larger?) <
        ((n - m.freePages s + 511) / 512 - m.freePagesOf s.larger? + 511) / 512 := by
  cases s <;> simp only [Suffices, freePagesOf, PageSize.larger?, Option.bind_some,
    Option.bind_none, Option.elim_some, Option.elim_none] <;> omega

/-- What a request that is met returns and leaves free. -/
structure ExactRequest (m : PhysicalMemory) (s : PageSize) (n : Nat) (chunks : List PagedMemory)
    (m' : PhysicalMemory) : Prop where
  atMost : chunks.length ≤ n
  pages : pagesIn chunks = n
  aligned : ∀ chunk ∈ chunks, s.bytes ∣ chunk.pageStart.toNat
  disjoint : (chunks.map (PagedMemory.span s)).Pairwise Span.Disjoint
  wasFree : ∀ chunk ∈ chunks, ∀ a ∈ chunk.span s, a ∈ m.free
  rest : m'.free = m.free \ {a | ∃ chunk ∈ chunks, a ∈ chunk.span s}

/-- A request that returns has moved what it returns out of the free memory. -/
theorem Met.exact {chunks : List PagedMemory} {n : Nat} (h : Met m.fresh s n chunks m')
    (hm : m.FreeSound)
    (hmoves : Moves callScope (m.fresh, []) (m', chunks.map (Holding.mk s))) :
    ExactRequest m s n chunks m' := by
  have hfresh : m.fresh.FreeSound := ⟨hm.bounded, hm.aligned, hm.disjoint⟩
  have hj : ∀ e ∈ m'.journal, ¬ e.ChangesTables := by
    intro e he hc
    rcases h.journal e he with he | ⟨k, rfl⟩
    · simp [PhysicalMemory.fresh] at he
    · exact hc
  have hspans : (chunks.map (Holding.mk s)).map Holding.span =
      chunks.map (PagedMemory.span s) := by
    rw [List.map_map]
    rfl
  obtain ⟨haligned, -, -⟩ := hmoves.free_count (by norm_num [callScope]) hfresh hj
  obtain ⟨hdisjoint, hwas, heq⟩ := hmoves.free_eq (by norm_num [callScope]) hfresh hj
  rw [List.forall_mem_map] at haligned hwas
  refine ⟨?_, h.pages, haligned, hspans ▸ hdisjoint, hwas, heq.trans ?_⟩
  · rw [← h.pages]
    exact length_le_pagesIn h.pos
  · ext a
    simp only [List.mem_map, exists_exists_and_eq_and, Set.mem_sdiff, Set.mem_ofPred_eq]
    rfl

/-- `allocPhysicalPages` is exact: where the regions have pages, are aligned and do not overlap,
and no table becomes full, it faults exactly when the pages of the size and of the larger sizes
do not suffice, and otherwise returns chunks of as many pages as were requested, which were free
and are what is no longer free. -/
theorem allocPhysicalPages_exact {n : U64} (hm : m.FreeSound) (hlisted : ∀ t, m.Listed t)
    (hpos : 1 ≤ n.toNat) (hn : n.toNat ≤ PageTableFormat.entries) (hdepth : 3 ≤ depth)
    (hfull : (final (allocPhysicalPages depth n s m.fresh)).NoneFull) :
    ((∃ e m', allocPhysicalPages depth n s m.fresh = .error e m') ↔
      m.freePages s < n.toNat ∧
      m.freePagesOf s.larger? < (n.toNat - m.freePages s + 511) / 512 ∧
      m.freePagesOf (s.larger?.bind PageSize.larger?) <
        ((n.toNat - m.freePages s + 511) / 512 - m.freePagesOf s.larger? + 511) / 512) ∧
    ∀ chunks m', allocPhysicalPages depth n s m.fresh = .ok chunks m' →
      ExactRequest m s n.toNat chunks m' := by
  rw [← PhysicalMemory.not_suffices_iff]
  have hlt : n.toNat < 2 ^ 32 := hn.trans_lt (by norm_num [PageTableFormat.entries])
  have hlevels : s.levels ≤ depth := by
    cases s <;> simp only [PageSize.levels] <;> omega
  have hfresh (t : PageSize) : m.fresh.manager t = m.manager t := by
    cases t <;> rfl
  have hsuffices : m.fresh.Suffices s n.toNat ↔ m.Suffices s n.toNat :=
    PhysicalMemory.suffices_congr fun t _ => hfresh t
  have hlisted' (t : PageSize) : m.fresh.Listed t := by
    rw [PhysicalMemory.Listed, hfresh]
    exact hlisted t
  obtain ⟨hmet, hfails⟩ := allocPhysicalPages_spec hlevels hpos hlt hlisted' hfull
  rw [hsuffices] at hmet hfails
  constructor
  · constructor
    · rintro ⟨e, m', herror⟩ hsuff
      obtain ⟨chunks, m₁, hok, -⟩ := hmet hsuff
      rw [allocPhysicalPages, hok] at herror
      cases herror
    · intro hno
      exact ⟨_, hfails hno⟩
  · intro chunks m' hok
    by_cases hsuff : m.Suffices s n.toNat
    · obtain ⟨chunks', m₁, hok', hmet⟩ := hmet hsuff
      have hslot : ∀ k, callScope.slot k := fun _ => trivial
      have hmoves := (conducts_allocPhysicalPagesWithManager le_rfl hslot).ok
        hok []
      obtain ⟨rfl, rfl⟩ := EStateM.Result.ok.inj (hok'.symm.trans hok)
      refine hmet.exact hm ?_
      simpa using hmoves
    · obtain ⟨m₁, herror⟩ := hfails hsuff
      rw [allocPhysicalPages, herror] at hok
      cases hok

/-- Five frames are requested where three are listed and two 2 MiB pages are free. -/
theorem allocPhysicalPages_exact_five :
    let m : PhysicalMemory := ⟨⟨0x1000, [⟨0x2000, 1⟩, ⟨0x4000, 2⟩], 256, 1⟩,
      ⟨0x5000, [⟨0x200000, 2⟩], 256, 1⟩, ⟨0x40000000, [], 256, 1⟩, []⟩
    ∃ chunks m', allocPhysicalPages 3 5 .basePage m.fresh = .ok chunks m' ∧
      ExactRequest m .basePage 5 chunks m' := by
  intro m
  have hrun : allocPhysicalPages 3 5 .basePage m.fresh =
      .ok [⟨0x4000, 2⟩, ⟨0x2000, 1⟩, ⟨0x200000, 2⟩]
        ⟨⟨0x1000, [⟨0x200000 + 2 * 4096, 510⟩], 256, 1⟩, ⟨0x5000, [⟨0x400000, 1⟩], 256, 1⟩,
          ⟨0x40000000, [], 256, 1⟩,
          [.slotWritten 0, .slotWritten 1, .slotWritten 2, .slotWritten 2]⟩ := by
    decide +kernel
  refine ⟨_, _, hrun, (allocPhysicalPages_exact ⟨?_, ?_, ?_⟩ ?_ (by decide) (by decide)
    (le_refl 3) ?_).2 _ _ hrun⟩
  · intro s r hr
    revert r
    cases s <;> simp [m, PhysicalMemory.manager, PagedMemory.bounded_iff]
  · intro s r hr
    revert r
    cases s <;> simp [m, PhysicalMemory.manager]
  · exact Span.pairwise_disjoint_of_sorted (by decide)
  · intro s
    cases s <;> simp [m, PhysicalMemory.Listed, PhysicalMemory.manager]
  · rw [hrun]
    intro t
    simp [final]

end Request

end Homegrown.Memory
