import Homegrown.Memory.Physical.Contiguous
import Homegrown.Memory.Physical.Exchange

/-!
# Requests that are met or fault

While no table becomes full, a request for memory ends: it is met, or there is no more physical
memory. It needs as much depth as there are page sizes from its own on, and lists that the 32-bit
index of the search reaches to their ends. Regions without pages may be listed, and a request may
be for no pages at all.
-/

namespace Homegrown.Memory

/-- The tables hold their lists, and have fewer entries than the index of a search. -/
def PhysicalMemory.WithinReach (m : PhysicalMemory) : Prop :=
  ∀ t, (m.manager t).memory.length ≤ (m.manager t).cap.toNat ∧ (m.manager t).cap.toNat < 2 ^ 32

section Ends

variable {m m' : PhysicalMemory} {s larger : PageSize} {depth slot : Nat} {len : U64}
  {chunks : List PagedMemory}

/-- What adds to the journal takes no full table back. -/
theorem AddsToJournal.stays {α : Type} {x : Kernel α} (hx : AddsToJournal x) :
    Keeps (fun m => ¬ m.NoneFull) x :=
  fun m hfull hclean => hfull (hclean.of_prefix (hx m))

/-- The journal does not matter for the tables. -/
theorem PhysicalMemory.WithinReach.note (h : m.WithinReach) (e : Event) :
    (m.note e).WithinReach := by
  intro t
  rw [PhysicalMemory.manager_note]
  exact h t

/-- One manager is replaced, with the same table and no longer a list. -/
theorem PhysicalMemory.WithinReach.setManager (h : m.WithinReach) {p : PhysicalMemoryManager}
    (hcap : p.cap = (m.manager s).cap) (hlen : p.memory.length ≤ (m.manager s).cap.toNat) :
    (m.setManager s p).WithinReach := by
  intro t
  rw [PhysicalMemory.manager_setManager_eq]
  split
  · rw [hcap]
    exact ⟨hlen, (h s).2⟩
  · exact h t

/-- A decrease leaves the table and lists no more regions. -/
theorem PhysicalMemory.WithinReach.decrease (h : m.WithinReach) (index : Nat)
    (region : PagedMemory) (decreaseBy : U64) :
    (m.setManager s ((m.manager s).decrease s index region decreaseBy)).WithinReach :=
  h.setManager PhysicalMemoryManager.cap_decrease (length_decrease_le.trans (h s).1)

/-- While no table becomes full, regions that are freed are listed where there is room. -/
theorem endsClean_freePhysicalPages (depth : Nat) (pages : List PagedMemory) (s : PageSize) :
    EndsClean PhysicalMemory.NoneFull PhysicalMemory.WithinReach
      (freePhysicalPages depth pages s) NoMoreFrames fun _ m => m.WithinReach := by
  have hcontiguous (k : U64) :=
    AddsToJournal.allocContiguousPhysicalPagesWithManager depth k .basePage
  rw [freePhysicalPages]
  induction pages with
  | nil => exact .pure fun _ h => h
  | cons page pages ih =>
    refine .bind (m := fun _ m => m.WithinReach ∧
      (m.manager s).memory.length < (m.manager s).cap.toNat) ⟨fun m h hfull => ?_, ?_⟩ fun _ =>
      .bind (.modify (fun m h => ?_) fun m hclean => ?_) fun _ => ih
    · by_cases hroom : (m.manager s).memory.length < (m.manager s).cap.toNat
      · exact .of_ok (ensureCapacity_eq_ok (u := ()) |>.mpr (.inl ⟨hroom, rfl⟩)) ⟨h, hroom⟩
      · exact (hfull s (tableFull_mem_of_full hcontiguous (not_lt.mp hroom))).elim
    · exact (AddsToJournal.ensureCapacity hcontiguous s).stays
    · refine h.1.setManager rfl ?_
      change ((m.manager s).memory ++ [page]).length ≤ _
      rw [List.length_append, List.length_singleton]
      exact h.2
    · exact hclean.of_prefix (by rw [PhysicalMemory.journal_setManager])

/-! ## Contiguous pages -/

/-- A request for contiguous pages is met or faults. -/
theorem endsClean_allocContiguousPhysicalPages (hdepth : s.levels ≤ depth) (n : U64) :
    EndsClean PhysicalMemory.NoneFull PhysicalMemory.WithinReach
      (allocContiguousPhysicalPagesWithManager depth n s) NoMoreFrames
      fun _ m => m.WithinReach := by
  refine ⟨?_, (AddsToJournal.allocContiguousPhysicalPagesWithManager depth n s).stays⟩
  induction depth generalizing n s with
  | zero => cases s <;> exact absurd hdepth (by decide)
  | succ depth ih =>
    intro m hm hfull
    by_cases hfit : m.OffersWithinReach (s, n.toNat)
    · obtain ⟨i, region, -, -, hrun⟩ := allocContiguous_of_fit depth hfit
      rw [hrun]
      exact .of_ok rfl (hm.decrease i region n)
    · have hlen : (m.manager s).memory.length < 2 ^ 32 := (hm s).1.trans_lt (hm s).2
      rw [allocContiguous_of_not_fit hfit, if_neg (not_le.mpr hlen)] at hfull ⊢
      cases hl : s.larger? with
      | none => exact .throw (s := m) rfl
      | some larger =>
        have hlevels := PageSize.levels_larger hl
        simp only [hl] at hfull ⊢
        refine (EndsClean.bind (m := fun _ m => m.WithinReach)
          ⟨ih (by omega) _, (AddsToJournal.allocContiguousPhysicalPagesWithManager _ _ _).stays⟩
          fun address => .bind (.modify (fun m h => h.note _) fun m hclean => ?_) fun _ =>
          (endsClean_freePhysicalPages depth _ s).bind fun _ => .pure fun _ h => h).ends m hm hfull
        exact hclean.of_prefix (List.prefix_append _ _)

/-! ## Pages -/

/-- What the loop over the listed regions leaves: it stops at a region with enough pages, or has
taken the whole list. -/
theorem takeListedPages_ends {regions : List PagedMemory} (slot : Nat) (requested : U32)
    (hlist : (m.manager s).memory.reverse = regions) (hm : m.WithinReach) :
    ReturnsWith (takeListedPages s regions slot requested m) fun r m' =>
      m'.WithinReach ∧ (∀ t ≠ s, m'.manager t = m.manager t) ∧ (r.2 = none → r.1 ≠ []) ∧
        (r.2 ≠ none → (m'.manager s).memory = [] ∧
          ¬ (regions ≠ [] ∧ requested.toNat ≤ pagesIn regions)) := by
  induction regions generalizing m slot requested with
  | nil =>
    refine .pure ⟨hm, fun _ _ => rfl, fun hnone => (by cases hnone), fun _ =>
      ⟨List.reverse_eq_nil_iff.mp hlist, fun h => h.1 rfl⟩⟩
  | cons region rest ih =>
    rw [← m.manager_note s (.slotWritten slot)] at hlist
    obtain ⟨hat, hpop, hrest⟩ := PhysicalMemoryManager.pop_of_reverse (s := s) hlist
    have hwide : (requested.setWidth 64).toNat = requested.toNat :=
      BitVec.toNat_setWidth_of_le (by norm_num)
    rw [takeListedPages, bind_of_ok (note_eq_ok (u := ()) |>.mpr rfl)]
    by_cases hle : requested.setWidth 64 ≤ region.numberOfPages
    · rw [if_pos hle, bind_of_ok (decreasePages_eq_ok (u := ()) |>.mpr ⟨region, hat, hle, rfl⟩)]
      exact .pure ⟨(hm.note _).decrease _ _ _, fun t ht =>
        PhysicalMemory.manager_slotWritten_of_ne ht, fun _ => List.cons_ne_nil _ _,
        fun hsome => (hsome rfl).elim⟩
    · rw [if_neg hle, bind_of_ok (updateManager_eq_ok (u := ()) |>.mpr rfl)]
      have hreach : ((m.note (.slotWritten slot)).setManager s
          ((m.note (.slotWritten slot)).manager s).pop).WithinReach := by
        refine (hm.note _).setManager rfl ?_
        change (List.dropLast _).length ≤ _
        rw [List.length_dropLast]
        exact (Nat.sub_le _ _).trans ((hm.note _) s).1
      refine (ih (slot + 1) (requested - region.numberOfPages.setWidth 32)
        (by rwa [PhysicalMemory.manager_setManager]) hreach).bind fun r m' h => .pure ?_
      obtain ⟨pages, left⟩ := r
      obtain ⟨hm', hsame, -, hleft⟩ := h
      refine ⟨hm', fun t ht => (hsame t ht).trans (PhysicalMemory.manager_slotWritten_of_ne ht),
        fun _ => List.cons_ne_nil _ _, fun hsome => ?_⟩
      obtain ⟨hempty, hmore⟩ := hleft hsome
      refine ⟨hempty, fun hmet => hmore ?_⟩
      rw [BitVec.not_le, BitVec.lt_def, hwide] at hle
      have hlt := requested.isLt
      have hsub : (requested - region.numberOfPages.setWidth 32).toNat =
          requested.toNat - region.numberOfPages.toNat := by
        bv_omega
      have hall := hmet.2
      rw [pagesIn_cons] at hall
      rw [hsub]
      refine ⟨?_, by omega⟩
      rintro rfl
      rw [pagesIn_nil] at hall
      omega

/-- The loop over the listed regions takes what it is asked for, or says what is left. -/
theorem pagesIn_takeListedPages {regions : List PagedMemory}
    {requested : U32} {left : Option U32}
    (h : takeListedPages s regions slot requested m = .ok (chunks, left) m') :
    pagesIn chunks + (left.getD 0).toNat = requested.toNat := by
  induction regions generalizing slot requested m m' chunks left with
  | nil =>
    rw [takeListedPages, pure_eq_ok, Prod.mk.injEq] at h
    obtain ⟨⟨rfl, rfl⟩, -⟩ := h
    exact Nat.zero_add _
  | cons region rest ih =>
    have hlt := requested.isLt
    have hwide : (requested.setWidth 64).toNat = requested.toNat :=
      BitVec.toNat_setWidth_of_le (by norm_num)
    rw [takeListedPages, bind_eq_ok] at h
    obtain ⟨_, m₁, -, h⟩ := h
    split at h
    · simp only [bind_eq_ok, pure_eq_ok, Prod.mk.injEq] at h
      obtain ⟨_, _, -, ⟨rfl, rfl⟩, -⟩ := h
      rw [pagesIn_cons, pagesIn_nil, hwide]
      rfl
    · rename_i hle
      simp only [bind_eq_ok, pure_eq_ok, Prod.mk.injEq] at h
      obtain ⟨_, _, -, ⟨chunks', left'⟩, _, hrest, ⟨rfl, rfl⟩, -⟩ := h
      have hsum : pagesIn chunks' + (left'.getD 0).toNat = _ := ih hrest
      have hsub : (requested - region.numberOfPages.setWidth 32).toNat =
          requested.toNat - region.numberOfPages.toNat := by
        rw [BitVec.not_le, BitVec.lt_def, hwide] at hle
        bv_omega
      rw [BitVec.not_le, BitVec.lt_def, hwide] at hle
      change pagesIn (_ :: chunks') + (left'.getD 0).toNat = _
      rw [pagesIn_cons]
      omega

/-- A request that returns has as many pages as were requested, in every state. -/
theorem pagesIn_allocPhysicalPages (hlen : len.toNat < 2 ^ 32)
    (h : allocPhysicalPagesWithManager depth slot len s m = .ok chunks m') :
    pagesIn chunks = len.toNat := by
  have hnarrow := toNat_narrow hlen
  induction depth generalizing slot len s m m' chunks with
  | zero => exact (throw_eq_ok.mp h).elim
  | succ depth ih =>
    rcases allocPhysicalPagesWithManager_of_ok h with
      htake | ⟨pages, requested, _, _, added, _, _, _, -, rfl, htake, -, -, hadded⟩
    · have hsum := pagesIn_takeListedPages htake
      rwa [hnarrow] at hsum
    · have hsum := pagesIn_takeListedPages htake
      have hwide : (requested.setWidth 64).toNat = requested.toNat :=
        BitVec.toNat_setWidth_of_le (by norm_num)
      have hrequested := requested.isLt
      have hagain := ih (by omega) hadded (toNat_narrow (by omega))
      rw [Option.getD_some] at hsum
      rw [pagesIn_append, hagain]
      omega

/-- What a request leaves: lists within reach, the smaller pages as they were, and a chunk. -/
structure Answered (m : PhysicalMemory) (s : PageSize) (chunks : List PagedMemory)
    (m' : PhysicalMemory) : Prop where
  withinReach : m'.WithinReach
  smaller : ∀ t : PageSize, t.exponent < s.exponent → m'.manager t = m.manager t
  chunk : chunks ≠ []

/-- A request that the listed regions meet is answered. -/
theorem allocPhysicalPages_of_listed (depth slot : Nat) {len : U64} (hm : m.WithinReach)
    (hlt : len.toNat < 2 ^ 32) (hsome : (m.manager s).memory ≠ [])
    (hle : len.toNat ≤ m.freePages s) :
    ReturnsWith (allocPhysicalPagesWithManager (depth + 1) slot len s m) (Answered m s) := by
  have hnarrow := toNat_narrow hlt
  rw [allocPhysicalPagesWithManager, bind_of_ok (getMemoryManager_eq_ok.mpr ⟨rfl, rfl⟩)]
  refine (takeListedPages_ends slot (len.setWidth 32) rfl hm).bind fun r m' h => ?_
  obtain ⟨pages, left⟩ := r
  obtain ⟨hm', hothers, htaken, hleft⟩ := h
  cases left with
  | none => exact .pure ⟨hm', fun t ht => hothers t (ne_of_exponent_lt ht), htaken rfl⟩
  | some left =>
    obtain ⟨-, hmore⟩ := hleft (Option.some_ne_none left)
    refine (hmore ⟨by simpa using hsome, ?_⟩).elim
    rw [pagesIn_reverse, hnarrow]
    exact hle

/-- The request made again is answered, out of the larger pages. -/
theorem requestAgain_answered (requested : U32) (pages : List PagedMemory)
    {largerPage : List PagedMemory} (hdepth : 0 < depth)
    (hm : m.WithinReach) (hempty : (m.manager s).memory = []) (hsome : largerPage ≠ [])
    (hfits : ∀ chunk ∈ largerPage, chunk.numberOfPages.toNat < 2 ^ 32)
    (henough : requested.toNat ≤ 512 * pagesIn largerPage)
    (hfull : (final (requestAgain depth slot requested s pages largerPage m)).NoneFull) :
    ReturnsWith (requestAgain depth slot requested s pages largerPage m) (Answered m s) := by
  obtain ⟨depth, rfl⟩ := Nat.exists_eq_succ_of_ne_zero hdepth.ne'
  have hwide : (requested.setWidth 64 : U64).toNat = requested.toNat :=
    BitVec.toNat_setWidth_of_le (by norm_num)
  have hlt := requested.isLt
  have hfree := hfull.of_prefix (journal_final_bind fun _ =>
    AddsToJournal.bind (AddsToJournal.allocPhysicalPagesWithManager (depth + 1) slot _ s)
      fun _ => AddsToJournal.pure _)
  have hlists := freePhysicalPages_of_noneFull hfree
  have hreach := ((endsClean_freePhysicalPages (depth + 1) _ s).ends m hm hfree).ok hlists
  rw [hempty, List.nil_append] at hlists hreach
  rw [requestAgain, bind_of_ok hlists]
  refine (allocPhysicalPages_of_listed depth slot hreach (by omega) ?_ ?_).bind fun added m' h =>
    .pure ⟨h.withinReach, fun t ht => ?_, by simp [h.chunk]⟩
  · rw [PhysicalMemory.manager_setManager]
    simpa using hsome
  · rw [PhysicalMemory.freePages, PhysicalMemory.manager_setManager]
    change _ ≤ pagesIn (largerPage.map _)
    rw [pagesIn_smaller hfits, hwide]
    exact henough
  · rw [h.smaller t ht, PhysicalMemory.manager_setManager_of_ne _ _ _ _ (ne_of_exponent_lt ht)]

/-- A request for pages is answered or faults. -/
theorem endsIn_allocPhysicalPages (hdepth : s.levels ≤ depth) (hlt : len.toNat < 2 ^ 32)
    (hm : m.WithinReach)
    (hfull : (final (allocPhysicalPagesWithManager depth slot len s m)).NoneFull) :
    EndsIn (allocPhysicalPagesWithManager depth slot len s m) NoMoreFrames (Answered m s) := by
  induction depth generalizing m s slot len with
  | zero => cases s <;> exact absurd hdepth (by decide)
  | succ depth ih =>
    obtain ⟨⟨pages, left⟩, m₁, htake, hm₁, hothers, htaken, hleft⟩ :=
      takeListedPages_ends slot (len.setWidth 32) rfl hm
    rw [allocPhysicalPagesWithManager, bind_of_ok (getMemoryManager_eq_ok.mpr ⟨rfl, rfl⟩),
      bind_of_ok htake] at hfull ⊢
    cases left with
    | none => exact .pure ⟨hm₁, fun t ht => hothers t (ne_of_exponent_lt ht), htaken rfl⟩
    | some requested =>
      cases hl : s.larger? with
      | none => exact .throw rfl
      | some larger =>
        simp only [hl] at hfull ⊢
        have hlevels := PageSize.levels_larger hl
        have hexponent := PageSize.exponent_lt_larger hl
        have hlevel : 0 < larger.levels := by
          cases larger <;> decide
        have hwide : (requested.setWidth 64 : U64).toNat = requested.toNat :=
          BitVec.toNat_setWidth_of_le (by norm_num)
        have hrequested := requested.isLt
        have hceil : (ceilingDivValue ((requested.setWidth 64 : U64)) 512).toNat =
            (requested.toNat + 511) / 512 := by
          rw [← hwide]
          exact toNat_ceilingDivValue (k := 9) rfl (by rw [hwide]; omega)
        have hlarger := hfull.of_prefix (journal_final_bind
          (AddsToJournal.requestAgain depth (slot + pages.length) s requested pages))
        refine (ih (by omega) (by omega) hm₁ hlarger).bind fun largerPage m₂ hrun h => ?_
        rw [bind_of_ok hrun] at hfull
        have hempty : (m₂.manager s).memory = [] := by
          rw [h.smaller s hexponent]
          exact (hleft (Option.some_ne_none requested)).1
        have hpages := pagesIn_allocPhysicalPages (by omega) hrun
        obtain ⟨chunks, m', hagain, hchunks⟩ := requestAgain_answered requested pages
          (by omega) h.withinReach hempty h.chunk (allocPhysicalPagesWithManager_fits hrun)
          (by omega) hfull
        refine .of_ok hagain ⟨hchunks.withinReach, fun t ht => ?_, hchunks.chunk⟩
        rw [hchunks.smaller t ht, h.smaller t (ht.trans hexponent),
          hothers t (ne_of_exponent_lt ht)]

end Ends

end Homegrown.Memory
