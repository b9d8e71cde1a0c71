import Homegrown.Memory.Physical.Free

/-!
# Contiguous allocations, exactly

A request for contiguous pages looks for a region at its own page size, and then at the
next larger ones. It finds one when there is one, and otherwise fails with the managers as
they were, but for one thing: the index of the search has 32 bits, so that the search of
a longer list in vain does not end. `allocContiguousPhysicalPages_exact_iff` says so.
-/

namespace Homegrown.Memory

/-- The page sizes that a request goes through, with the pages requested at each. -/
def requests : PageSize → Nat → List (PageSize × Nat)
  | .hugePage, n => [(.hugePage, n)]
  | .largePage, n => [(.largePage, n), (.hugePage, (n + 511) / 512)]
  | .basePage, n => [(.basePage, n), (.largePage, (n + 511) / 512),
      (.hugePage, ((n + 511) / 512 + 511) / 512)]

namespace PhysicalMemory

variable (m : PhysicalMemory)

/-- Some listed region of the size has as many pages. -/
def Offers (request : PageSize × Nat) : Prop :=
  ∃ r ∈ (m.manager request.1).memory, request.2 ≤ r.numberOfPages.toNat

/-- Some region of the size that an index of 32 bits reaches has as many pages. -/
def OffersWithinReach (request : PageSize × Nat) : Prop :=
  ∃ i < 2 ^ 32, ∃ r, (m.manager request.1).memory[i]? = some r ∧
    request.2 ≤ r.numberOfPages.toNat

/-- Every list that is searched in vain has less than `2 ^ 32` regions. -/
def SearchEnds : List (PageSize × Nat) → Prop
  | [] => True
  | request :: larger => m.OffersWithinReach request ∨
      (m.manager request.1).memory.length < 2 ^ 32 ∧ SearchEnds larger

/-- No table is full. -/
def HasRoom : Prop := ∀ s, (m.manager s).memory.length < (m.manager s).cap.toNat

/-- What an allocation of contiguous pages should do: without a large enough region it
faults and leaves the managers as they were, and otherwise it returns the address of pages that
were free, and takes exactly these. -/
def AllocatesExactly (s : PageSize) (n : U64) : Prop :=
  ∀ depth, 3 ≤ depth →
    ((∀ request ∈ requests s n.toNat, ¬ m.Offers request) →
      ∃ m', allocContiguousPhysicalPages depth n s m.fresh = .error .noMorePhysicalMemory m' ∧
        ∀ t, m'.manager t = m.manager t) ∧
    ((∃ request ∈ requests s n.toNat, m.Offers request) →
      ReturnsWith (allocContiguousPhysicalPages depth n s m.fresh) fun address m' =>
        s.bytes ∣ address.toNat ∧
        (∀ a ∈ PagedMemory.span s ⟨address, n⟩, a ∈ m.free) ∧
        m'.free = m.free \ {a | a ∈ PagedMemory.span s ⟨address, n⟩})

end PhysicalMemory

section Search

variable {m : PhysicalMemory} {s larger : PageSize} {n : U64} {depth : Nat}

/-- The requests from a size on: its own, and those of the larger sizes. -/
theorem requests_eq (s : PageSize) (n : Nat) :
    requests s n = (s, n) :: match s.larger? with
      | none => []
      | some larger => requests larger ((n + 511) / 512) := by
  cases s <;> rfl

/-- The pages that are requested of the next larger size. -/
theorem toNat_requested (hn : n.toNat < 2 ^ 32) :
    (ceilingDivValue n 512).toNat = (n.toNat + 511) / 512 :=
  toNat_ceilingDivValue (k := 9) rfl (by omega)

/-- The search finds a region exactly when one is within its reach. -/
theorem firstFit_isSome_iff :
    (∃ i, firstFit (m.manager s).memory n = some i) ↔ m.OffersWithinReach (s, n.toNat) := by
  constructor
  · rintro ⟨i, hi⟩
    obtain ⟨region, hr, hle⟩ := firstFit_eq_some hi
    rw [firstFit, Option.filter_eq_some_iff] at hi
    exact ⟨i, of_decide_eq_true hi.2, region, hr, BitVec.le_def.mp hle⟩
  · rintro ⟨i, hi, region, hr, hle⟩
    obtain ⟨hlt, hget⟩ := List.getElem?_eq_some_iff.mp hr
    cases hfind : (m.manager s).memory.findIdx? fun r => decide (n ≤ r.numberOfPages) with
    | none =>
      rw [List.findIdx?_eq_none_iff] at hfind
      have hno := of_decide_eq_false (hfind region (List.mem_of_getElem? hr))
      exact (hno (BitVec.le_def.mpr hle)).elim
    | some j =>
      obtain ⟨hj, -, hbefore⟩ := List.findIdx?_eq_some_iff_getElem.mp hfind
      have hle' : j ≤ i := by
        by_contra hlt'
        have hno := hbefore i (by omega)
        rw [hget] at hno
        exact hno (decide_eq_true (BitVec.le_def.mpr hle))
      refine ⟨j, ?_⟩
      rw [firstFit, hfind, Option.filter_some, decide_eq_true (hle'.trans_lt hi)]
      rfl

/-- A search that finds a region takes its first pages. -/
theorem allocContiguous_of_fit (depth : Nat) (h : m.OffersWithinReach (s, n.toNat)) :
    ∃ i region, (m.manager s).memory[i]? = some region ∧ n ≤ region.numberOfPages ∧
      allocContiguousPhysicalPagesWithManager (depth + 1) n s m =
        .ok region.pageStart (m.setManager s ((m.manager s).decrease s i region n)) := by
  obtain ⟨i, hi⟩ := firstFit_isSome_iff.mpr h
  obtain ⟨region, hr, hle⟩ := firstFit_eq_some hi
  exact ⟨i, region, hr, hle, allocContiguousPhysicalPagesWithManager_eq_ok.mpr
    (.inl ⟨i, region, hi, hr, hle, rfl, rfl⟩)⟩

/-- How a search in vain goes on. -/
theorem allocContiguous_of_not_fit (h : ¬ m.OffersWithinReach (s, n.toNat)) :
    allocContiguousPhysicalPagesWithManager (depth + 1) n s m =
      if 2 ^ 32 ≤ (m.manager s).memory.length then .error .endlessLoop m
      else match s.larger? with
        | none => .error .noMorePhysicalMemory m
        | some larger => (do
          let address ← allocContiguousPhysicalPagesWithManager depth (ceilingDivValue n 512) larger
          note (.stolen n)
          freePhysicalPagesWithManager
            (fun n => allocContiguousPhysicalPagesWithManager depth n .basePage) s
            [⟨address + n * s.value, toSmallerPages (ceilingDivValue n 512) - n⟩]
          return address : Kernel U64) m := by
  have hnone : firstFit (m.manager s).memory n = none := by
    rw [← Option.not_isSome_iff_eq_none, Option.isSome_iff_exists, firstFit_isSome_iff]
    exact h
  rw [allocContiguousPhysicalPagesWithManager, bind_of_ok (getMemoryManager_eq_ok.mpr ⟨rfl, rfl⟩)]
  simp only [hnone]
  split
  · rfl
  · cases hl : s.larger? with
    | none => rfl
    | some larger => rfl

/-- What is offered within reach is offered. -/
theorem PhysicalMemory.OffersWithinReach.offers {request : PageSize × Nat}
    (h : m.OffersWithinReach request) : m.Offers request := by
  obtain ⟨i, -, region, hr, hle⟩ := h
  exact ⟨region, List.mem_of_getElem? hr, hle⟩

/-- A list that the index reaches to its end offers nothing that the search does not find. -/
theorem PhysicalMemory.Offers.withinReach {request : PageSize × Nat} (h : m.Offers request)
    (hlen : (m.manager request.1).memory.length < 2 ^ 32) : m.OffersWithinReach request := by
  obtain ⟨region, hr, hle⟩ := h
  obtain ⟨i, hi, rfl⟩ := List.getElem_of_mem hr
  exact ⟨i, hi.trans hlen, _, List.getElem?_eq_getElem hi, hle⟩

/-- What an allocation of contiguous pages that returns has done. -/
structure Takes (m : PhysicalMemory) (s : PageSize) (n address : U64) (m' : PhysicalMemory) :
    Prop where
  moves : ∀ scope : Scope, 2 ^ 32 ≤ scope.limit → ∀ hand,
    Moves scope (m, hand) (m', ⟨s, ⟨address, n⟩⟩ :: hand)
  journal : ∀ e ∈ m'.journal, e ∈ m.journal ∨ ∃ k, e = .stolen k
  smaller : ∀ t : PageSize, t.exponent < s.exponent → m'.manager t = m.manager t

/-- Pages are taken from a region that is listed. -/
theorem Takes.of_fit {i : Nat} {region : PagedMemory}
    (hr : (m.manager s).memory[i]? = some region) (hle : n ≤ region.numberOfPages) :
    Takes m s n region.pageStart (m.setManager s ((m.manager s).decrease s i region n)) where
  moves _ _ _ := .single (.take s i region n hr hle)
  journal e he := .inl (by simpa using he)
  smaller t ht := PhysicalMemory.manager_setManager_of_ne _ _ _ _ (by
    rintro rfl
    exact ht.false)

/-- Pages of the next larger size are cut, and the rest is listed. -/
theorem Takes.steal {address : U64} {m₁ : PhysicalMemory} (hl : s.larger? = some larger)
    (hn : n.toNat < 2 ^ 32) (h : Takes m larger (ceilingDivValue n 512) address m₁) :
    Takes m s n address ((m₁.note (.stolen n)).setManager s ((m₁.manager s).push
      ⟨address + n * s.value, toSmallerPages (ceilingDivValue n 512) - n⟩)) where
  moves scope hlimit hand := by
    refine (h.moves scope hlimit hand).tail
      (.cut s larger n address hl (hn.le.trans hlimit)) |>.tail
      ?_
    have hlist : Move scope (m₁.note (.stolen n), _ :: ⟨s, ⟨address, n⟩⟩ :: hand) _ := .list s
      ⟨address + n * s.value, toSmallerPages (ceilingDivValue n 512) - n⟩
    rwa [PhysicalMemory.manager_note] at hlist
  journal e he := by
    rw [PhysicalMemory.journal_setManager, PhysicalMemory.journal_note, List.mem_append,
      List.mem_singleton] at he
    rcases he with he | rfl
    · exact h.journal e he
    · exact .inr ⟨n, rfl⟩
  smaller t ht := by
    have hlt : s.exponent < larger.exponent := by
      cases s <;> cases hl <;> decide
    rw [PhysicalMemory.manager_setManager_of_ne _ _ _ _ (by
      rintro rfl
      exact ht.false), PhysicalMemory.manager_note]
    exact h.smaller t (ht.trans hlt)

/-- Where every search ends, the request is served, or nothing is changed. -/
theorem allocContiguous_of_searchEnds (hroom : m.HasRoom) (hn : n.toNat < 2 ^ 32)
    (hdepth : (requests s n.toNat).length ≤ depth) (h : m.SearchEnds (requests s n.toNat)) :
    (∃ address m', allocContiguousPhysicalPagesWithManager depth n s m = .ok address m' ∧
      Takes m s n address m' ∧ ∃ request ∈ requests s n.toNat, m.Offers request) ∨
    allocContiguousPhysicalPagesWithManager depth n s m = .error .noMorePhysicalMemory m ∧
      ∀ request ∈ requests s n.toNat, ¬ m.Offers request := by
  induction depth generalizing n s with
  | zero =>
    rw [requests_eq] at hdepth
    exact absurd hdepth (Nat.not_succ_le_zero _)
  | succ depth ih =>
    rw [requests_eq] at h hdepth ⊢
    by_cases hfit : m.OffersWithinReach (s, n.toNat)
    · obtain ⟨i, region, hr, hle, hrun⟩ := allocContiguous_of_fit depth hfit
      exact .inl ⟨_, _, hrun, .of_fit hr hle, _, List.mem_cons_self, hfit.offers⟩
    · obtain ⟨hlen, hlarger⟩ := h.resolve_left hfit
      have hno : ¬ m.Offers (s, n.toNat) := fun hoffer => hfit (hoffer.withinReach hlen)
      rw [allocContiguous_of_not_fit hfit, if_neg (not_le.mpr hlen)]
      cases hl : s.larger? with
      | none => exact .inr ⟨rfl, by simpa [hl] using hno⟩
      | some larger =>
        simp only [hl, List.length_cons] at hlarger hdepth ⊢
        rw [← toNat_requested hn] at hlarger hdepth ⊢
        have hn' : (ceilingDivValue n 512).toNat < 2 ^ 32 :=
          (toNat_ceilingDivValue_le n).trans_lt hn
        rcases ih hn' (by omega) hlarger with
          ⟨address, m₁, hrun, htakes, request, hmem, hoffer⟩ | ⟨hrun, hnone⟩
        · have hlt : s.exponent < larger.exponent := by
            cases s <;> cases hl <;> decide
          have hfree (page : PagedMemory) : freePhysicalPagesWithManager
              (fun n => allocContiguousPhysicalPagesWithManager depth n .basePage) s [page]
              (m₁.note (.stolen n)) =
              .ok () ((m₁.note (.stolen n)).setManager s ((m₁.manager s).push page)) := by
            have hlist : (m₁.manager s).memory.length < (m₁.manager s).cap.toNat := by
              rw [htakes.smaller s hlt]
              exact hroom s
            rw [← m₁.manager_note s (.stolen n)] at hlist ⊢
            exact freePhysicalPagesWithManager_cons_eq_ok.mpr
              ⟨_, ensureCapacity_eq_ok.mpr (.inl ⟨hlist, rfl⟩), rfl⟩
          left
          refine ⟨address, _, ?_, htakes.steal hl hn, request, List.mem_cons_of_mem _ hmem, hoffer⟩
          exact bind_eq_ok.mpr ⟨address, m₁, hrun, bind_eq_ok.mpr ⟨(), _, note_eq_ok.mpr rfl,
            bind_eq_ok.mpr ⟨(), _, hfree _, rfl⟩⟩⟩
        · right
          rw [bind_of_error hrun]
          refine ⟨rfl, ?_⟩
          rintro request (_ | ⟨_, hmem⟩)
          · exact hno
          · exact hnone request hmem

/-- Where some search does not end, the call does not. -/
theorem allocContiguous_of_not_searchEnds (hn : n.toNat < 2 ^ 32)
    (hdepth : (requests s n.toNat).length ≤ depth) (h : ¬ m.SearchEnds (requests s n.toNat)) :
    allocContiguousPhysicalPagesWithManager depth n s m = .error .endlessLoop m := by
  induction depth generalizing n s with
  | zero =>
    rw [requests_eq] at hdepth
    exact absurd hdepth (Nat.not_succ_le_zero _)
  | succ depth ih =>
    rw [requests_eq] at h hdepth
    rw [PhysicalMemory.SearchEnds, not_or, not_and] at h
    rw [allocContiguous_of_not_fit h.1]
    by_cases hlen : 2 ^ 32 ≤ (m.manager s).memory.length
    · rw [if_pos hlen]
    · have hlarger := h.2 (not_le.mp hlen)
      rw [if_neg hlen]
      cases hl : s.larger? with
      | none => simp [hl, PhysicalMemory.SearchEnds] at hlarger
      | some larger =>
        simp only [hl, List.length_cons] at hlarger hdepth ⊢
        rw [← toNat_requested hn] at hlarger hdepth
        have hn' : (ceilingDivValue n 512).toNat < 2 ^ 32 :=
          (toNat_ceilingDivValue_le n).trans_lt hn
        exact bind_of_error (ih hn' (by omega) hlarger)

/-- There are three page sizes. -/
theorem length_requests_le (s : PageSize) (n : Nat) : (requests s n).length ≤ 3 := by
  cases s <;> simp [requests]

end Search

section Exact

variable {m : PhysicalMemory} {s : PageSize} {n : U64}

/-- Whether the searches end does not depend on the journal. -/
theorem PhysicalMemory.searchEnds_fresh {l : List (PageSize × Nat)} :
    m.fresh.SearchEnds l ↔ m.SearchEnds l := by
  induction l with
  | nil => exact Iff.rfl
  | cons request l ih => exact or_congr Iff.rfl (and_congr Iff.rfl ih)

/-- An allocation of contiguous pages does what it should exactly when no list that is
searched in vain has `2 ^ 32` regions or more. -/
theorem allocContiguousPhysicalPages_exact_iff (hsound : m.FreeSound) (hroom : m.HasRoom)
    (hn : n.toNat < 2 ^ 32) :
    m.AllocatesExactly s n ↔ m.SearchEnds (requests s n.toNat) := by
  constructor
  · intro h
    by_contra hend
    have hrun := allocContiguous_of_not_searchEnds (m := m.fresh) hn
      (show (requests s n.toNat).length ≤ 3 from length_requests_le s n.toNat)
      (mt PhysicalMemory.searchEnds_fresh.mp hend)
    obtain ⟨hfault, hreturn⟩ := h 3 le_rfl
    by_cases hoffer : ∃ request ∈ requests s n.toNat, m.Offers request
    · obtain ⟨address, m', hok, -⟩ := hreturn hoffer
      rw [allocContiguousPhysicalPages, hrun] at hok
      cases hok
    · obtain ⟨m', herror, -⟩ := hfault fun request hr ho => hoffer ⟨request, hr, ho⟩
      rw [allocContiguousPhysicalPages, hrun] at herror
      cases herror
  · intro hend depth hdepth
    rcases allocContiguous_of_searchEnds (m := m.fresh) (s := s) hroom hn
      ((length_requests_le s n.toNat).trans hdepth) (PhysicalMemory.searchEnds_fresh.mpr hend) with
      ⟨address, m', hrun, htakes, hoffer⟩ | ⟨hrun, hnone⟩
    · refine ⟨fun hno => ?_, fun _ => ⟨address, m', hrun, ?_⟩⟩
      · obtain ⟨request, hr, ho⟩ := hoffer
        exact (hno request hr ho).elim
      · have hmoves := htakes.moves callScope le_rfl []
        have hfresh : m.fresh.FreeSound := ⟨hsound.bounded, hsound.aligned, hsound.disjoint⟩
        have hj : ∀ e ∈ m'.journal, ¬ e.ChangesTables := by
          intro e he hc
          rcases htakes.journal e he with he | ⟨k, rfl⟩
          · simp [PhysicalMemory.fresh] at he
          · exact hc
        obtain ⟨haligned, -, -⟩ := hmoves.free_count (by norm_num [callScope]) hfresh hj
        obtain ⟨-, hwas, heq⟩ := hmoves.free_eq (by norm_num [callScope]) hfresh hj
        refine ⟨haligned _ List.mem_cons_self, hwas _ List.mem_cons_self, heq.trans ?_⟩
        simp [Holding.span]
        rfl
    · refine ⟨fun _ => ⟨m.fresh, hrun, fun t => by cases t <;> rfl⟩, ?_⟩
      rintro ⟨request, hr, ho⟩
      exact (hnone request hr ho).elim

/-- Five frames are requested from a manager that lists three. -/
theorem allocContiguousPhysicalPages_exact_five :
    PhysicalMemory.AllocatesExactly ⟨⟨0x1000, [⟨0x2000, 3⟩], 256, 1⟩,
      ⟨0x5000, [⟨0x200000, 2⟩], 256, 1⟩, ⟨0x40000000, [], 256, 1⟩, []⟩ .basePage 5 := by
  refine (allocContiguousPhysicalPages_exact_iff ⟨?_, ?_, ?_⟩ ?_ (by decide)).mpr
    (.inr ⟨by decide, .inl ⟨0, by decide, ⟨0x200000, 2⟩, rfl, by decide⟩⟩)
  · intro s r hr
    cases s <;> simp_all [PhysicalMemory.manager, PagedMemory.bounded_iff]
  · intro s r hr
    cases s <;> simp_all [PhysicalMemory.manager]
  · exact Span.pairwise_disjoint_of_sorted (by decide)
  · intro s
    cases s <;> decide

end Exact

/-! ## A list that the index does not reach to its end -/

/-- A base manager whose free memory is every other frame. -/
def everyOtherFrame (frames : Nat) : PhysicalMemory where
  basePMM := ⟨0x1000, (List.range frames).map fun i => ⟨BitVec.ofNat 64 (i * 8192), 1⟩,
    0x10000000000, 0xFFFFFFFF⟩
  largePMM := ⟨0x1000, [], 256, 1⟩
  hugePMM := ⟨0x1000, [], 256, 1⟩
  journal := []

/-- The addresses of the frames. -/
theorem toNat_everyOtherFrame {i : Nat} (h : i < 2 ^ 32) :
    (BitVec.ofNat 64 (i * 8192)).toNat = i * 8192 := by
  rw [BitVec.toNat_ofNat, Nat.mod_eq_of_lt (by omega)]

/-- The frames are aligned and do not overlap. -/
theorem everyOtherFrame_sound {frames : Nat} (h : frames ≤ 2 ^ 32) :
    (everyOtherFrame frames).FreeSound := by
  have hregion (s : PageSize) (r : PagedMemory)
      (hr : r ∈ ((everyOtherFrame frames).manager s).memory) :
      s = .basePage ∧ ∃ i < frames, r = ⟨BitVec.ofNat 64 (i * 8192), 1⟩ := by
    cases s with
    | basePage =>
      obtain ⟨i, hi, rfl⟩ := List.mem_map.mp hr
      exact ⟨rfl, i, List.mem_range.mp hi, rfl⟩
    | largePage => cases hr
    | hugePage => cases hr
  refine ⟨fun s r hr => ?_, fun s r hr => ?_, ?_⟩
  · obtain ⟨rfl, i, hi, rfl⟩ := hregion s r hr
    have hstart := toNat_everyOtherFrame (hi.trans_le h)
    rw [PagedMemory.bounded_iff, hstart]
    change i * 8192 + 1 * 4096 ≤ 2 ^ 64
    omega
  · obtain ⟨rfl, i, hi, rfl⟩ := hregion s r hr
    rw [toNat_everyOtherFrame (hi.trans_le h)]
    exact ⟨i * 2, by rw [PageSize.bytes_basePage]; omega⟩
  · have hspans : (everyOtherFrame frames).freeSpans = (List.range frames).map fun i =>
        PagedMemory.span .basePage ⟨BitVec.ofNat 64 (i * 8192), 1⟩ := by
      simp [PhysicalMemory.freeSpans, everyOtherFrame]
    rw [hspans, List.pairwise_map]
    refine List.pairwise_lt_range.imp_of_mem fun {i j} hi hj hij => Span.disjoint_of_stop_le ?_
    have hi' := toNat_everyOtherFrame ((List.mem_range.mp hi).trans_le h)
    have hj' := toNat_everyOtherFrame ((List.mem_range.mp hj).trans_le h)
    change (BitVec.ofNat 64 (i * 8192)).toNat + 1 * 4096 ≤ (BitVec.ofNat 64 (j * 8192)).toNat
    omega

/-- No two frames follow each other. -/
theorem everyOtherFrame_offers {frames : Nat} {request : PageSize × Nat}
    (h : request ∈ requests .basePage 2) : ¬ (everyOtherFrame frames).Offers request := by
  rintro ⟨r, hr, hle⟩
  rcases List.mem_cons.mp h with rfl | h
  · obtain ⟨i, -, rfl⟩ := List.mem_map.mp hr
    exact absurd (show 2 ≤ (1 : U64).toNat from hle) (by decide)
  · rcases List.mem_pair.mp h with rfl | rfl <;> cases hr

/-- The tables have room. -/
theorem everyOtherFrame_hasRoom {frames : Nat} (h : frames ≤ 2 ^ 32) :
    (everyOtherFrame frames).HasRoom := by
  intro s
  cases s with
  | basePage =>
    change ((List.range frames).map _).length < 0x10000000000
    rw [List.length_map, List.length_range]
    omega
  | largePage => exact (show 0 < (256 : U64).toNat by decide)
  | hugePage => exact (show 0 < (256 : U64).toNat by decide)

/-- A request for two frames does not come to the end of the list. -/
theorem everyOtherFrame_not_searchEnds {frames : Nat} (h : 2 ^ 32 ≤ frames) :
    ¬ (everyOtherFrame frames).SearchEnds (requests .basePage 2) := by
  rintro (hfit | ⟨hlen, -⟩)
  · exact everyOtherFrame_offers (List.mem_cons_self ..) hfit.offers
  · change ((List.range frames).map _).length < 2 ^ 32 at hlen
    rw [List.length_map, List.length_range] at hlen
    omega

/-- With `2 ^ 32` frames of which no two are adjacent, a request for two does not end. -/
theorem allocContiguousPhysicalPages_endless :
    ¬ ∀ (m : PhysicalMemory) (s : PageSize) (n : U64), m.FreeSound → m.HasRoom →
      1 ≤ n.toNat → n.toNat < 2 ^ 32 → m.AllocatesExactly s n := by
  intro h
  obtain ⟨frames, hframes⟩ : ∃ frames, frames = 2 ^ 32 := ⟨_, rfl⟩
  have hrun := allocContiguous_of_not_searchEnds (m := (everyOtherFrame frames).fresh)
    (s := .basePage) (n := 2) (by decide)
    (show (requests .basePage (2 : U64).toNat).length ≤ 3 from length_requests_le _ _)
    (mt PhysicalMemory.searchEnds_fresh.mp (everyOtherFrame_not_searchEnds hframes.ge))
  have hexact := h (everyOtherFrame frames) .basePage 2 (everyOtherFrame_sound hframes.le)
    (everyOtherFrame_hasRoom hframes.le) (by decide) (by decide)
  obtain ⟨m', herror, -⟩ := (hexact 3 le_rfl).1 fun request hr => everyOtherFrame_offers hr
  rw [allocContiguousPhysicalPages, hrun] at herror
  cases herror

end Homegrown.Memory
