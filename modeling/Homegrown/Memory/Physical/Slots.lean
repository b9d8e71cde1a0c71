import Homegrown.Memory.Physical.Ownership

/-!
# The array of a request

A request for pages writes its chunks into an array of as many entries as pages
are requested, and shares the array with the requests it makes of larger
managers. The array is large enough because every listed region, hence every
chunk, has a page. The one operation that lists a region without pages is a
contiguous request that is stolen and is a multiple of 512 pages: the rest of the
stolen pages is freed although it is empty.
-/

namespace Homegrown.Memory

/-- Every listed region has a page, and every table a frame. -/
structure PhysicalMemory.NonEmpty (m : PhysicalMemory) : Prop where
  listed : ∀ s, ∀ r ∈ (m.manager s).memory, 0 < r.numberOfPages.toNat
  tables : ∀ s, (m.manager s).usedBasePages ≠ 0

/-- The events after which a region without pages is listed, or a table counts no
frames: a multiple of 512 pages was stolen, or the 32-bit count of a table's
frames wrapped. -/
def Event.ListsEmpty : Event → Prop
  | .stolen n => 512 ∣ n.toNat
  | .tableMoved _ used => used + 1 = 0
  | _ => False

instance (e : Event) : Decidable e.ListsEmpty :=
  match e with
  | .stolen n => inferInstanceAs (Decidable (512 ∣ n.toNat))
  | .tableMoved _ used => inferInstanceAs (Decidable (used + 1 = 0))
  | .tableFull _ | .slotWritten _ | .unalignedPromotion _ => isFalse id

namespace PhysicalMemory.NonEmpty

variable {m m' : PhysicalMemory} {s : PageSize} {depth : Nat} {n address : U64}

/-- A manager is replaced by one whose regions have pages. -/
theorem setManager {p : PhysicalMemoryManager} (h : m.NonEmpty)
    (hlisted : ∀ r ∈ p.memory, 0 < r.numberOfPages.toNat) (htable : p.usedBasePages ≠ 0) :
    (m.setManager s p).NonEmpty := by
  refine ⟨fun t => ?_, fun t => ?_⟩
  · rw [PhysicalMemory.manager_setManager_eq]
    split
    · exact hlisted
    · exact h.listed t
  · rw [PhysicalMemory.manager_setManager_eq]
    split
    · exact htable
    · exact h.tables t

/-- The journal does not matter. -/
theorem note {e : Event} (h : m.NonEmpty) : (m.note e).NonEmpty :=
  ⟨by simpa using h.listed, by simpa using h.tables⟩

/-- Nor does taking it back. -/
theorem fresh (h : m.NonEmpty) : m.fresh.NonEmpty := ⟨h.listed, h.tables⟩

/-- Taking pages leaves a region without pages out of the list. -/
theorem decrease {index : Nat} {region : PagedMemory} (h : m.NonEmpty)
    (hr : (m.manager s).memory[index]? = some region) (hn : n ≤ region.numberOfPages) :
    (m.setManager s ((m.manager s).decrease s index region n)).NonEmpty := by
  refine h.setManager ?_ ?_
  · intro r hmem
    unfold PhysicalMemoryManager.decrease at hmem
    split at hmem
    · exact h.listed s r ((swapRemove_perm hr).subset (List.mem_cons_of_mem _ hmem))
    · rename_i hne
      rcases List.mem_or_eq_of_mem_set hmem with hmem | rfl
      · exact h.listed s r hmem
      · have hlt := lt_of_le_of_ne (BitVec.le_def.mp hn) fun he =>
          hne (BitVec.eq_of_toNat_eq he.symm)
        have hsub : (region.numberOfPages - n).toNat = region.numberOfPages.toNat - n.toNat :=
          BitVec.toNat_sub_of_le hn
        change 0 < (region.numberOfPages - n).toNat
        omega
  · rw [PhysicalMemoryManager.usedBasePages_decrease]
    exact h.tables s

/-- A region with pages is listed. -/
theorem push {page : PagedMemory} (h : m.NonEmpty) (hpage : 0 < page.numberOfPages.toNat) :
    (m.setManager s ((m.manager s).push page)).NonEmpty := by
  refine h.setManager ?_ (h.tables s)
  intro r hr
  rcases List.mem_append.mp hr with hr | hr
  · exact h.listed s r hr
  · rwa [List.mem_singleton.mp hr]

/-- A table of some frames is listed. -/
theorem moveTable (h : m.NonEmpty) (hwrap : (m.manager s).usedBasePages + 1 ≠ 0) :
    (m.setManager s ((m.manager s).moveTable address)).NonEmpty := by
  refine h.setManager ?_ hwrap
  intro r hr
  rcases List.mem_append.mp hr with hr | hr
  · exact h.listed s r hr
  · rw [List.mem_singleton.mp hr]
    have hne := h.tables s
    change 0 < ((m.manager s).usedBasePages.setWidth 64).toNat
    rw [BitVec.toNat_setWidth_of_le (by norm_num)]
    exact Nat.pos_of_ne_zero fun h0 => hne (BitVec.eq_of_toNat_eq h0)

/-- Freeing regions with a page each, when the allocation of frames for a table keeps
the regions non-empty. -/
theorem freePhysicalPagesWithManager {pages : List PagedMemory}
    (ha : ∀ {m m' : PhysicalMemory} {n address : U64}, m.NonEmpty →
      allocContiguousPhysicalPagesWithManager depth n .basePage m = .ok address m' →
      (∀ e ∈ m'.journal, ¬ e.ListsEmpty) → m'.NonEmpty)
    (hm : m.NonEmpty) (hpages : ∀ page ∈ pages, 0 < page.numberOfPages.toNat)
    (h : freePhysicalPagesWithManager
      (fun k => allocContiguousPhysicalPagesWithManager depth k .basePage) s pages m = .ok () m')
    (hj : ∀ e ∈ m'.journal, ¬ e.ListsEmpty) : m'.NonEmpty := by
  induction pages generalizing m with
  | nil =>
    obtain ⟨-, rfl⟩ := pure_eq_ok.mp h
    exact hm
  | cons page pages ih =>
    obtain ⟨m₁, hroom, hrest⟩ := freePhysicalPagesWithManager_cons_eq_ok.mp h
    have hpre := (AddsToJournal.freePhysicalPagesWithManager (fun k =>
      AddsToJournal.allocContiguousPhysicalPagesWithManager depth k _) s pages).of_ok hrest
    rw [PhysicalMemory.journal_setManager] at hpre
    have hj₁ : ∀ e ∈ m₁.journal, ¬ e.ListsEmpty := fun e he => hj e (hpre.subset he)
    have hm₁ : m₁.NonEmpty := by
      rcases ensureCapacity_eq_ok.mp hroom with ⟨-, rfl⟩ | ⟨-, newBuf, m₂, halloc, rfl⟩
      · exact hm
      · simp only [PhysicalMemory.journal_setManager, PhysicalMemory.journal_note] at hj₁
        have hm₂ := ha hm.note halloc fun e he => hj₁ e (List.mem_append_left _ he)
        have hmoved : (m₂.manager s).usedBasePages + 1 ≠ 0 :=
          hj₁ (.tableMoved s (m₂.manager s).usedBasePages) (by simp)
        rw [← PhysicalMemory.manager_note m₂ s (.tableMoved s (m₂.manager s).usedBasePages)]
        exact hm₂.note.moveTable hmoved
    exact ih (hm₁.push (hpages page (List.mem_cons_self ..)))
      (fun p hp => hpages p (List.mem_cons_of_mem _ hp)) hrest

/-- The rest of a stolen region has a page, unless the request is a multiple of 512. -/
theorem remainder_pos {n : U64} (h : ¬ 512 ∣ n.toNat) :
    0 < (toSmallerPages (ceilingDivValue n 512) - n).toNat := by
  have h512 : IsTwoPow (512 : U64) 9 := rfl
  have hne : toSmallerPages (ceilingDivValue n 512) ≠ n := by
    rintro he
    apply h
    have hdvd : 512 ∣ (toSmallerPages (ceilingDivValue n 512)).toNat := by
      rw [toSmallerPages, BitVec.toNat_mul]
      exact (Nat.dvd_mod_iff (by norm_num)).mpr (Nat.dvd_mul_left _ _)
    rwa [he] at hdvd
  refine Nat.pos_of_ne_zero fun h0 => hne ?_
  bv_omega

/-- Allocating contiguous pages lists no empty region, but for the exact steal. -/
theorem allocContiguousPhysicalPagesWithManager (hm : m.NonEmpty)
    (h : allocContiguousPhysicalPagesWithManager depth n s m = .ok address m')
    (hj : ∀ e ∈ m'.journal, ¬ e.ListsEmpty) : m'.NonEmpty := by
  induction depth generalizing n s m address m' with
  | zero => simp [Memory.allocContiguousPhysicalPagesWithManager] at h
  | succ depth ih =>
    rcases allocContiguousPhysicalPagesWithManager_eq_ok.mp h with
      ⟨i, region, -, hr, hn, -, rfl⟩ | ⟨-, -, larger, m₁, -, ha, hf⟩
    · exact hm.decrease hr hn
    · have hpre := (AddsToJournal.freePhysicalPagesWithManager (fun k =>
        AddsToJournal.allocContiguousPhysicalPagesWithManager depth k _) s _).of_ok hf
      have hm₁ := ih hm ha fun e he => hj e (hpre.subset (List.mem_append_left _ he))
      have hstolen : ¬ 512 ∣ n.toNat := hj (.stolen n) (hpre.subset (by simp))
      refine hm₁.note.freePhysicalPagesWithManager ih ?_ hf hj
      simpa using remainder_pos hstolen

/-- The loop over the listed regions writes non-empty chunks, at most one for each
page that is then no longer requested. -/
theorem takeListedPages {regions chunks : List PagedMemory} {slot : Nat} {requested : U32}
    {left : Option U32} (hm : m.NonEmpty) (hlist : (m.manager s).memory.reverse = regions)
    (hpos : 0 < requested.toNat)
    (h : takeListedPages s regions slot requested m = .ok (chunks, left) m') :
    m'.NonEmpty ∧ (∀ chunk ∈ chunks, 0 < chunk.numberOfPages.toNat) ∧
      ∀ r ∈ left, 0 < r.toNat ∧ chunks.length + r.toNat ≤ requested.toNat := by
  induction regions generalizing slot requested m m' chunks left with
  | nil =>
    rw [Memory.takeListedPages, pure_eq_ok, Prod.mk.injEq] at h
    obtain ⟨⟨rfl, rfl⟩, rfl⟩ := h
    simpa using ⟨hm, hpos⟩
  | cons region rest ih =>
    rw [← m.manager_note s (.slotWritten slot)] at hlist
    obtain ⟨hat, hpop, hnext⟩ := PhysicalMemoryManager.pop_of_reverse (s := s) hlist
    have hregion : 0 < region.numberOfPages.toNat :=
      hm.note.listed s region (List.mem_of_getElem? hat)
    have hwide : (requested.setWidth 64).toNat = requested.toNat :=
      BitVec.toNat_setWidth_of_le (by norm_num)
    simp only [Memory.takeListedPages, bind_eq_ok, note_eq_ok] at h
    obtain ⟨_, _, rfl, h⟩ := h
    split at h
    · simp only [bind_eq_ok, decreasePages_eq_ok, pure_eq_ok, Prod.mk.injEq] at h
      obtain ⟨_, _, ⟨r, hr, hn, rfl⟩, ⟨rfl, rfl⟩, rfl⟩ := h
      exact ⟨hm.note.decrease hr hn, by simpa [hwide] using hpos, by simp⟩
    · rename_i hle
      rw [BitVec.not_le, BitVec.lt_def, hwide] at hle
      have hlt := requested.isLt
      have hsub : (requested - region.numberOfPages.setWidth 32).toNat =
          requested.toNat - region.numberOfPages.toNat := by
        bv_omega
      simp only [bind_eq_ok, updateManager_eq_ok, pure_eq_ok, Prod.mk.injEq] at h
      obtain ⟨_, m₂, rfl, ⟨chunks', left'⟩, m₃, hrest, ⟨rfl, rfl⟩, rfl⟩ := h
      rw [hpop] at hrest hnext
      obtain ⟨hm', hchunks, hleft⟩ := ih (hm.note.decrease hat (BitVec.le_refl _))
        (by rwa [PhysicalMemory.manager_setManager]) (by omega) hrest
      refine ⟨hm', ?_, ?_⟩
      · intro chunk hc
        rcases List.mem_cons.mp hc with rfl | hc
        · exact hregion
        · exact hchunks chunk hc
      · intro r hr
        obtain ⟨hr0, hrle⟩ := hleft r hr
        change 0 < r.toNat ∧ chunks'.length + 1 + r.toNat ≤ requested.toNat
        omega

/-- The chunks of a larger manager, read as chunks of smaller pages, have pages. -/
theorem pos_of_larger {chunks : List PagedMemory}
    (hpos : ∀ chunk ∈ chunks, 0 < chunk.numberOfPages.toNat)
    (hfits : ∀ chunk ∈ chunks, chunk.numberOfPages.toNat < 2 ^ 32) :
    ∀ page ∈ chunks.map fun page => { page with numberOfPages := page.numberOfPages * 512 },
      0 < page.numberOfPages.toNat := by
  intro page hpage
  obtain ⟨chunk, hc, rfl⟩ := List.mem_map.mp hpage
  have h0 := hpos chunk hc
  have h1 := hfits chunk hc
  change 0 < (chunk.numberOfPages * 512).toNat
  rw [BitVec.toNat_mul]
  change 0 < chunk.numberOfPages.toNat * 512 % 2 ^ 64
  omega

/-- The request made of a larger manager asks for a page, and for no more pages than
are still requested. -/
theorem larger_request {requested : U32} (h : 0 < requested.toNat) :
    0 < (ceilingDivValue ((requested.setWidth 64 : U64)) 512).toNat ∧
      (ceilingDivValue ((requested.setWidth 64 : U64)) 512).toNat ≤ requested.toNat := by
  have hlt := requested.isLt
  have hwide : (requested.setWidth 64 : U64).toNat = requested.toNat :=
    BitVec.toNat_setWidth_of_le (by norm_num)
  have hceil : (ceilingDivValue ((requested.setWidth 64 : U64)) 512).toNat =
      (requested.toNat + 511) / 512 := by
    rw [← hwide]
    exact toNat_ceilingDivValue (k := 9) rfl (by rw [hwide]; omega)
  omega

/-- Allocating pages lists no empty region and returns none. -/
theorem allocPhysicalPagesWithManager {slot : Nat} {len : U64} {chunks : List PagedMemory}
    (hm : m.NonEmpty) (hpos : 0 < len.toNat) (hlt : len.toNat < 2 ^ 32)
    (h : allocPhysicalPagesWithManager depth slot len s m = .ok chunks m')
    (hj : ∀ e ∈ m'.journal, ¬ e.ListsEmpty) :
    m'.NonEmpty ∧ ∀ chunk ∈ chunks, 0 < chunk.numberOfPages.toNat := by
  induction depth generalizing slot len m s chunks m' with
  | zero => simp [Memory.allocPhysicalPagesWithManager] at h
  | succ depth ih =>
    have hnarrow : (len.setWidth 32).toNat = len.toNat := by
      rw [BitVec.toNat_setWidth]
      exact Nat.mod_eq_of_lt hlt
    rcases allocPhysicalPagesWithManager_of_ok h with
      htake | ⟨pages, requested, larger, largerPage, added, m₁, m₂, m₃, -, rfl, htake, hlarger,
        hfree, hadded⟩
    · obtain ⟨hm', hchunks, -⟩ := hm.takeListedPages rfl (by omega) htake
      exact ⟨hm', hchunks⟩
    · have hpre₃ := (AddsToJournal.allocPhysicalPagesWithManager depth _ _ s).of_ok hadded
      have hj₃ : ∀ e ∈ m₃.journal, ¬ e.ListsEmpty := fun e he => hj e (hpre₃.subset he)
      have hpre₂ := (AddsToJournal.freePhysicalPagesWithManager (fun k =>
        AddsToJournal.allocContiguousPhysicalPagesWithManager depth k _) s _).of_ok hfree
      have hj₂ : ∀ e ∈ m₂.journal, ¬ e.ListsEmpty := fun e he => hj₃ e (hpre₂.subset he)
      obtain ⟨hm₁, hpages, hleft⟩ := hm.takeListedPages rfl (by omega) htake
      obtain ⟨hr0, -⟩ := hleft requested rfl
      obtain ⟨hl0, hl1⟩ := larger_request hr0
      have hwide : (requested.setWidth 64 : U64).toNat = requested.toNat :=
        BitVec.toNat_setWidth_of_le (by norm_num)
      have hrlt := requested.isLt
      obtain ⟨hm₂, hlargerPage⟩ := ih hm₁ hl0 (by omega) hlarger hj₂
      have hm₃ := hm₂.freePhysicalPagesWithManager allocContiguousPhysicalPagesWithManager
        (pos_of_larger hlargerPage (allocPhysicalPagesWithManager_fits hlarger)) hfree hj₃
      obtain ⟨hm', hadd⟩ := ih hm₃ (by omega) (by omega) hadded hj
      refine ⟨hm', fun chunk hc => ?_⟩
      rcases List.mem_append.mp hc with hc | hc
      · exact hpages chunk hc
      · exact hadd chunk hc

end PhysicalMemory.NonEmpty

/-! ## The entries that are written -/

/-- Between two states, only entries below the bound were written. -/
def WritesBelow (bound : Nat) (m m' : PhysicalMemory) : Prop :=
  ∀ k, .slotWritten k ∈ m'.journal → .slotWritten k ∈ m.journal ∨ k < bound

section Slots

variable {m m' m'' : PhysicalMemory} {s : PageSize} {depth bound slot : Nat}

/-- Nothing is written. -/
theorem WritesBelow.refl : WritesBelow bound m m := fun _ hk => .inl hk

/-- What two steps write. -/
theorem WritesBelow.trans (h : WritesBelow bound m m') (h' : WritesBelow bound m' m'') :
    WritesBelow bound m m'' := by
  intro k hk
  rcases h' k hk with hk | hk
  · exact h k hk
  · exact .inr hk

/-- A larger bound. -/
theorem WritesBelow.mono {bound' : Nat} (h : WritesBelow bound m m') (hle : bound ≤ bound') :
    WritesBelow bound' m m' := fun k hk => (h k hk).imp_right fun hlt => hlt.trans_le hle

/-- Only the journal matters. -/
theorem WritesBelow.of_journal_eq (h : m'.journal = m.journal) : WritesBelow bound m m' :=
  fun _ hk => .inl (h ▸ hk)

/-- A sequence writes below the bound when its parts do. -/
theorem writesBelow_bind {α β : Type} {x : Kernel α} {f : α → Kernel β}
    (hx : WritesBelow bound m (final (x m)))
    (hf : ∀ a m', x m = .ok a m' → WritesBelow bound m' (final (f a m'))) :
    WritesBelow bound m (final ((x >>= f) m)) := by
  cases h : x m with
  | ok a m' =>
    rw [bind_of_ok h]
    rw [h] at hx
    exact hx.trans (hf a m' h)
  | error e m' =>
    rw [bind_of_error h]
    rwa [h] at hx

/-- A decrease writes no entry. -/
theorem writesBelow_decreasePages {index : Nat} {n : U64} :
    WritesBelow bound m (final (decreasePages s index n m)) := by
  refine writesBelow_bind .refl fun p m' hp => ?_
  obtain ⟨rfl, rfl⟩ := getMemoryManager_eq_ok.mp hp
  cases (m.manager s).memory[index]? with
  | none => exact .refl
  | some region =>
    refine writesBelow_bind ?_ fun _ _ _ =>
      .of_journal_eq (PhysicalMemory.journal_setManager _ _ _)
    unfold assert
    split <;> exact .refl

/-- Freeing writes no entry. -/
theorem writesBelow_free (pages : List PagedMemory) :
    WritesBelow bound m (final (freePhysicalPagesWithManager
      (fun k => allocContiguousPhysicalPagesWithManager depth k .basePage) s pages m)) := by
  have hlimit : 2 ^ 32 ≤ (Scope.mk (2 ^ 32) (fun _ => False) False).limit := le_rfl
  have ha : ConductsContiguous ⟨2 ^ 32, fun _ => False, False⟩ depth :=
    conducts_allocContiguousPhysicalPages hlimit
  obtain ⟨left, hmoves⟩ := (conducts_freePhysicalPages (m := m) (s := s) hlimit ha pages).final
  exact fun _ hk => .inl ((Moves.within hmoves _ hk).resolve_right id)

/-- The loop over the listed regions writes no more entries than pages are requested,
as each region has a page. -/
theorem writesBelow_takeListedPages {regions : List PagedMemory} {requested : U32}
    (hregions : ∀ r ∈ regions, 0 < r.numberOfPages.toNat) (hpos : 0 < requested.toNat) :
    WritesBelow (slot + requested.toNat) m
      (final (takeListedPages s regions slot requested m)) := by
  induction regions generalizing m slot requested with
  | nil => exact .refl
  | cons region rest ih =>
    have hwide : (requested.setWidth 64).toNat = requested.toNat :=
      BitVec.toNat_setWidth_of_le (by norm_num)
    rw [takeListedPages]
    refine writesBelow_bind ?_ fun _ m₁ _ => ?_
    · intro k hk
      rcases List.mem_append.mp hk with hk | hk
      · exact .inl hk
      · injection List.mem_singleton.mp hk with hk
        exact .inr (by omega)
    · split
      · exact writesBelow_bind writesBelow_decreasePages fun _ _ _ => .refl
      · rename_i hle
        rw [BitVec.not_le, BitVec.lt_def, hwide] at hle
        have hlt := requested.isLt
        have hregion := hregions region (List.mem_cons_self ..)
        have hsub : (requested - region.numberOfPages.setWidth 32).toNat =
            requested.toNat - region.numberOfPages.toNat := by
          bv_omega
        refine writesBelow_bind (.of_journal_eq (PhysicalMemory.journal_setManager _ _ _))
          fun _ m₂ _ => writesBelow_bind ?_ fun _ _ _ => .refl
        refine (ih (fun r hr => hregions r (List.mem_cons_of_mem _ hr)) ?_).mono ?_
        · omega
        · omega

/-- Nothing noted in the state lists a region without pages. -/
def PhysicalMemory.ListsNoEmpty (m : PhysicalMemory) : Prop := ∀ e ∈ m.journal, ¬ e.ListsEmpty

/-- A sequence that lists no empty region writes below the bound when its parts do. -/
theorem writesBelow_bind_of_listsNoEmpty {α β : Type} {x : Kernel α} {f : α → Kernel β}
    (hadd : ∀ a, AddsToJournal (f a)) (hj : (final ((x >>= f) m)).ListsNoEmpty)
    (hx : (final (x m)).ListsNoEmpty → WritesBelow bound m (final (x m)))
    (hf : ∀ a m', x m = .ok a m' → m'.ListsNoEmpty → (final (f a m')).ListsNoEmpty →
      WritesBelow bound m' (final (f a m'))) :
    WritesBelow bound m (final ((x >>= f) m)) := by
  cases h : x m with
  | ok a m' =>
    rw [bind_of_ok h] at hj ⊢
    rw [h] at hx
    have hm' : m'.ListsNoEmpty := fun e he => hj e ((hadd a m').subset he)
    exact (hx hm').trans (hf a m' h hm' hj)
  | error e m' =>
    rw [bind_of_error h] at hj ⊢
    rw [h] at hx
    exact hx hj

/-- A request writes no more entries than it has, at any depth of its recursion. -/
theorem writesBelow_allocPhysicalPagesWithManager {len : U64} (hm : m.NonEmpty)
    (hpos : 0 < len.toNat) (hlt : len.toNat < 2 ^ 32)
    (hj : (final (allocPhysicalPagesWithManager depth slot len s m)).ListsNoEmpty) :
    WritesBelow (slot + len.toNat) m
      (final (allocPhysicalPagesWithManager depth slot len s m)) := by
  induction depth generalizing slot len m s with
  | zero => exact .refl
  | succ depth ih =>
    have hnarrow : (len.setWidth 32).toNat = len.toNat := by
      rw [BitVec.toNat_setWidth]
      exact Nat.mod_eq_of_lt hlt
    have hregions : ∀ r ∈ (m.manager s).memory.reverse, 0 < r.numberOfPages.toNat := fun r hr =>
      hm.listed s r (List.mem_reverse.mp hr)
    have htakes : WritesBelow (slot + (len.setWidth 32).toNat) m (final
        (takeListedPages s (m.manager s).memory.reverse slot (len.setWidth 32) m)) :=
      writesBelow_takeListedPages hregions (by omega)
    rw [hnarrow] at htakes
    have hfrees := AddsToJournal.freePhysicalPagesWithManager (fun k =>
      AddsToJournal.allocContiguousPhysicalPagesWithManager depth k .basePage) s
    have hallocs := AddsToJournal.allocPhysicalPagesWithManager depth
    revert hj
    rw [allocPhysicalPagesWithManager, bind_of_ok (getMemoryManager_eq_ok.mpr ⟨rfl, rfl⟩)]
    cases htake : takeListedPages s (m.manager s).memory.reverse slot (len.setWidth 32) m with
    | error e m₁ =>
      rw [bind_of_error htake]
      rw [htake] at htakes
      exact fun _ => htakes
    | ok r m₁ =>
      obtain ⟨pages, left⟩ := r
      rw [bind_of_ok htake]
      rw [htake] at htakes
      obtain ⟨hm₁, -, hleft⟩ := hm.takeListedPages rfl (by omega) htake
      cases left with
      | none => exact fun _ => htakes
      | some requested =>
        cases hl : s.larger? with
        | none => exact fun _ => htakes
        | some larger =>
          intro hj
          obtain ⟨hr0, hrle⟩ := hleft requested rfl
          obtain ⟨hl0, hl1⟩ := PhysicalMemory.NonEmpty.larger_request hr0
          have hwide : (requested.setWidth 64 : U64).toNat = requested.toNat :=
            BitVec.toNat_setWidth_of_le (by norm_num)
          have hrlt := requested.isLt
          -- The request to the larger manager writes from the first free entry on.
          refine htakes.trans (writesBelow_bind_of_listsNoEmpty (fun _ => (hfrees _).bind fun _ =>
            (hallocs _ _ _).bind fun _ => .pure _) hj ?_ ?_)
          · exact fun hj => (ih hm₁ hl0 (by omega) hj).mono (by omega)
          · intro largerPage m₂ hlarger hj₂ hj
            obtain ⟨hm₂, hpages⟩ :=
              hm₁.allocPhysicalPagesWithManager hl0 (by omega) hlarger hj₂
            refine writesBelow_bind_of_listsNoEmpty (fun _ => (hallocs _ _ _).bind fun _ => .pure _)
              hj (fun _ => writesBelow_free _) ?_
            intro _ m₃ hfree hj₃ hj
            have hm₃ := hm₂.freePhysicalPagesWithManager
              PhysicalMemory.NonEmpty.allocContiguousPhysicalPagesWithManager
              (PhysicalMemory.NonEmpty.pos_of_larger hpages
                (allocPhysicalPagesWithManager_fits hlarger)) hfree hj₃
            -- So does the request for what was stolen.
            refine writesBelow_bind_of_listsNoEmpty (fun _ => .pure _) hj ?_ fun _ _ _ _ _ => .refl
            exact fun hj => (ih hm₃ (by omega) (by omega) hj).mono (by omega)

end Slots

/-! ## Runs of calls -/

/-- A call that returns, for positive numbers of pages, with the events of the call. -/
inductive PositiveCall : PhysicalMemory → List Event → PhysicalMemory → Prop where
  | allocContiguous {m m' : PhysicalMemory} {depth : Nat} {n : U64} {s : PageSize} {address : U64}
      (pos : 0 < n.toNat)
      (returns : allocContiguousPhysicalPages depth n s m.fresh = .ok address m') :
      PositiveCall m m'.journal m'
  | allocPages {m m' : PhysicalMemory} {depth : Nat} {len : U64} {s : PageSize}
      {pages : List PagedMemory} (pos : 0 < len.toNat) (lt : len.toNat < 2 ^ 32)
      (returns : allocPhysicalPages depth len s m.fresh = .ok pages m') :
      PositiveCall m m'.journal m'
  | freePages {m m' : PhysicalMemory} {depth : Nat} {s : PageSize} {pages : List PagedMemory}
      (pos : ∀ page ∈ pages, 0 < page.numberOfPages.toNat)
      (returns : freePhysicalPages depth pages s m.fresh = .ok () m') :
      PositiveCall m m'.journal m'
  | freePage {m m' : PhysicalMemory} {depth : Nat} {s : PageSize} {page : PagedMemory}
      (pos : 0 < page.numberOfPages.toNat)
      (returns : freePhysicalPage depth page s m.fresh = .ok () m') :
      PositiveCall m m'.journal m'

/-- A sequence of calls that all return, with all their events. -/
inductive PositiveRun : PhysicalMemory → List Event → PhysicalMemory → Prop where
  | nil (m : PhysicalMemory) : PositiveRun m [] m
  | snoc {m m' m'' : PhysicalMemory} {events added : List Event} (run : PositiveRun m events m')
      (call : PositiveCall m' added m'') : PositiveRun m (events ++ added) m''

/-- Every request that the state can get, of up to 2^32 - 1 pages, writes only entries of
its array, provided it lists no region without pages itself. It need not return. -/
def PhysicalMemory.RequestsFit (m : PhysicalMemory) : Prop :=
  ∀ (depth : Nat) (len : U64) (s : PageSize), 0 < len.toNat → len.toNat < 2 ^ 32 →
    (final (allocPhysicalPages depth len s m.fresh)).ListsNoEmpty →
    ∀ k, .slotWritten k ∈ (final (allocPhysicalPages depth len s m.fresh)).journal → k < len.toNat

section Run

variable {m m' : PhysicalMemory} {events : List Event}

/-- Where all regions have pages, requests fit their arrays. -/
theorem PhysicalMemory.NonEmpty.requestsFit (h : m.NonEmpty) : m.RequestsFit := by
  intro depth len s hpos hlt hj k hk
  have hwrites := writesBelow_allocPhysicalPagesWithManager h.fresh hpos hlt hj k hk
  rw [Nat.zero_add] at hwrites
  exact hwrites.resolve_left (by simp [PhysicalMemory.fresh])

/-- One call keeps every listed region non-empty, unless it notes otherwise. -/
theorem PositiveCall.nonEmpty (h : PositiveCall m events m') (hm : m.NonEmpty)
    (hj : ∀ e ∈ events, ¬ e.ListsEmpty) : m'.NonEmpty := by
  cases h with
  | allocContiguous pos returns =>
    exact hm.fresh.allocContiguousPhysicalPagesWithManager returns hj
  | allocPages pos lt returns =>
    exact (hm.fresh.allocPhysicalPagesWithManager pos lt returns hj).1
  | freePages pos returns =>
    exact hm.fresh.freePhysicalPagesWithManager
      PhysicalMemory.NonEmpty.allocContiguousPhysicalPagesWithManager pos returns hj
  | freePage pos returns =>
    exact hm.fresh.freePhysicalPagesWithManager
      PhysicalMemory.NonEmpty.allocContiguousPhysicalPagesWithManager (by simpa using pos)
      returns hj

/-- Over any sequence of calls that return, from a state in which every listed region
has a page, every listed region has a page and every request fits in its array, as
long as no multiple of 512 pages is stolen. -/
theorem requests_fit_run (h : PositiveRun m events m') (hm : m.NonEmpty)
    (hj : ∀ e ∈ events, ¬ e.ListsEmpty) : m'.NonEmpty ∧ m'.RequestsFit := by
  have hm' : m'.NonEmpty := by
    induction h with
    | nil => exact hm
    | snoc run call ih =>
      have hmid := ih fun e he => hj e (List.mem_append_left _ he)
      exact call.nonEmpty hmid fun e he => hj e (List.mem_append_right _ he)
  exact ⟨hm', hm'.requestsFit⟩

/-- Five frames are requested from a manager that lists three. -/
theorem requests_fit_run_steal :
    let m' : PhysicalMemory := ⟨⟨0x1000, [⟨0x202000, 510⟩], 256, 1⟩,
      ⟨0x5000, [⟨0x400000, 1⟩], 256, 1⟩, ⟨0x40000000, [], 256, 1⟩,
      [.slotWritten 0, .slotWritten 1, .slotWritten 1]⟩
    m'.NonEmpty ∧ m'.RequestsFit := by
  intro m'
  have hcall : allocPhysicalPages 2 5 .basePage (PhysicalMemory.fresh
      ⟨⟨0x1000, [⟨0x2000, 3⟩], 256, 1⟩, ⟨0x5000, [⟨0x200000, 2⟩], 256, 1⟩,
        ⟨0x40000000, [], 256, 1⟩, []⟩) = .ok [⟨0x2000, 3⟩, ⟨0x200000, 2⟩] m' := by
    decide +kernel
  refine requests_fit_run (.snoc (.nil _) (.allocPages (by decide) (by decide) hcall)) ?_ ?_
  · refine ⟨fun s => ?_, fun s => ?_⟩ <;> cases s <;> decide
  · decide

/-- After 512 frames were stolen as one 2 MiB page, a request for one frame writes a
second entry. -/
theorem requests_overflow :
    ¬ ∀ (m m' : PhysicalMemory) (events : List Event), m.NonEmpty → PositiveRun m events m' →
      m'.NonEmpty ∧ m'.RequestsFit := by
  intro h
  have hcall : allocContiguousPhysicalPages 2 512 .basePage (PhysicalMemory.fresh
      ⟨⟨0x1000, [], 256, 1⟩, ⟨0x5000, [⟨0x200000, 2⟩], 256, 1⟩, ⟨0x40000000, [], 256, 1⟩, []⟩) =
      .ok 0x200000 ⟨⟨0x1000, [⟨0x400000, 0⟩], 256, 1⟩, ⟨0x5000, [⟨0x400000, 1⟩], 256, 1⟩,
        ⟨0x40000000, [], 256, 1⟩, [.stolen 512]⟩ := by
    decide +kernel
  have hfit := (h _ _ _ ⟨fun s => by cases s <;> decide, fun s => by cases s <;> decide⟩
    (.snoc (.nil _) (.allocContiguous (by decide) hcall))).2
  have hover := hfit 2 1 .basePage (by decide) (by decide) (by
    unfold PhysicalMemory.ListsNoEmpty
    decide +kernel) 1 (by decide +kernel)
  revert hover
  decide

end Run

end Homegrown.Memory
