import Mathlib.Order.CompletePartialOrder
import Homegrown.Memory.Virtual.Frame
import Homegrown.OsLoader.EfiMain

/-!
# What the loader has placed

Boot services give away pages that nobody has. The loader takes some of them for its page tables
and others for what the kernel finds in memory: the tables hold what was mapped so far, and no
write to them reaches the others (`Placed`). Every step of `efi_main` keeps this.
-/

namespace Homegrown.OsLoader

open Memory Radix

/-! ## Frames and boot services -/

/-- The frames of a number of pages. -/
def framesOf (address : U64) (pages : Nat) : Set U64 :=
  {x | pageFrameSize ∣ x.toNat ∧ x.toNat ∈ Span.mk address.toNat (pages * pageFrameSize)}

/-- The words of the frames are the same. -/
def SameIn (frames : Set U64) (words words' : U64 → U64) : Prop :=
  ∀ x ∈ frames, ∀ a : U64, a.toNat ∈ Span.mk x.toNat pageFrameSize → words' a = words a

section Frames

variable {address a x y : U64} {pages : Nat} {frames frames' : Set U64}
  {words words' words'' : U64 → U64}

theorem SameIn.refl : SameIn frames words words := fun _ _ _ _ => rfl

theorem SameIn.trans (h : SameIn frames words words') (h' : SameIn frames words' words'') :
    SameIn frames words words'' := fun x hx a ha => (h' x hx a ha).trans (h x hx a ha)

theorem SameIn.mono (h : SameIn frames words words') (hsub : frames' ⊆ frames) :
    SameIn frames' words words' := fun x hx => h x (hsub hx)

/-- Frames that share an address are one frame. -/
theorem eq_of_mem_frames (hx : pageFrameSize ∣ x.toNat) (hy : pageFrameSize ∣ y.toNat) {n : Nat}
    (hmem : n ∈ Span.mk x.toNat pageFrameSize) (hmem' : n ∈ Span.mk y.toNat pageFrameSize) :
    x = y := by
  obtain ⟨i, hi⟩ := hx
  obtain ⟨j, hj⟩ := hy
  rw [Span.mem_mk, pageFrameSize] at hmem hmem'
  rw [pageFrameSize] at hi hj
  apply BitVec.eq_of_toNat_eq
  omega

/-- Every address of the pages lies in one of their frames. -/
theorem exists_mem_framesOf (haligned : pageFrameSize ∣ address.toNat)
    (ha : a.toNat ∈ Span.mk address.toNat (pages * pageFrameSize)) :
    ∃ x ∈ framesOf address pages, a.toNat ∈ Span.mk x.toNat pageFrameSize := by
  obtain ⟨i, hi⟩ := haligned
  have hlt := a.isLt
  have hx : (BitVec.ofNat 64 (a.toNat / pageFrameSize * pageFrameSize)).toNat =
      a.toNat / pageFrameSize * pageFrameSize :=
    Nat.mod_eq_of_lt ((Nat.div_mul_le_self _ _).trans_lt hlt)
  rw [Span.mem_mk] at ha
  rw [pageFrameSize] at hi ha hx
  refine ⟨BitVec.ofNat 64 (a.toNat / 4096 * 4096), ⟨?_, ?_⟩, ?_⟩
  · rw [hx]
    exact Nat.dvd_mul_left _ _
  · rw [Span.mem_mk, pageFrameSize, hx]
    omega
  · rw [Span.mem_mk, pageFrameSize, hx]
    omega

end Frames

/-- Boot services give away pages, below the half of the addresses, that are not taken. Page 0 is
none of them. -/
structure HandsOutPages {σ : Type} (boot : BootServices σ) (taken : σ → Set U64) : Prop where
  aligned : ∀ {pages t address t'}, boot.allocatePages pages t = some (address, t') →
    pageFrameSize ∣ address.toNat
  ne_zero : ∀ {pages t address t'}, boot.allocatePages pages t = some (address, t') → address ≠ 0
  low : ∀ {pages t address t'}, boot.allocatePages pages t = some (address, t') →
    address.toNat + pages.toNat * pageFrameSize ≤ 2 ^ 47
  untaken : ∀ {pages t address t'}, boot.allocatePages pages t = some (address, t') →
    Disjoint (framesOf address pages.toNat) (taken t)
  takes : ∀ {pages t address t'}, boot.allocatePages pages t = some (address, t') →
    framesOf address pages.toNat ∪ taken t ⊆ taken t'

/-- What is taken stays taken. -/
def Grows {σ α : Type} (taken : σ → Set U64) (x : Loader σ α) : Prop :=
  ∀ t a t', x t = .ok a t' → taken t ⊆ taken t'

section Grows

variable {σ α β : Type} {taken : σ → Set U64} {boot : BootServices σ} {x : Loader σ α}
  {f : α → Loader σ β}

theorem grows_pure (a : α) : Grows taken (pure a : Loader σ α) := by
  intro t b t' h
  obtain ⟨-, rfl⟩ := pure_eq_ok.mp h
  exact subset_rfl

theorem grows_throw (stop : Stop) : Grows taken (throw stop : Loader σ α) := by
  intro t b t' h
  exact (throw_eq_ok.mp h).elim

theorem Grows.bind (h : Grows taken x) (hf : ∀ a, Grows taken (f a)) : Grows taken (x >>= f) := by
  intro t b t' hrun
  obtain ⟨a, u, hx, hrest⟩ := bind_eq_ok.mp hrun
  exact (h t a u hx).trans (hf a u b t' hrest)

theorem grows_orExit (o : Option α) (message : String) :
    Grows taken (orExit o message : Loader σ α) := by
  cases o with
  | some a => exact grows_pure a
  | none => exact grows_throw _

theorem HandsOutPages.grows_allocate (h : HandsOutPages boot taken) (pages : U64)
    (message : String) : Grows taken (boot.allocate pages message) := fun _ _ _ hrun =>
  Set.subset_union_right.trans (h.takes (BootServices.allocate_eq_ok.mp hrun))

end Grows

/-! ## The invariant -/

/-- The page tables hold the pages of the calls, and apart from them are the frames that are
kept. Both were given away by boot services. -/
structure Placed {σ : Type} (taken : σ → Set U64) (calls : List MapCall) (kept : Set U64)
    (s : Paging σ) : Prop where
  tree : ∃ r, Directory s.words s.level4PageTable r ∧ r.Pruned ∧ r.tables ⊆ taken s.allocator ∧
    Disjoint r.tables kept ∧ ∀ p e, r.leaf p = some e ↔ Leaves calls p e
  kept_taken : kept ⊆ taken s.allocator
  whole : ∀ x ∈ kept, pageFrameSize ∣ x.toNat
  valid : ∀ c ∈ calls, c.Valid
  root_ne_zero : s.level4PageTable ≠ 0

section Placed

variable {σ : Type} {taken : σ → Set U64} {boot : BootServices σ} {calls : List MapCall}
  {kept : Set U64} {s s' : Paging σ} {c : MapCall} {u : Unit}

/-- Frames for page tables are not among those that are kept. -/
theorem HandsOutPages.handsOutFrames (h : HandsOutPages boot taken) (kept : Set U64) :
    HandsOutFrames boot.allocate4KiBPage
      (fun t T => T ⊆ taken t ∧ Disjoint T kept ∧ kept ⊆ taken t) fun _ => True := by
  refine ⟨?_, fun _ _ => trivial⟩
  rintro t t' T page ⟨htables, hdisjoint, hkept⟩ hrun -
  simp only [BootServices.allocate4KiBPage] at hrun
  split at hrun
  · rename_i address u hsome
    simp only [EStateM.Result.ok.injEq] at hrun
    obtain ⟨rfl, rfl⟩ := hrun
    have hmem : address ∈ framesOf address (1 : U64).toNat :=
      ⟨h.aligned hsome, by simp [pageFrameSize]⟩
    have hnew := Set.disjoint_left.mp (h.untaken hsome) hmem
    have htakes := h.takes hsome
    have htaken : taken t ⊆ taken u := Set.subset_union_right.trans htakes
    refine ⟨h.aligned hsome, fun hin => hnew (htables hin), ?_, ?_, hkept.trans htaken⟩
    · exact Set.insert_subset (htakes (.inl hmem)) (htables.trans htaken)
    · exact Set.disjoint_insert_left.mpr ⟨fun hin => hnew (hkept hin), hdisjoint⟩
  · cases hrun

/-- Boot services that take more change nothing. -/
theorem Placed.services (h : Placed taken calls kept s) {t' : σ}
    (hgrows : taken s.allocator ⊆ taken t') :
    Placed taken calls kept { s with allocator := t' } := by
  obtain ⟨r, hdirectory, hpruned, htables, hdisjoint, hleaves⟩ := h.tree
  exact ⟨⟨r, hdirectory, hpruned, htables.trans hgrows, hdisjoint, hleaves⟩,
    h.kept_taken.trans hgrows, h.whole, h.valid, h.root_ne_zero⟩

/-- Words may change in frames that were not taken, which then are kept. -/
theorem Placed.keep (h : Placed taken calls kept s) {frames : Set U64} {words : U64 → U64} {t' : σ}
    (hwhole : ∀ x ∈ frames, pageFrameSize ∣ x.toNat)
    (hnew : Disjoint frames (taken s.allocator)) (htakes : frames ∪ taken s.allocator ⊆ taken t')
    (hsame : ∀ a : U64, (∀ x ∈ frames, a.toNat ∉ Span.mk x.toNat pageFrameSize) →
      words a = s.words a) :
    Placed taken calls (kept ∪ frames) { s with words, allocator := t' } ∧
      SameIn kept s.words words := by
  obtain ⟨r, hdirectory, hpruned, htables, hdisjoint, hleaves⟩ := h.tree
  have hgrows : taken s.allocator ⊆ taken t' := Set.subset_union_right.trans htakes
  have houtside {x : U64} (hx : x ∈ taken s.allocator) (haligned : pageFrameSize ∣ x.toNat)
      {a : U64}
      (ha : a.toNat ∈ Span.mk x.toNat pageFrameSize) : words a = s.words a := by
    refine hsame a fun y hy hin => Set.disjoint_left.mp hnew hy ?_
    rwa [eq_of_mem_frames (hwhole y hy) haligned hin ha]
  have hdirectory' : Directory words s.level4PageTable r := by
    refine hdirectory.congr_words fun table htable i => ?_
    obtain ⟨p, hp⟩ := htable
    refine houtside (htables ⟨p, hp⟩) (hdirectory.aligned hp) ?_
    exact (entryAddress_mem_frame (hdirectory.aligned hp) (hdirectory.aligned hp)).mpr rfl
  refine ⟨⟨⟨r, hdirectory', hpruned, htables.trans hgrows, ?_, hleaves⟩, ?_, ?_, h.valid,
    h.root_ne_zero⟩, ?_⟩
  · exact Set.disjoint_union_right.mpr ⟨hdisjoint, (hnew.mono_right htables).symm⟩
  · exact Set.union_subset (h.kept_taken.trans hgrows) (Set.subset_union_left.trans htakes)
  · rintro x (hx | hx)
    · exact h.whole x hx
    · exact hwhole x hx
  · exact fun x hx a ha => houtside (h.kept_taken hx) (h.whole x hx) ha

/-- A call adds its pages, and writes to no frame that is kept. -/
theorem Placed.run (h : Placed taken calls kept s) (hboot : HandsOutPages boot taken)
    (hc : c.Valid) (hapart : ∀ d ∈ calls, d.span.Disjoint c.span)
    (hrun : c.run boot.allocate4KiBPage s = .ok u s') :
    Placed taken (calls ++ [c]) kept s' ∧ SameIn kept s.words s'.words := by
  obtain ⟨r, hdirectory, hpruned, htables, hdisjoint, hleaves⟩ := h.tree
  have hmapped : Mapped (fun t T => T ⊆ taken t ∧ Disjoint T kept ∧ kept ⊆ taken t) s r :=
    ⟨hdirectory, htables, hdisjoint, h.kept_taken⟩
  obtain ⟨r', hgrown, hpruned', hmapped', hroot, hsame⟩ :=
    hmapped.run (hboot.handsOutFrames kept) hc
    hpruned (fun j hj p hp => by
      obtain ⟨e, he⟩ := Option.isSome_iff_exists.mp hp
      obtain ⟨d, hd, i, -, hi, rfl, -⟩ := (hleaves p e).mp he
      exact (h.valid d hd).apart hc hi hj fun a ha ha' =>
        hapart d hd a (MapCall.pageSpan_subset hi ha) (MapCall.pageSpan_subset hj ha')) hrun trivial
  obtain ⟨hdirectory', htables', hdisjoint', hkept'⟩ := hmapped'
  refine ⟨⟨⟨r', hdirectory', hpruned', htables', hdisjoint', fun p e => ?_⟩, hkept', h.whole, ?_,
    hroot ▸ h.root_ne_zero⟩, ?_⟩
  · rw [hgrown.leaf_iff, hleaves]
    simp only [Leaves, List.mem_append, List.mem_singleton, or_and_right, exists_or,
      exists_eq_left]
  · rw [List.forall_mem_append, List.forall_mem_singleton]
    exact ⟨h.valid, hc⟩
  · intro x hx a ha
    refine hsame a fun table htable hin => ?_
    obtain ⟨p, hp⟩ := htable
    have heq := eq_of_mem_frames (hdirectory'.aligned hp) (h.whole x hx) (Span.mem_mk.mpr hin) ha
    exact Set.disjoint_left.mp hdisjoint' ⟨p, hp⟩ (heq ▸ hx)

end Placed

end Homegrown.OsLoader
