import Homegrown.Core.Span
import Homegrown.Memory.Physical.Custody

/-!
# Ownership of physical memory

The regions the managers list, the frames of their tables and the regions in hand
partition the usable memory, and every region starts at a multiple of its page
size. All moves of the managers keep this but one: when the table of the 2 MiB or
of the 1 GiB manager is moved, the frames of the old table are listed as if they
were as many pages of the larger size.
-/

namespace Homegrown.Memory

/-! ## The spans of a custody -/

/-- The addresses of a region of pages of the size. -/
def PagedMemory.span (s : PageSize) (r : PagedMemory) : Span :=
  ⟨r.pageStart.toNat, r.numberOfPages.toNat * s.bytes⟩

/-- The addresses of a region in hand. -/
def Holding.span (h : Holding) : Span := h.memory.span h.pageSize

/-- The frames of the manager's table. -/
def PhysicalMemoryManager.table (p : PhysicalMemoryManager) : Span :=
  ⟨p.buf.toNat, p.usedBasePages.toNat * pageFrameSize⟩

/-- The table of a manager and the regions it lists. -/
def PhysicalMemoryManager.spans (s : PageSize) (p : PhysicalMemoryManager) : List Span :=
  p.table :: p.memory.map (PagedMemory.span s)

/-- The tables and the listed regions of all managers. -/
def PhysicalMemory.spans (m : PhysicalMemory) : List Span :=
  m.basePMM.spans .basePage ++ m.largePMM.spans .largePage ++ m.hugePMM.spans .hugePage

/-- The tables, the listed regions and the regions in hand. -/
def Custody.spans (c : Custody) : List Span := c.1.spans ++ c.2.map Holding.span

/-- A note leaves the spans. -/
@[simp] theorem PhysicalMemory.spans_note (m : PhysicalMemory) (e : Event) :
    (m.note e).spans = m.spans := rfl

/-- The spans are those of the managers. -/
theorem PhysicalMemory.mem_spans_iff {m : PhysicalMemory} {x : Span} :
    x ∈ m.spans ↔ ∃ s, x ∈ (m.manager s).spans s := by
  simp only [PhysicalMemory.spans, List.mem_append]
  constructor
  · rintro ((h | h) | h)
    · exact ⟨.basePage, h⟩
    · exact ⟨.largePage, h⟩
    · exact ⟨.hugePage, h⟩
  · rintro ⟨s, h⟩
    cases s with
    | basePage => exact .inl (.inl h)
    | largePage => exact .inl (.inr h)
    | hugePage => exact .inr h

/-- Replacing a manager exchanges its spans. -/
theorem PhysicalMemory.count_setManager (m : PhysicalMemory) (s : PageSize)
    (p : PhysicalMemoryManager) (a : Nat) :
    Span.count (m.setManager s p).spans a + Span.count ((m.manager s).spans s) a =
      Span.count m.spans a + Span.count (p.spans s) a := by
  cases s <;> simp only [PhysicalMemory.spans, PhysicalMemory.setManager, PhysicalMemory.manager,
    Span.count_append] <;> omega

/-! ## Cutting and rereading regions -/

section Region

variable {s larger : PageSize} {r : PagedMemory} {n : U64}

/-- A region ends within the 64-bit address space. -/
def PagedMemory.Bounded (s : PageSize) (r : PagedMemory) : Prop := (r.span s).stop ≤ 2 ^ 64

/-- When a region ends within the address space. -/
theorem PagedMemory.bounded_iff :
    r.Bounded s ↔
      r.pageStart.toNat + r.numberOfPages.toNat * s.bytes ≤ 2 ^ 64 := Iff.rfl

/-- The address of a later page of a region, unless the region ends there. -/
theorem PagedMemory.toNat_page (hb : r.Bounded s) (hn : n.toNat < r.numberOfPages.toNat) :
    (r.pageStart + n * s.value).toNat = r.pageStart.toNat + n.toNat * s.bytes := by
  have hlt : n.toNat * s.bytes < r.numberOfPages.toNat * s.bytes :=
    Nat.mul_lt_mul_of_pos_right hn s.bytes_pos
  rw [PagedMemory.bounded_iff] at hb
  rw [BitVec.toNat_add, BitVec.toNat_mul, PageSize.toNat_value, Nat.add_mod_mod,
    Nat.mod_eq_of_lt (by omega)]

/-- A region covers what its first pages and its other pages cover. -/
theorem PagedMemory.count_split (hb : r.Bounded s) (hn : n ≤ r.numberOfPages) (a : Nat) :
    Span.count [r.span s] a = Span.count [PagedMemory.span s ⟨r.pageStart, n⟩] a +
      Span.count [PagedMemory.span s
        ⟨r.pageStart + n * s.value, r.numberOfPages - n⟩] a := by
  have hle : n.toNat ≤ r.numberOfPages.toNat := hn
  have hsub : (r.numberOfPages - n).toNat = r.numberOfPages.toNat - n.toNat :=
    BitVec.toNat_sub_of_le hn
  have hsum : r.numberOfPages.toNat * s.bytes =
      n.toNat * s.bytes + (r.numberOfPages.toNat - n.toNat) * s.bytes := by
    rw [← Nat.add_mul, Nat.add_sub_cancel' hle]
  simp only [PagedMemory.span, hsub, hsum]
  rcases hle.eq_or_lt with heq | hlt
  · rw [heq, Nat.sub_self, Nat.zero_mul, Span.count_empty, Nat.add_zero, Nat.add_zero]
  · rw [PagedMemory.toNat_page hb hlt, Span.count_split]

/-- A later page of an aligned region is aligned. -/
theorem PagedMemory.dvd_page (h : s.bytes ∣ r.pageStart.toNat) :
    s.bytes ∣ (r.pageStart + n * s.value).toNat := by
  have hword : s.bytes ∣ 2 ^ 64 := by
    cases s <;> decide
  rw [BitVec.toNat_add, BitVec.toNat_mul, PageSize.toNat_value, Nat.add_mod_mod]
  exact (Nat.dvd_mod_iff hword).mpr (Nat.dvd_add h (Nat.dvd_mul_left _ _))

/-- Larger pages are made of whole smaller ones. -/
theorem PageSize.bytes_dvd_larger (hl : s.larger? = some larger) : s.bytes ∣ larger.bytes :=
  ⟨512, by rw [PageSize.larger?_bytes hl, Nat.mul_comm]⟩

/-- A region of larger pages covers what it covers as a region of smaller pages. -/
theorem PagedMemory.span_smaller (hl : s.larger? = some larger)
    (hn : r.numberOfPages.toNat * 512 < 2 ^ 64) :
    PagedMemory.span s ⟨r.pageStart, r.numberOfPages * 512⟩ = r.span larger := by
  have hmul : (r.numberOfPages * 512).toNat = r.numberOfPages.toNat * 512 := by
    rw [BitVec.toNat_mul]
    exact Nat.mod_eq_of_lt hn
  rw [PagedMemory.span, PagedMemory.span, hmul, PageSize.larger?_bytes hl, Nat.mul_assoc]

end Region

/-! ## Taking and listing -/

section Manager

variable {p : PhysicalMemoryManager} {s : PageSize} {r : PagedMemory} {n : U64} {index : Nat}

/-- Moving the last entry into a hole removes the entry that was there. -/
theorem swapRemove_perm {α : Type} {l : List α} {i : Nat} {x : α} (h : l[i]? = some x) :
    (x :: swapRemove l i).Perm l := by
  rcases List.eq_nil_or_concat l with rfl | ⟨init, last, rfl⟩
  · simp at h
  · rw [List.concat_eq_append] at h ⊢
    have hi : i < init.length + 1 := by
      simpa using (List.getElem?_eq_some_iff.mp h).1
    have hswap : swapRemove (init ++ [last]) i = ((init ++ [last]).set i last).dropLast := by
      simp [swapRemove]
    rcases Nat.lt_succ_iff_lt_or_eq.mp hi with hlt | rfl
    · rw [List.getElem?_append_left hlt, List.getElem?_eq_some_iff] at h
      obtain ⟨_, rfl⟩ := h
      rw [hswap, List.set_append_left _ _ hlt, List.dropLast_concat]
      calc init[i] :: init.set i last
          _ |>.Perm (init[i] :: last :: init.eraseIdx i) :=
            (List.set_perm_cons_eraseIdx hlt last).cons _
          _ |>.Perm (last :: init[i] :: init.eraseIdx i) := .swap _ _ _
          _ |>.Perm (last :: init) := (List.getElem_cons_eraseIdx_perm hlt).cons _
          _ |>.Perm (init ++ [last]) := List.perm_append_singleton _ _ |>.symm
    · obtain rfl : last = x := by simpa using h
      rw [swapRemove_concat]
      exact (List.perm_append_singleton _ _).symm

/-- Taking the first pages of a listed region removes what they cover. -/
theorem PhysicalMemoryManager.count_decrease (hr : p.memory[index]? = some r)
    (hb : r.Bounded s) (hn : n ≤ r.numberOfPages) (a : Nat) :
    Span.count ((p.decrease s index r n).spans s) a +
      Span.count [PagedMemory.span s ⟨r.pageStart, n⟩] a = Span.count (p.spans s) a := by
  unfold PhysicalMemoryManager.decrease
  split
  · rename_i heq
    subst heq
    have hperm := Span.count_perm ((swapRemove_perm hr).map (PagedMemory.span s)) a
    rw [List.map_cons, Span.count_cons'] at hperm
    change _ + Span.count [r.span s] a = _
    simp only [PhysicalMemoryManager.spans, PhysicalMemoryManager.table,
      Span.count_cons' _ (List.map _ _)]
    omega
  · have hset := Span.count_set (p.memory.map (PagedMemory.span s)) (PagedMemory.span s
      ⟨r.pageStart + n * s.value, r.numberOfPages - n⟩) (i := index)
      (s := r.span s) (by simp [hr]) a
    have hsplit := PagedMemory.count_split hb hn a
    simp only [PhysicalMemoryManager.spans, PhysicalMemoryManager.table, List.map_set,
      Span.count_cons' _ (List.set _ _ _), Span.count_cons' _ (List.map _ _)]
    omega

/-- A region that is listed is covered once more. -/
theorem PhysicalMemoryManager.count_push (a : Nat) :
    Span.count ((p.push r).spans s) a =
      Span.count (p.spans s) a + Span.count [r.span s] a := by
  simp only [PhysicalMemoryManager.push, PhysicalMemoryManager.spans, PhysicalMemoryManager.table,
    List.map_append, List.map_cons, List.map_nil, ← List.cons_append, Span.count_append]

/-- The frames of a table, read as a region of the base manager. -/
theorem PagedMemory.span_table (buf : U64) (used : U32) :
    PagedMemory.span .basePage ⟨buf, used.setWidth 64⟩ =
      ⟨buf.toNat, used.toNat * pageFrameSize⟩ := by
  rw [PagedMemory.span, BitVec.toNat_setWidth_of_le (by norm_num)]
  rfl

/-- Moving the table of the base manager lists the frames of the old table. -/
theorem PhysicalMemoryManager.count_moveTable (address : U64) (a : Nat) :
    Span.count ((p.moveTable address).spans .basePage) a = Span.count (p.spans .basePage) a +
      Span.count [PagedMemory.span .basePage ⟨address, (p.usedBasePages + 1).setWidth 64⟩] a := by
  simp only [PhysicalMemoryManager.moveTable, PhysicalMemoryManager.spans,
    PhysicalMemoryManager.table, List.map_append, List.map_cons, List.map_nil,
    PagedMemory.span_table, Span.count_cons' _ (_ ++ _), Span.count_cons' _ (List.map _ _),
    Span.count_append]
  omega

end Manager

/-! ## Ownership and the moves -/

/-- Every region starts at a multiple of its page size, and every table at a frame. -/
structure Custody.Aligned (c : Custody) : Prop where
  listed : ∀ s, ∀ r ∈ (c.1.manager s).memory, s.bytes ∣ r.pageStart.toNat
  tables : ∀ s, pageFrameSize ∣ (c.1.manager s).buf.toNat
  inHand : ∀ h ∈ c.2, h.pageSize.bytes ∣ h.memory.pageStart.toNat

/-- All addresses of the custody have 64 bits, and the regions are aligned. -/
structure Custody.Sound (c : Custody) : Prop where
  inRange : ∀ x ∈ c.spans, ∀ a ∈ x, a < 2 ^ 64
  aligned : c.Aligned

/-- The spans of the custody partition the usable memory and are aligned. -/
structure Custody.Owns (c : Custody) (usable : Set Nat) : Prop where
  cover : Span.ExactCover c.spans usable
  sound : c.Sound

section Owns

variable {c d : Custody} {usable : Set Nat} {scope : Scope}

/-- The regions of a sound custody end within the address space. -/
theorem Custody.Sound.bounded {s : PageSize} {r : PagedMemory} (h : c.Sound)
    (hr : r.span s ∈ c.spans) : r.Bounded s := by
  rw [PagedMemory.bounded_iff]
  have hstart := r.pageStart.isLt
  rcases Nat.eq_zero_or_pos (r.numberOfPages.toNat * s.bytes) with h0 | hpos
  · omega
  · have hlast : r.pageStart.toNat + r.numberOfPages.toNat * s.bytes - 1 ∈ r.span s := by
      simp only [PagedMemory.span, Span.mem_mk]
      omega
    have hbelow := h.inRange _ hr _ hlast
    omega

/-- So do the listed ones. -/
theorem Custody.Sound.bounded_listed {s : PageSize} {r : PagedMemory} (h : c.Sound)
    (hr : r ∈ (c.1.manager s).memory) : r.Bounded s := by
  refine h.bounded (List.mem_append_left _ (PhysicalMemory.mem_spans_iff.mpr ⟨s, ?_⟩))
  exact List.mem_cons_of_mem _ (List.mem_map_of_mem hr)

/-- And those in hand. -/
theorem Custody.Sound.bounded_inHand {x : Holding} (h : c.Sound) (hx : x ∈ c.2) :
    x.memory.Bounded x.pageSize :=
  h.bounded (List.mem_append_right _ (List.mem_map_of_mem hx))

/-- Soundness depends on which addresses are covered, and on the alignment. -/
theorem Custody.Sound.of_count (h : c.Sound)
    (hcount : ∀ a, Span.count c.spans a = 0 → Span.count d.spans a = 0) (ha : d.Aligned) :
    d.Sound := by
  refine ⟨fun x hx a hax => ?_, ha⟩
  have hpos : 0 < Span.count d.spans a := Span.count_pos_iff.mpr ⟨x, hx, hax⟩
  have hne : Span.count c.spans a ≠ 0 := fun h0 => by
    have hz := hcount a h0
    omega
  obtain ⟨y, hy, hay⟩ := Span.count_pos_iff.mp (Nat.pos_of_ne_zero hne)
  exact h.inRange y hy a hay

/-- Ownership depends on how often each address is covered, and on the alignment. -/
theorem Custody.Owns.congr (h : c.Owns usable)
    (hcount : ∀ a, Span.count d.spans a = Span.count c.spans a) (ha : d.Aligned) :
    d.Owns usable :=
  ⟨h.cover.congr hcount, h.sound.of_count (fun a h0 => (hcount a).trans h0) ha⟩

/-- A region is still aligned after its first pages are taken. -/
theorem PhysicalMemoryManager.dvd_decrease {p : PhysicalMemoryManager} {s : PageSize}
    {index : Nat} {region : PagedMemory} {n : U64} (hr : p.memory[index]? = some region)
    (ha : ∀ r ∈ p.memory, s.bytes ∣ r.pageStart.toNat) :
    ∀ r ∈ (p.decrease s index region n).memory, s.bytes ∣ r.pageStart.toNat := by
  intro r hmem
  unfold PhysicalMemoryManager.decrease at hmem
  split at hmem
  · exact ha r ((swapRemove_perm hr).subset (List.mem_cons_of_mem _ hmem))
  · rcases List.mem_or_eq_of_mem_set hmem with hmem | rfl
    · exact ha r hmem
    · exact PagedMemory.dvd_page (ha region (List.mem_of_getElem? hr))

/-- A decrease leaves the table where it is. -/
@[simp] theorem PhysicalMemoryManager.buf_decrease {p : PhysicalMemoryManager} {s : PageSize}
    {index : Nat} {region : PagedMemory} {n : U64} :
    (p.decrease s index region n).buf = p.buf := by
  unfold PhysicalMemoryManager.decrease
  split <;> rfl

/-- Replacing a manager by an aligned one keeps all managers aligned. -/
theorem Custody.Aligned.setManager {m : PhysicalMemory} {hand hand' : List Holding} {s : PageSize}
    {p : PhysicalMemoryManager} (h : Custody.Aligned (m, hand))
    (hlisted : ∀ r ∈ p.memory, s.bytes ∣ r.pageStart.toNat) (hbuf : pageFrameSize ∣ p.buf.toNat)
    (hhand : ∀ x ∈ hand', x.pageSize.bytes ∣ x.memory.pageStart.toNat) :
    Custody.Aligned (m.setManager s p, hand') := by
  refine ⟨fun t => ?_, fun t => ?_, hhand⟩
  · simp only [PhysicalMemory.manager_setManager_eq]
    split
    · rename_i ht
      rw [ht]
      exact hlisted
    · exact h.listed t
  · simp only [PhysicalMemory.manager_setManager_eq]
    split
    · exact hbuf
    · exact h.tables t

/-- A note does not matter for the alignment. -/
theorem Custody.Aligned.note {m : PhysicalMemory} {hand : List Holding} {e : Event}
    (h : Custody.Aligned (m, hand)) : Custody.Aligned (m.note e, hand) :=
  ⟨by simpa using h.listed, by simpa using h.tables, h.inHand⟩

/-- Every move keeps the alignment, unless the table of a larger manager is moved. -/
theorem Move.aligned (h : Move scope c d) (hj : ∀ e ∈ d.1.journal, ¬ e.GrowsLargerTable)
    (hc : c.Aligned) : d.Aligned := by
  cases h with
  | note => exact hc.note
  | reorder perm => exact ⟨hc.listed, hc.tables, fun x hx => hc.inHand x (perm.symm.subset hx)⟩
  | take s index region n listed le =>
    refine hc.setManager (PhysicalMemoryManager.dvd_decrease listed (hc.listed s)) ?_ ?_
    · simpa using hc.tables s
    · rintro x (_ | ⟨_, hx⟩)
      · exact hc.listed s region (List.mem_of_getElem? listed)
      · exact hc.inHand x hx
  | list s region =>
    refine hc.setManager ?_ (hc.tables s) fun x hx => hc.inHand x (List.mem_cons_of_mem _ hx)
    intro r hr
    rcases List.mem_append.mp hr with hr | hr
    · exact hc.listed s r hr
    · rw [List.mem_singleton.mp hr]
      exact hc.inHand _ (List.mem_cons_self ..)
  | cut s larger n address next within =>
    have haddr : s.bytes ∣ address.toNat :=
      (PageSize.bytes_dvd_larger next).trans (hc.inHand _ (List.mem_cons_self ..))
    refine ⟨by simpa using hc.listed, by simpa using hc.tables, ?_⟩
    rintro x (_ | ⟨_, _ | ⟨_, hx⟩⟩)
    · exact PagedMemory.dvd_page (r := ⟨address, n⟩) haddr
    · exact haddr
    · exact hc.inHand x (List.mem_cons_of_mem _ hx)
  | narrow s larger region next fits =>
    refine ⟨hc.listed, hc.tables, ?_⟩
    rintro x (_ | ⟨_, hx⟩)
    · exact (PageSize.bytes_dvd_larger next).trans (hc.inHand _ (List.mem_cons_self ..))
    · exact hc.inHand x (List.mem_cons_of_mem _ hx)
  | @moveTable m hand s address used same mono =>
    have hs : s = .basePage := not_not.mp (hj (.tableMoved s (m.manager s).usedBasePages) (by simp))
    subst hs
    refine hc.note.setManager ?_ ?_ fun x hx => hc.inHand x (List.mem_cons_of_mem _ hx)
    · intro r hr
      rcases List.mem_append.mp hr with hr | hr
      · exact hc.listed _ r hr
      · rw [List.mem_singleton.mp hr]
        exact hc.tables _
    · exact hc.inHand _ (List.mem_cons_self ..)
  | takeMisplaced s larger index region n boundary next may listed le pos aligned near =>
    refine Custody.Aligned.note (hc.setManager
      (PhysicalMemoryManager.dvd_decrease listed (hc.listed s)) ?_ ?_)
    · simpa using hc.tables s
    · rintro x (_ | ⟨_, hx⟩)
      · exact (PageSize.bytes_dvd_larger next).trans aligned
      · exact hc.inHand x hx
  | promote s larger address n next aligned =>
    refine ⟨hc.listed, hc.tables, ?_⟩
    rintro x (_ | ⟨_, _ | ⟨_, hx⟩⟩)
    · exact aligned
    · exact PagedMemory.dvd_page (r := ⟨address, n⟩) (hc.inHand _ (List.mem_cons_self ..))
    · exact hc.inHand x (List.mem_cons_of_mem _ hx)
  | discard s address =>
    exact ⟨hc.listed, hc.tables, fun x hx => hc.inHand x (List.mem_cons_of_mem _ hx)⟩

/-- A custody covers what the managers and the hand cover. -/
theorem Custody.count_spans (m : PhysicalMemory) (hand : List Holding) (a : Nat) :
    Span.count (Custody.spans (m, hand)) a =
      Span.count m.spans a + Span.count (hand.map Holding.span) a := Span.count_append _ _ _

/-- A region in hand is covered once more. -/
theorem Custody.count_hold (s : PageSize) (r : PagedMemory) (hand : List Holding) (a : Nat) :
    Span.count ((Holding.mk s r :: hand).map Holding.span) a =
      Span.count [r.span s] a + Span.count (hand.map Holding.span) a := by
  rw [List.map_cons, Span.count_cons']
  rfl

/-- The larger pages stolen for a request, as smaller pages. -/
theorem toNat_toSmallerPages_ceiling {n : U64} (hn : n.toNat + 512 ≤ 2 ^ 64) :
    (toSmallerPages (ceilingDivValue n 512)).toNat = (ceilingDivValue n 512).toNat * 512 ∧
      n.toNat ≤ (ceilingDivValue n 512).toNat * 512 := by
  have hceil : (ceilingDivValue n 512).toNat = (n.toNat + 511) / 512 :=
    toNat_ceilingDivValue (k := 9) rfl hn
  refine ⟨?_, by omega⟩
  rw [toSmallerPages, BitVec.toNat_mul]
  exact Nat.mod_eq_of_lt (by change _ * 512 < _; omega)

/-- The whole larger pages of a number of pages, as smaller pages. -/
theorem toNat_alignDownValue_512 (n : U64) :
    (alignDownValue n 512).toNat = (toLargerPages (alignDownValue n 512)).toNat * 512 ∧
      (alignDownValue n 512).toNat ≤ n.toNat := by
  have hdown : (alignDownValue n 512).toNat = n.toNat / 512 * 512 :=
    toNat_alignDownValue (k := 9) rfl
  rw [toLargerPages, BitVec.toNat_udiv, hdown]
  change _ = n.toNat / 512 * 512 / 512 * 512 ∧ _
  omega

/-- A stolen region covers what the request and the rest cover. -/
theorem count_cut {s larger : PageSize} {n address : U64} (hl : s.larger? = some larger)
    (hn : n.toNat + 512 ≤ 2 ^ 64)
    (hb : PagedMemory.Bounded larger ⟨address, ceilingDivValue n 512⟩) (a : Nat) :
    Span.count [PagedMemory.span larger ⟨address, ceilingDivValue n 512⟩] a =
      Span.count [PagedMemory.span s ⟨address, n⟩] a + Span.count [PagedMemory.span s
        ⟨address + n * s.value, toSmallerPages (ceilingDivValue n 512) - n⟩] a := by
  obtain ⟨hwhole, hle⟩ := toNat_toSmallerPages_ceiling hn
  have hspan : PagedMemory.span s ⟨address, toSmallerPages (ceilingDivValue n 512)⟩ =
      PagedMemory.span larger ⟨address, ceilingDivValue n 512⟩ :=
    PagedMemory.span_smaller (r := ⟨address, ceilingDivValue n 512⟩) hl (by
      rw [← hwhole]
      exact BitVec.isLt _)
  have hbs : PagedMemory.Bounded s ⟨address, toSmallerPages (ceilingDivValue n 512)⟩ := by
    rw [PagedMemory.Bounded, hspan]
    exact hb
  rw [← hspan]
  refine PagedMemory.count_split hbs ?_ a
  rwa [BitVec.le_def, hwhole]

/-- A region covers what its whole larger pages and its remaining pages cover. -/
theorem count_promote {s larger : PageSize} {n address : U64} (hl : s.larger? = some larger)
    (hb : PagedMemory.Bounded s ⟨address, n⟩) (a : Nat) :
    Span.count [PagedMemory.span s ⟨address, n⟩] a =
      Span.count [PagedMemory.span larger ⟨address, toLargerPages (alignDownValue n 512)⟩] a +
      Span.count [PagedMemory.span s ⟨address + alignDownValue n 512 * s.value,
        n - alignDownValue n 512⟩] a := by
  obtain ⟨hwhole, hle⟩ := toNat_alignDownValue_512 n
  have hlt : (toLargerPages (alignDownValue n 512)).toNat * 512 < 2 ^ 64 := by
    rw [← hwhole]
    exact BitVec.isLt _
  have hback : toLargerPages (alignDownValue n 512) * 512 = alignDownValue n 512 := by
    apply BitVec.eq_of_toNat_eq
    rw [BitVec.toNat_mul, hwhole]
    exact Nat.mod_eq_of_lt hlt
  rw [← PagedMemory.span_smaller (r := ⟨address, toLargerPages (alignDownValue n 512)⟩) hl hlt,
    hback]
  exact PagedMemory.count_split hb hle a

/-- The custody after a span of addresses was exchanged for one further up, all of whose
addresses were covered before. -/
def Custody.Shifted (c d : Custody) : Prop :=
  ∃ x y : Span, x.size = y.size ∧ 0 < x.size ∧ x.start < y.start ∧
    (∀ a, Span.count d.spans a + Span.count [x] a = Span.count c.spans a + Span.count [y] a) ∧
    ∀ a ∈ y, 0 < Span.count c.spans a

/-- Pages that are taken are no longer covered by the managers. -/
theorem PhysicalMemory.count_take {m : PhysicalMemory} {s : PageSize} {index : Nat}
    {region : PagedMemory} {n : U64} (listed : (m.manager s).memory[index]? = some region)
    (hb : region.Bounded s) (le : n ≤ region.numberOfPages) (a : Nat) :
    Span.count (m.setManager s ((m.manager s).decrease s index region n)).spans a +
      Span.count [PagedMemory.span s ⟨region.pageStart, n⟩] a = Span.count m.spans a := by
  have hset := m.count_setManager s ((m.manager s).decrease s index region n) a
  have hdec := PhysicalMemoryManager.count_decrease listed hb le a
  omega

/-- The frames for the table of the base manager are covered by it once the table is there. -/
theorem PhysicalMemory.count_moveTable {m : PhysicalMemory} (address : U64) (a : Nat) :
    Span.count ((m.note (.tableMoved .basePage (m.manager .basePage).usedBasePages)).setManager
        .basePage ((m.manager .basePage).moveTable address)).spans a =
      Span.count m.spans a + Span.count [PagedMemory.span .basePage
        ⟨address, ((m.manager .basePage).usedBasePages + 1).setWidth 64⟩] a := by
  have hset := (m.note (.tableMoved .basePage (m.manager .basePage).usedBasePages)).count_setManager
    .basePage ((m.manager .basePage).moveTable address) a
  rw [PhysicalMemory.manager_note, PhysicalMemory.spans_note] at hset
  have hmove := PhysicalMemoryManager.count_moveTable (p := m.manager .basePage) address a
  omega

/-- Pages that are taken as if they were those from the boundary on shift the custody. -/
theorem Custody.Sound.shifted {m : PhysicalMemory} {hand : List Holding} {s : PageSize}
    {index : Nat} {region : PagedMemory} {n boundary : U64} {e : Event}
    (hc : Custody.Sound (m, hand)) (listed : (m.manager s).memory[index]? = some region)
    (pos : 0 < n.toNat) (hlt : n.toNat < region.numberOfPages.toNat)
    (hboundary : boundary.toNat =
      region.pageStart.toNat + (region.numberOfPages.toNat - n.toNat) * s.bytes) :
    Custody.Shifted (m, hand) ((m.setManager s ((m.manager s).decrease s index region n)).note e,
      ⟨s, ⟨boundary, n⟩⟩ :: hand) := by
  have hmem := List.mem_of_getElem? listed
  have hb := hc.bounded_listed hmem
  have hmoved : 0 < (region.numberOfPages.toNat - n.toNat) * s.bytes :=
    Nat.mul_pos (Nat.sub_pos_of_lt hlt) s.bytes_pos
  have hsum : region.numberOfPages.toNat * s.bytes =
      (region.numberOfPages.toNat - n.toNat) * s.bytes + n.toNat * s.bytes := by
    rw [← Nat.add_mul, Nat.sub_add_cancel hlt.le]
  refine ⟨PagedMemory.span s ⟨region.pageStart, n⟩, PagedMemory.span s ⟨boundary, n⟩, rfl,
    Nat.mul_pos pos s.bytes_pos, ?_, fun a => ?_, fun a ha => ?_⟩
  · simp only [PagedMemory.span]
    omega
  · have htake := PhysicalMemory.count_take listed hb (BitVec.le_def.mpr hlt.le) a
    rw [Custody.count_spans, Custody.count_spans, Custody.count_hold, PhysicalMemory.spans_note]
    omega
  · refine Span.count_pos_iff.mpr ⟨region.span s, List.mem_append_left _
      (PhysicalMemory.mem_spans_iff.mpr ⟨s, List.mem_cons_of_mem _ (List.mem_map_of_mem hmem)⟩), ?_⟩
    simp only [PagedMemory.span, Span.mem_mk] at ha ⊢
    omega

/-- A move that does not move the table of a larger manager leaves each address covered
as often as before and notes nothing of interest, or is a promotion from a region that
starts between two larger pages. -/
theorem Move.count_cases (h : Move scope c d) (hlimit : scope.limit + 512 ≤ 2 ^ 64)
    (hj : ∀ e ∈ d.1.journal, ¬ e.GrowsLargerTable) (hc : c.Sound) :
    (∀ a, Span.count d.spans a = Span.count c.spans a) ∧
        (∀ e ∈ d.1.journal, e.BreaksOwnership → e ∈ c.1.journal) ∨
      (∃ larger, .unalignedPromotion larger ∈ d.1.journal) ∧ c.Shifted d := by
  cases h with
  | note e within harmless =>
    exact .inl ⟨fun _ => rfl, fun e' he hb => (List.mem_append.mp he).resolve_right fun h =>
      harmless (List.mem_singleton.mp h ▸ hb)⟩
  | reorder perm =>
    refine .inl ⟨fun a => ?_, fun e he _ => he⟩
    rw [Custody.count_spans, Custody.count_spans, Span.count_perm (perm.map Holding.span)]
  | @take m hand s index region n listed le =>
    refine .inl ⟨fun a => ?_, fun e he _ => by simpa using he⟩
    have htake := PhysicalMemory.count_take listed
      (hc.bounded_listed (List.mem_of_getElem? listed)) le a
    rw [Custody.count_spans, Custody.count_spans, Custody.count_hold]
    omega
  | @list m hand s region =>
    refine .inl ⟨fun a => ?_, fun e he _ => by simpa using he⟩
    have hset := m.count_setManager s ((m.manager s).push region) a
    have hpush := PhysicalMemoryManager.count_push (p := m.manager s) (s := s) (r := region) a
    rw [Custody.count_spans, Custody.count_spans, Custody.count_hold]
    omega
  | cut s larger n address next within =>
    refine .inl ⟨fun a => ?_, fun e he hb => (List.mem_append.mp he).resolve_right fun h =>
      (List.mem_singleton.mp h ▸ hb : Event.BreaksOwnership (.stolen n))⟩
    have hn : n.toNat + 512 ≤ 2 ^ 64 := by omega
    have hb : PagedMemory.Bounded larger ⟨address, ceilingDivValue n 512⟩ :=
      hc.bounded_inHand (List.mem_cons_self ..)
    have hcut := count_cut next hn hb a
    rw [Custody.count_spans, Custody.count_spans, Custody.count_hold, Custody.count_hold,
      Custody.count_hold, hcut, PhysicalMemory.spans_note]
    omega
  | narrow s larger region next fits =>
    refine .inl ⟨fun a => ?_, fun e he _ => he⟩
    have hspan := PagedMemory.span_smaller (r := region) next (by omega)
    rw [Custody.count_spans, Custody.count_spans, Custody.count_hold, Custody.count_hold]
    simp only [hspan]
  | @moveTable m hand s address used same mono =>
    obtain rfl : s = .basePage :=
      not_not.mp (hj (.tableMoved s (m.manager s).usedBasePages) (by simp))
    refine .inl ⟨fun a => ?_, fun e he hb => ?_⟩
    swap
    · rw [PhysicalMemory.journal_setManager, PhysicalMemory.journal_note] at he
      refine (List.mem_append.mp he).resolve_right fun h => ?_
      rw [List.mem_singleton.mp h] at hb
      exact hb rfl
    obtain rfl := same rfl fun e he => hj e (by simpa using .inl he)
    rw [Custody.count_spans, Custody.count_spans, Custody.count_hold,
      PhysicalMemory.count_moveTable]
    omega
  | @takeMisplaced m hand s larger index region n boundary next may listed le pos aligned near =>
    obtain ⟨hlt, hboundary⟩ := near (hc.aligned.listed s region (List.mem_of_getElem? listed))
      (hc.bounded_listed (List.mem_of_getElem? listed))
    exact .inr ⟨⟨larger, by simp⟩, hc.shifted listed pos hlt hboundary⟩
  | promote s larger address n next aligned =>
    refine .inl ⟨fun a => ?_, fun e he _ => he⟩
    have hprom := count_promote next (hc.bounded_inHand (List.mem_cons_self ..)) a
    rw [Custody.count_spans, Custody.count_spans, Custody.count_hold, Custody.count_hold,
      Custody.count_hold, hprom]
    omega
  | discard s address =>
    refine .inl ⟨fun a => ?_, fun e he _ => he⟩
    have hempty : Span.count [PagedMemory.span s ⟨address, 0⟩] a = 0 := by
      simp [PagedMemory.span]
    rw [Custody.count_spans, Custody.count_spans, Custody.count_hold, hempty, Nat.zero_add]

/-- Every move that does not break ownership leaves each address covered as often as
before. -/
theorem Move.count_eq (h : Move scope c d) (hlimit : scope.limit + 512 ≤ 2 ^ 64)
    (hj : ∀ e ∈ d.1.journal, ¬ e.BreaksOwnership) (hc : c.Sound) (a : Nat) :
    Span.count d.spans a = Span.count c.spans a := by
  rcases h.count_cases hlimit (fun e he hg => hj e he hg.breaks) hc with
    ⟨heq, -⟩ | ⟨⟨larger, hmem⟩, -⟩
  · exact heq a
  · exact absurd trivial (hj _ hmem)

/-- Any number of moves that do not break ownership leaves each address covered as often
as before. -/
theorem Moves.count_eq (h : Moves scope c d) (hlimit : scope.limit + 512 ≤ 2 ^ 64)
    (hj : ∀ e ∈ d.1.journal, ¬ e.BreaksOwnership) (hc : c.Sound) :
    d.Sound ∧ ∀ a, Span.count d.spans a = Span.count c.spans a := by
  refine h.keep (p := fun d => d.Sound ∧ ∀ a, Span.count d.spans a = Span.count c.spans a)
    (fun d e hm hj hd => ?_) hj ⟨hc, fun _ => rfl⟩
  obtain ⟨hsound, hcount⟩ := hd
  have heq := hm.count_eq hlimit hj hsound
  exact ⟨hsound.of_count (fun a h0 => (heq a).trans h0)
    (hm.aligned (fun e he hg => hj e he hg.breaks) hsound.aligned),
    fun a => (heq a).trans (hcount a)⟩

/-- Ownership over any number of moves. -/
theorem Moves.owns (h : Moves scope c d) (hlimit : scope.limit + 512 ≤ 2 ^ 64)
    (hj : ∀ e ∈ d.1.journal, ¬ e.BreaksOwnership) (hc : c.Owns usable) : d.Owns usable := by
  obtain ⟨hsound, hcount⟩ := h.count_eq hlimit hj hc.sound
  exact ⟨hc.cover.congr hcount, hsound⟩

end Owns

/-! ## Runs of calls -/

/-- The state before a call, with nothing noted yet. -/
def PhysicalMemory.fresh (m : PhysicalMemory) : PhysicalMemory := { m with journal := [] }

/-- What callers hold at a page size. -/
def heldAt (held : List Holding) (s : PageSize) : List Span :=
  (held.filter fun x => x.pageSize = s).map Holding.span

/-- A call that returns, with the regions callers hold before and after it and the
events of the call. -/
inductive Call : Custody → List Event → Custody → Prop where
  | allocContiguous {m m' : PhysicalMemory} {held : List Holding} {depth : Nat} {n : U64}
      {s : PageSize} {address : U64} (pos : 1 ≤ n.toNat) (lt : n.toNat < 2 ^ 32)
      (returns : allocContiguousPhysicalPages depth n s m.fresh = .ok address m') :
      Call (m, held) m'.journal (m', ⟨s, ⟨address, n⟩⟩ :: held)
  | allocPages {m m' : PhysicalMemory} {held : List Holding} {depth : Nat} {len : U64}
      {s : PageSize} {pages : List PagedMemory} (pos : 1 ≤ len.toNat) (lt : len.toNat < 2 ^ 32)
      (returns : allocPhysicalPages depth len s m.fresh = .ok pages m') :
      Call (m, held) m'.journal (m', pages.map (Holding.mk s) ++ held)
  | freePages {m m' : PhysicalMemory} {held rest : List Holding} {depth : Nat} {s : PageSize}
      {pages : List PagedMemory} (holds : held.Perm (pages.map (Holding.mk s) ++ rest))
      (returns : freePhysicalPages depth pages s m.fresh = .ok () m') :
      Call (m, held) m'.journal (m', rest)
  | freePage {m m' : PhysicalMemory} {held rest : List Holding} {depth : Nat} {s : PageSize}
      {page : PagedMemory} (holds : held.Perm (⟨s, page⟩ :: rest))
      (returns : freePhysicalPage depth page s m.fresh = .ok () m') :
      Call (m, held) m'.journal (m', rest)
  /-- Callers may cut and join what they hold at a page size. -/
  | regroup {m : PhysicalMemory} {held held' : List Holding}
      (same : ∀ s a, Span.count (heldAt held' s) a = Span.count (heldAt held s) a)
      (aligned : ∀ x ∈ held', x.pageSize.bytes ∣ x.memory.pageStart.toNat) :
      Call (m, held) [] (m, held')

/-- A sequence of calls that all return, with all their events. -/
inductive CallRun : Custody → List Event → Custody → Prop where
  | nil (c : Custody) : CallRun c [] c
  | snoc {c d e : Custody} {events added : List Event} (run : CallRun c events d)
      (call : Call d added e) : CallRun c (events ++ added) e

section Run

variable {c d : Custody} {usable : Set Nat} {events : List Event}

/-- What the operations on behalf of callers note. -/
def callScope : Scope := ⟨2 ^ 32, fun _ => True, False⟩

/-- What is owned does not depend on the journal. -/
theorem Custody.Owns.fresh {m : PhysicalMemory} {held : List Holding}
    (h : Custody.Owns (m, held) usable) : Custody.Owns (m.fresh, held) usable :=
  ⟨h.cover, h.sound.inRange, ⟨h.sound.aligned.listed, h.sound.aligned.tables,
    h.sound.aligned.inHand⟩⟩

/-- Nor on the order of what is held. -/
theorem Custody.Owns.perm {m : PhysicalMemory} {held held' : List Holding}
    (h : Custody.Owns (m, held) usable) (hp : held.Perm held') :
    Custody.Owns (m, held') usable := by
  refine h.congr (fun a => ?_) ⟨h.sound.aligned.listed, h.sound.aligned.tables, fun x hx =>
    h.sound.aligned.inHand x (hp.symm.subset hx)⟩
  rw [Custody.count_spans, Custody.count_spans, Span.count_perm (hp.map Holding.span)]

/-- Moves on behalf of callers that move no table of a larger manager keep ownership. -/
theorem Moves.owns_of_call {m m' : PhysicalMemory} {hand hand' : List Holding}
    (h : Moves callScope (m.fresh, hand) (m', hand')) (hc : Custody.Owns (m, hand) usable)
    (hj : ∀ e ∈ m'.journal, ¬ e.GrowsLargerTable) : Custody.Owns (m', hand') usable := by
  refine h.owns (by norm_num [callScope]) (fun e he hb => ?_) hc.fresh
  have hwithin := (h.within e he).resolve_left (by simp [PhysicalMemory.fresh])
  cases e with
  | tableMoved s used => exact hj _ he hb
  | unalignedPromotion s => exact hwithin
  | _ => exact hb

/-- What is held, by page sizes. -/
theorem count_held (held : List Holding) (a : Nat) :
    Span.count (held.map Holding.span) a = Span.count (heldAt held .basePage) a +
      Span.count (heldAt held .largePage) a + Span.count (heldAt held .hugePage) a := by
  induction held with
  | nil => rfl
  | cons x held ih =>
    obtain ⟨s, r⟩ := x
    rw [Custody.count_hold, ih]
    cases s <;> simp [heldAt, Span.count_cons, Holding.span] <;> omega

/-- One call keeps ownership, unless the table of a larger manager is moved in it. -/
theorem Call.owns (h : Call c events d) (hc : c.Owns usable)
    (hj : ∀ e ∈ events, ¬ e.GrowsLargerTable) : d.Owns usable := by
  have hlimit : 2 ^ 32 ≤ callScope.limit := le_rfl
  cases h with
  | @allocContiguous m m' held depth n s address pos lt returns =>
    have hmoves := (conducts_allocContiguousPhysicalPages hlimit m.fresh n s lt.le).ok returns held
    exact Moves.owns_of_call hmoves hc hj
  | @allocPages m m' held depth len s pages pos lt returns =>
    have hslot : ∀ k, callScope.slot k := fun _ => trivial
    have hmoves := (conducts_allocPhysicalPagesWithManager hlimit hslot).ok returns held
    exact Moves.owns_of_call hmoves hc hj
  | @freePages m m' held rest depth s pages holds returns =>
    have hmoves := (conducts_freePhysicalPages hlimit
      (conducts_allocContiguousPhysicalPages hlimit) pages).ok returns rest
    exact Moves.owns_of_call hmoves (hc.perm holds) hj
  | @freePage m m' held rest depth s page holds returns =>
    have hmoves := (conducts_freePhysicalPages hlimit
      (conducts_allocContiguousPhysicalPages hlimit) [page]).ok returns rest
    exact Moves.owns_of_call hmoves (hc.perm holds) hj
  | regroup same aligned =>
    refine hc.congr (fun a => ?_) ⟨hc.sound.aligned.listed, hc.sound.aligned.tables,
      aligned⟩
    rw [Custody.count_spans, Custody.count_spans, count_held, count_held, same, same, same]

/-- Over any sequence of calls that return, in which callers free what they hold, the
usable memory stays partitioned into listed regions, tables and held regions, and
every listed region aligned, as long as no region is freed into a larger manager
whose table is full. -/
theorem ownership_run (h : CallRun c events d) (hc : c.Owns usable)
    (hj : ∀ e ∈ events, ¬ e.GrowsLargerTable) : d.Owns usable := by
  induction h with
  | nil => exact hc
  | snoc run call ih =>
    have hd := ih fun e he => hj e (List.mem_append_left _ he)
    exact call.owns hd fun e he => hj e (List.mem_append_right _ he)

/-- Spans in ascending order partition the addresses they cover. -/
theorem Custody.owns_of_sorted (hs : c.spans.IsChain fun x y => x.stop ≤ y.start)
    (hb : ∀ x ∈ c.spans, x.stop ≤ 2 ^ 64) (ha : c.Aligned) :
    c.Owns {a | ∃ x ∈ c.spans, a ∈ x} := by
  refine ⟨⟨Span.pairwise_disjoint_of_sorted hs, fun a => Iff.rfl⟩,
    fun x hx a hax => lt_of_lt_of_le hax.2 (hb x hx), ha⟩

/-- One 2 MiB page is stolen for five frames, and the five frames are freed. -/
theorem ownership_run_steal :
    let m : PhysicalMemory := ⟨⟨0x1000, [⟨0x2000, 3⟩], 256, 1⟩, ⟨0x5000, [⟨0x200000, 2⟩], 256, 1⟩,
      ⟨0x40000000, [], 256, 1⟩, []⟩
    let m' : PhysicalMemory := ⟨⟨0x1000, [⟨0x2000, 3⟩, ⟨0x205000, 507⟩, ⟨0x200000, 5⟩], 256, 1⟩,
      ⟨0x5000, [⟨0x400000, 1⟩], 256, 1⟩, ⟨0x40000000, [], 256, 1⟩, []⟩
    Custody.Owns (m', []) {a | ∃ x ∈ Custody.spans (m, []), a ∈ x} := by
  intro m m'
  have hsteal : allocContiguousPhysicalPages 2 5 .basePage m.fresh = .ok 0x200000
      ⟨⟨0x1000, [⟨0x2000, 3⟩, ⟨0x205000, 507⟩], 256, 1⟩,
        ⟨0x5000, [⟨0x400000, 1⟩], 256, 1⟩, ⟨0x40000000, [], 256, 1⟩, [.stolen 5]⟩ := by
    decide +kernel
  have hfree : freePhysicalPage 2 ⟨0x200000, 5⟩ .basePage (PhysicalMemory.fresh
      ⟨⟨0x1000, [⟨0x2000, 3⟩, ⟨0x205000, 507⟩], 256, 1⟩,
        ⟨0x5000, [⟨0x400000, 1⟩], 256, 1⟩, ⟨0x40000000, [], 256, 1⟩, [.stolen 5]⟩) =
      .ok () m' := by
    decide +kernel
  refine ownership_run (.snoc (.snoc (.nil (m, [])) (.allocContiguous (by decide) (by decide)
    hsteal)) (.freePage (List.Perm.refl _) hfree)) (Custody.owns_of_sorted ?_ ?_ ?_) ?_
  · decide +kernel
  · decide +kernel
  · refine ⟨fun s => ?_, fun s => ?_, by simp⟩ <;> cases s <;> decide
  · decide

end Run

/-- Managers whose 2 MiB manager lists as many regions as its table has entries. -/
def fullLargeTable : PhysicalMemory :=
  ⟨⟨0x1000, [⟨0x2000, 2⟩], 256, 1⟩,
    ⟨0x5000, (List.range 256).map fun i => ⟨BitVec.ofNat 64 ((i + 1) * 0x200000), 1⟩, 256, 1⟩,
    ⟨0x30000000, [], 256, 1⟩, []⟩

/-- With a full table of the 2 MiB manager, freeing one 2 MiB page lists the frame of
the old table as a 2 MiB page, at an address that is no multiple of 2 MiB. -/
theorem ownership_lost_by_full_table :
    ¬ ∀ (usable : Set Nat) (c d : Custody) (events : List Event),
      c.Owns usable → Call c events d → d.Owns usable := by
  intro h
  have howns : Custody.Owns (fullLargeTable, [⟨.largePage, ⟨0x40000000, 1⟩⟩])
      {a | ∃ x ∈ Custody.spans (fullLargeTable, [⟨.largePage, ⟨0x40000000, 1⟩⟩]), a ∈ x} := by
    refine Custody.owns_of_sorted ?_ ?_ ⟨fun s => ?_, fun s => ?_, ?_⟩
    · decide +kernel
    · decide +kernel
    · cases s <;> decide +kernel
    · cases s <;> decide +kernel
    · decide +kernel
  have hlists : ReturnsWith (freePhysicalPage 2 ⟨0x40000000, 1⟩ .largePage fullLargeTable.fresh)
      fun _ m' => ⟨0x5000, 1⟩ ∈ (m'.manager .largePage).memory := by
    decide +kernel
  obtain ⟨_, m', hfree, hmem⟩ := hlists
  have hlost := h _ _ _ _ howns (.freePage (List.Perm.refl _) hfree)
  have hdvd := hlost.sound.aligned.listed .largePage _ hmem
  revert hdvd
  decide

end Homegrown.Memory
