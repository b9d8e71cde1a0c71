import Homegrown.Core.Span
import Homegrown.Memory.Virtual.Directory

/-!
# What was mapped is what is looked up

A call of `mapVirtualRegionWithFlags` maps the pages of its region one after the other.
Regions that do not overlap have pages whose paths are apart, so each call grows the tree
by its pages and leaves all others as they were. `getMappedPage_of_mapped` states this for
every sequence of calls.
-/

namespace Homegrown.Memory

open Radix

/-- The addresses that the four levels tell apart: bits 47 to 63 are equal. -/
def Canonical (a : Nat) : Prop := a < 2 ^ 47 ∨ 2 ^ 64 - 2 ^ 47 ≤ a

/-- A call of `mapVirtualRegionWithFlags`. -/
structure MapCall where
  virt : U64
  memory : PagedMemory
  pageType : PageSize
  additionalFlags : U64
  deriving DecidableEq, Repr

namespace MapCall

/-- The number of pages. -/
def pages (c : MapCall) : Nat := c.memory.numberOfPages.toNat

/-- The addresses of the region. -/
def span (c : MapCall) : Span := ⟨c.virt.toNat, c.pages * c.pageType.bytes⟩

/-- The addresses of a page. -/
def pageSpan (c : MapCall) (k : Nat) : Span :=
  ⟨c.virt.toNat + k * c.pageType.bytes, c.pageType.bytes⟩

/-- Where a page is mapped to. -/
def physical (c : MapCall) (k : Nat) : U64 :=
  c.memory.pageStart + BitVec.ofNat 64 k * c.pageType.value

/-- What the entry of a page should be. -/
def entry (c : MapCall) (k : Nat) : U64 :=
  c.physical k ||| VirtualPageMasks.pagePresent ||| VirtualPageMasks.pageWritable |||
    c.additionalFlags |||
      (match c.pageType with
      | .basePage => 0
      | .largePage | .hugePage => VirtualPageMasks.pageExtendedSize)

/-- The region starts at a whole page, does not wrap, and its addresses are canonical. -/
structure Valid (c : MapCall) : Prop where
  aligned : c.pageType.bytes ∣ c.virt.toNat
  fits : c.virt.toNat + c.pages * c.pageType.bytes < 2 ^ 64
  canonical : ∀ a ∈ c.span, Canonical a

/-- The path of a page. -/
def pagePath (c : MapCall) (k : Nat) : List (BitVec 9) :=
  path (c.virt + BitVec.ofNat 64 k * c.pageType.value) (pageSizeToDepth c.pageType)

end MapCall

/-! ## Pages and paths -/

section Pages

variable {a b v : U64} {s t : PageSize}

/-- An address has the path of a page exactly when it lies in the page. -/
theorem path_eq_page_iff (ha : s.bytes ∣ a.toNat) (hca : Canonical a.toNat)
    (hcv : Canonical v.toNat) :
    path v (pageSizeToDepth s) = path a (pageSizeToDepth s) ↔
      v.toNat ∈ Span.mk a.toNat s.bytes := by
  have hv := v.isLt
  have ha' := a.isLt
  rw [path_eq_iff (pageSizeToDepth_le s), Span.mem_mk]
  simp only [Canonical] at hca hcv
  obtain ⟨c, hc⟩ := ha
  cases s with
  | basePage =>
    change v.toNat % 2 ^ 48 / 2 ^ 12 = a.toNat % 2 ^ 48 / 2 ^ 12 ↔ _
    rw [PageSize.bytes_basePage] at hc ⊢
    omega
  | largePage =>
    change v.toNat % 2 ^ 48 / 2 ^ 21 = a.toNat % 2 ^ 48 / 2 ^ 21 ↔ _
    rw [PageSize.bytes_largePage] at hc ⊢
    omega
  | hugePage =>
    change v.toNat % 2 ^ 48 / 2 ^ 30 = a.toNat % 2 ^ 48 / 2 ^ 30 ↔ _
    rw [PageSize.bytes_hugePage] at hc ⊢
    omega

/-- Pages that do not overlap are not above each other in the tree. -/
theorem not_suffix_of_disjoint (ha : s.bytes ∣ a.toNat) (hca : Canonical a.toNat)
    (hcb : Canonical b.toNat)
    (h : (Span.mk a.toNat s.bytes).Disjoint (Span.mk b.toNat t.bytes)) :
    ¬ path a (pageSizeToDepth s) <:+ path b (pageSizeToDepth t) := by
  intro hsuffix
  have heq := eq_path_of_suffix hsuffix
  rw [length_path] at heq
  have hin := (path_eq_page_iff ha hca hcb).mp heq.symm
  exact h _ hin (Span.mem_mk.mpr ⟨le_rfl, by
    have := t.bytes_pos
    omega⟩)

theorem apart_of_disjoint (ha : s.bytes ∣ a.toNat) (hb : t.bytes ∣ b.toNat)
    (hca : Canonical a.toNat) (hcb : Canonical b.toNat)
    (h : (Span.mk a.toNat s.bytes).Disjoint (Span.mk b.toNat t.bytes)) :
    Apart (path a (pageSizeToDepth s)) (path b (pageSizeToDepth t)) :=
  ⟨not_suffix_of_disjoint ha hca hcb h, not_suffix_of_disjoint hb hcb hca h.symm⟩

end Pages

namespace MapCall

variable {c c' : MapCall} {j k : Nat}

/-- The address of a page of a valid call does not wrap. -/
theorem Valid.toNat_page (h : c.Valid) (hk : k ≤ c.pages) :
    (c.virt + BitVec.ofNat 64 k * c.pageType.value).toNat =
      c.virt.toNat + k * c.pageType.bytes := by
  have hpages := c.memory.numberOfPages.isLt
  have hle := Nat.mul_le_mul_right c.pageType.bytes hk
  have hfits := h.fits
  rw [BitVec.toNat_add, BitVec.toNat_mul, BitVec.toNat_ofNat, PageSize.toNat_value,
    Nat.mod_eq_of_lt (a := k) (hk.trans_lt hpages), Nat.mod_eq_of_lt (a := k * _) (by omega),
    Nat.mod_eq_of_lt (by omega)]

theorem pageSpan_subset (hk : k < c.pages) {a : Nat} (ha : a ∈ c.pageSpan k) : a ∈ c.span := by
  have hle := Nat.mul_le_mul_right c.pageType.bytes (Nat.succ_le_of_lt hk)
  rw [Nat.succ_mul] at hle
  simp only [pageSpan, span, Span.mem_mk] at ha ⊢
  omega

theorem pageSpan_disjoint (hjk : j ≠ k) : (c.pageSpan j).Disjoint (c.pageSpan k) := by
  intro a ha ha'
  simp only [pageSpan, Span.mem_mk] at ha ha'
  rcases Nat.lt_or_gt_of_ne hjk with hlt | hlt
  · have hle := Nat.mul_le_mul_right c.pageType.bytes (Nat.succ_le_of_lt hlt)
    rw [Nat.succ_mul] at hle
    omega
  · have hle := Nat.mul_le_mul_right c.pageType.bytes (Nat.succ_le_of_lt hlt)
    rw [Nat.succ_mul] at hle
    omega

/-- What a page of a valid call is: aligned and canonical. -/
theorem Valid.page (h : c.Valid) (hk : k < c.pages) :
    c.pageType.bytes ∣ (c.virt + BitVec.ofNat 64 k * c.pageType.value).toNat ∧
      Canonical (c.virt + BitVec.ofNat 64 k * c.pageType.value).toNat ∧
      Span.mk (c.virt + BitVec.ofNat 64 k * c.pageType.value).toNat c.pageType.bytes =
        c.pageSpan k := by
  rw [h.toNat_page hk.le]
  refine ⟨Nat.dvd_add h.aligned (Nat.dvd_mul_left _ _), h.canonical _ (pageSpan_subset hk ?_), rfl⟩
  have := c.pageType.bytes_pos
  simp only [pageSpan, Span.mem_mk]
  omega

/-- Pages that do not overlap are apart. -/
theorem Valid.apart (h : c.Valid) (h' : c'.Valid) (hj : j < c.pages) (hk : k < c'.pages)
    (hdisjoint : (c.pageSpan j).Disjoint (c'.pageSpan k)) :
    Apart (c.pagePath j) (c'.pagePath k) := by
  obtain ⟨ha, hca, hspan⟩ := h.page hj
  obtain ⟨hb, hcb, hspan'⟩ := h'.page hk
  rw [← hspan, ← hspan'] at hdisjoint
  exact apart_of_disjoint ha hb hca hcb hdisjoint

/-- The addresses of a page have its path. -/
theorem Valid.path_eq (h : c.Valid) (hk : k < c.pages) {v : U64} (hv : v.toNat ∈ c.pageSpan k) :
    path v (pageSizeToDepth c.pageType) = c.pagePath k := by
  obtain ⟨ha, hca, hspan⟩ := h.page hk
  rw [← hspan] at hv
  refine (path_eq_page_iff ha hca ?_).mpr hv
  rw [hspan] at hv
  exact h.canonical _ (pageSpan_subset hk hv)

/-- Every address of the region lies in a page. -/
theorem mem_span_iff {a : Nat} : a ∈ c.span ↔ ∃ k < c.pages, a ∈ c.pageSpan k :=
  Span.mem_mul_iff c.pageType.bytes_pos

/-- The entry that is written is the one it should be. -/
theorem pageEntry_eq : pageEntry c.pageType (c.physical k) c.additionalFlags = c.entry k := by
  have hflags : ∀ x : U64, VirtualPageMasks.pagePresent ||| VirtualPageMasks.pageWritable ||| x =
      x ||| VirtualPageMasks.pagePresent ||| VirtualPageMasks.pageWritable := by
    intro x
    rw [BitVec.or_comm, BitVec.or_assoc]
  rw [pageEntry, entry, hflags]
  cases c.pageType with
  | basePage => simp
  | largePage => simp
  | hugePage => simp

theorem virt_succ (k : Nat) : c.virt + BitVec.ofNat 64 k * c.pageType.value + c.pageType.value =
    c.virt + BitVec.ofNat 64 (k + 1) * c.pageType.value := by
  rw [BitVec.ofNat_add, BitVec.add_mul, BitVec.one_mul, BitVec.add_assoc]

theorem physical_succ (k : Nat) : c.physical k + c.pageType.value = c.physical (k + 1) := by
  rw [physical, physical, BitVec.ofNat_add, BitVec.add_mul, BitVec.one_mul, BitVec.add_assoc]

end MapCall

/-! ## Mapping regions -/

section Regions

variable {σ : Type} {allocate4KiBPage : U64 → EStateM Fault σ U64} {avoids : σ → Set U64 → Prop}
  {clean : σ → Prop} {s s' : Paging σ} {r : Radix (BitVec 9) U64 U64} {c : MapCall}
  {virt physical virtualEnd flags : U64} {pageType : PageSize} {k steps : Nat} {u : Unit}

/-- One step of the outer loop maps a page, where the loop goes on. -/
theorem mapPages_succ (hlt : virt < virtualEnd) :
    mapPages allocate4KiBPage pageType flags virtualEnd (steps + 1) virt physical s = .ok u s' ↔
      ∃ s₁, mapPage allocate4KiBPage virt (pageEntry pageType physical flags)
          (pageSizeToDepth pageType) jumboPageSize s.level4PageTable s = .ok () s₁ ∧
        mapPages allocate4KiBPage pageType flags virtualEnd steps (virt + pageType.value)
          (physical + pageType.value) s₁ = .ok u s' := by
  rw [mapPages, if_pos hlt]
  simp only [bind_eq_ok, get_eq_ok]
  constructor
  · rintro ⟨_, _, ⟨rfl, rfl⟩, _, s₁, hpage, hrest⟩
    exact ⟨s₁, hpage, hrest⟩
  · rintro ⟨s₁, hpage, hrest⟩
    exact ⟨s, s, ⟨rfl, rfl⟩, (), s₁, hpage, hrest⟩

theorem HandsOutFrames.clean_mapPages (hout : HandsOutFrames allocate4KiBPage avoids clean)
    (hrun : mapPages allocate4KiBPage pageType flags virtualEnd steps virt physical s = .ok u s')
    (hclean : clean s'.allocator) : clean s.allocator := by
  induction steps generalizing virt physical s with
  | zero =>
    obtain ⟨-, rfl⟩ := pure_eq_ok.mp hrun
    exact hclean
  | succ steps ih =>
    by_cases hlt : virt < virtualEnd
    · obtain ⟨s₁, hpage, hrest⟩ := (mapPages_succ hlt).mp hrun
      exact hout.clean_mapPage hpage (ih hrest)
    · rw [mapPages, if_neg hlt] at hrun
      obtain ⟨-, rfl⟩ := pure_eq_ok.mp hrun
      exact hclean

/-- The pages of a call from one on, as leaves of the tree. -/
def MapCall.LeavesFrom (c : MapCall) (k : Nat) (p : List (BitVec 9)) (e : U64) : Prop :=
  ∃ j, k ≤ j ∧ j < c.pages ∧ p = c.pagePath j ∧ e = c.entry j

/-- The outer loop grows the tree by the pages that are left, and writes in its tables only. -/
theorem Mapped.mapPages (hout : HandsOutFrames allocate4KiBPage avoids clean) (hc : c.Valid)
    (hk : k + steps = c.pages) (h : Mapped avoids s r) (hpruned : r.Pruned)
    (hapart : ∀ j, k ≤ j → j < c.pages → ∀ p, (r.leaf p).isSome → Apart p (c.pagePath j))
    (hrun : mapPages allocate4KiBPage c.pageType c.additionalFlags
      (c.virt + c.pageType.value * c.memory.numberOfPages) steps
      (c.virt + BitVec.ofNat 64 k * c.pageType.value) (c.physical k) s = .ok u s')
    (hclean : clean s'.allocator) :
    ∃ r', GrownBy r r' (c.LeavesFrom k) ∧ r'.Pruned ∧ Mapped avoids s' r' ∧
      s'.level4PageTable = s.level4PageTable ∧ SameOutside r'.tables s.words s'.words := by
  induction steps generalizing k s r with
  | zero =>
    obtain ⟨-, rfl⟩ := pure_eq_ok.mp hrun
    refine ⟨r, (GrownBy.refl r).congr fun p e => ?_, hpruned, h, rfl, .refl⟩
    constructor
    · exact False.elim
    · rintro ⟨j, hkj, hj, -⟩
      omega
  | succ steps ih =>
    have hend : (c.virt + c.pageType.value * c.memory.numberOfPages).toNat =
        c.virt.toNat + c.pages * c.pageType.bytes := by
      rw [← hc.toNat_page le_rfl, MapCall.pages, BitVec.ofNat_toNat, BitVec.setWidth_eq,
        BitVec.mul_comm]
    have hlt : c.virt + BitVec.ofNat 64 k * c.pageType.value <
        c.virt + c.pageType.value * c.memory.numberOfPages := by
      have hmul := Nat.mul_lt_mul_of_pos_right (show k < c.pages by omega) c.pageType.bytes_pos
      rw [BitVec.lt_def, hend, hc.toNat_page (by omega)]
      omega
    obtain ⟨s₁, hpage, hrest⟩ := (mapPages_succ hlt).mp hrun
    rw [MapCall.pageEntry_eq] at hpage
    have hextended : c.pageType ≠ .basePage → Extended (c.entry k) := fun hbase =>
      MapCall.pageEntry_eq ▸ extended_pageEntry hbase _ _
    have hdepth := two_le_pageSizeToDepth c.pageType
    have hroom := hapart k le_rfl (by omega)
    obtain ⟨r₁, hgrown, hmapped, hroot, hsame⟩ := h.mapPage hout hextended (show 0 + _ = _ by omega)
      (by omega) h.directory.root_eq
      (fun l hl => leaf_eq_none_of_apart hroom (path_suffix hl.le))
      (hpruned.table_eq_none (fun hnil => by
        have hlength := congrArg List.length hnil
        rw [length_path] at hlength
        exact absurd hlength (by simp only [List.length_nil]; omega)) hroom)
      hpage (hout.clean_mapPages hrest hclean)
    rw [MapCall.virt_succ, MapCall.physical_succ] at hrest
    have hapart' : ∀ j, k + 1 ≤ j → j < c.pages → ∀ p, (r₁.leaf p).isSome →
        Apart p (c.pagePath j) := by
      intro j hkj hj p hp
      obtain ⟨e, he⟩ := Option.isSome_iff_exists.mp hp
      rcases hgrown.leaf_cases he with ⟨rfl, -⟩ | hold
      · exact hc.apart hc (by omega) hj (MapCall.pageSpan_disjoint (by omega))
      · exact hapart j (by omega) hj p (by rw [hold]; rfl)
    obtain ⟨r', hgrownBy, hpruned', hmapped', hroot', hsame'⟩ := ih (by omega) hmapped
      (hgrown.pruned hpruned) hapart' hrest
    refine ⟨r', ((hgrown.grownBy (leaf_eq_none_of_apart hroom List.suffix_rfl)).trans
      hgrownBy).congr fun p e => ?_, hpruned', hmapped', hroot'.trans hroot,
      hsame.trans hsame' fun _ hx => hx.imp fun _ => hgrownBy.kept⟩
    constructor
    · rintro (⟨rfl, rfl⟩ | ⟨j, hkj, hj, hp⟩)
      · exact ⟨k, le_rfl, by omega, rfl, rfl⟩
      · exact ⟨j, by omega, hj, hp⟩
    · rintro ⟨j, hkj, hj, rfl, rfl⟩
      rcases Nat.eq_or_lt_of_le hkj with rfl | hlt
      · exact .inl ⟨rfl, rfl⟩
      · exact .inr ⟨j, hlt, hj, rfl, rfl⟩

/-- The assertions of a call that returns held. -/
theorem mapVirtualRegionWithFlags_eq_ok {memory : PagedMemory}
    (hrun : mapVirtualRegionWithFlags allocate4KiBPage virt memory pageType flags s = .ok u s') :
    mapPages allocate4KiBPage pageType flags (virt + pageType.value * memory.numberOfPages)
      memory.numberOfPages.toNat virt memory.pageStart s = .ok u s' := by
  simp only [mapVirtualRegionWithFlags, bind_eq_ok, get_eq_ok, assert_eq_ok] at hrun
  obtain ⟨_, _, ⟨rfl, rfl⟩, _, _, ⟨-, rfl⟩, _, _, ⟨-, rfl⟩, _, _, ⟨-, rfl⟩, _, _, ⟨-, rfl⟩,
    hpages⟩ := hrun
  exact hpages

variable (allocate4KiBPage) in
/-- The call. -/
def MapCall.run (c : MapCall) : Pager σ Unit :=
  mapVirtualRegionWithFlags allocate4KiBPage c.virt c.memory c.pageType c.additionalFlags

/-- A call grows the tree by its pages, and writes in its tables only. -/
theorem Mapped.run (hout : HandsOutFrames allocate4KiBPage avoids clean) (hc : c.Valid)
    (h : Mapped avoids s r) (hpruned : r.Pruned)
    (hapart : ∀ j < c.pages, ∀ p, (r.leaf p).isSome → Apart p (c.pagePath j))
    (hrun : c.run allocate4KiBPage s = .ok u s') (hclean : clean s'.allocator) :
    ∃ r', GrownBy r r' (c.LeavesFrom 0) ∧ r'.Pruned ∧ Mapped avoids s' r' ∧
      s'.level4PageTable = s.level4PageTable ∧ SameOutside r'.tables s.words s'.words := by
  have hvirt : c.virt + BitVec.ofNat 64 0 * c.pageType.value = c.virt := by simp
  have hphysical : c.physical 0 = c.memory.pageStart := by simp [MapCall.physical]
  refine h.mapPages (u := u) hout hc (Nat.zero_add _) hpruned (fun j _ => hapart j) ?_ hclean
  rw [hvirt, hphysical]
  exact mapVirtualRegionWithFlags_eq_ok hrun

variable (allocate4KiBPage) in
/-- Calls one after the other. -/
def mapRegions : List MapCall → Pager σ Unit
  | [] => return ()
  | c :: calls => do
    c.run allocate4KiBPage
    mapRegions calls

/-- The pages of calls, as leaves of the tree. -/
def Leaves (calls : List MapCall) (p : List (BitVec 9)) (e : U64) : Prop :=
  ∃ c ∈ calls, c.LeavesFrom 0 p e

/-- A state that is clean after the calls was clean before them. -/
theorem HandsOutFrames.clean_mapRegions (hout : HandsOutFrames allocate4KiBPage avoids clean)
    {calls : List MapCall} (hrun : mapRegions allocate4KiBPage calls s = .ok u s')
    (hclean : clean s'.allocator) : clean s.allocator := by
  induction calls generalizing s with
  | nil =>
    obtain ⟨-, rfl⟩ := pure_eq_ok.mp hrun
    exact hclean
  | cons c calls ih =>
    rw [mapRegions, bind_eq_ok] at hrun
    obtain ⟨_, s₁, hcall, hrest⟩ := hrun
    exact hout.clean_mapPages (mapVirtualRegionWithFlags_eq_ok hcall) (ih hrest)

/-- Calls on regions that do not overlap grow the tree by all their pages, and write in its tables
only. -/
theorem Mapped.mapRegions (hout : HandsOutFrames allocate4KiBPage avoids clean)
    {calls : List MapCall} (hvalid : ∀ c ∈ calls, c.Valid)
    (hdisjoint : calls.Pairwise fun c d => c.span.Disjoint d.span)
    (h : Mapped avoids s r) (hpruned : r.Pruned)
    (hapart : ∀ c ∈ calls, ∀ j < c.pages, ∀ p, (r.leaf p).isSome → Apart p (c.pagePath j))
    (hrun : mapRegions allocate4KiBPage calls s = .ok u s') (hclean : clean s'.allocator) :
    ∃ r', GrownBy r r' (Leaves calls) ∧ r'.Pruned ∧ Mapped avoids s' r' ∧
      s'.level4PageTable = s.level4PageTable ∧ SameOutside r'.tables s.words s'.words := by
  induction calls generalizing s r with
  | nil =>
    obtain ⟨-, rfl⟩ := pure_eq_ok.mp hrun
    refine ⟨r, (GrownBy.refl r).congr fun p e => ?_, hpruned, h, rfl, .refl⟩
    simp [Leaves]
  | cons c calls ih =>
    rw [mapRegions, bind_eq_ok] at hrun
    obtain ⟨_, s₁, hcall, hrest⟩ := hrun
    rw [List.forall_mem_cons] at hvalid hapart
    rw [List.pairwise_cons] at hdisjoint
    obtain ⟨r₁, hgrown, hpruned₁, hmapped, hroot, hsame⟩ :=
      h.run hout hvalid.1 hpruned hapart.1 hcall (hout.clean_mapRegions hrest hclean)
    have hapart' : ∀ d ∈ calls, ∀ j < d.pages, ∀ p, (r₁.leaf p).isSome →
        Apart p (d.pagePath j) := by
      intro d hd j hj p hp
      obtain ⟨e, he⟩ := Option.isSome_iff_exists.mp hp
      rcases (hgrown.leaf_iff p e).mp he with hold | ⟨i, -, hi, rfl, -⟩
      · exact hapart.2 d hd j hj p (by rw [hold]; rfl)
      · exact hvalid.1.apart (hvalid.2 d hd) hi hj fun a ha ha' =>
          hdisjoint.1 d hd a (MapCall.pageSpan_subset hi ha) (MapCall.pageSpan_subset hj ha')
    obtain ⟨r', hgrown', hpruned', hmapped', hroot', hsame'⟩ :=
      ih hvalid.2 hdisjoint.2 hmapped hpruned₁ hapart' hrest
    refine ⟨r', (hgrown.trans hgrown').congr fun p e => ?_, hpruned', hmapped',
      hroot'.trans hroot, hsame.trans hsame' fun _ hx => hx.imp fun _ => hgrown'.kept⟩
    simp only [Leaves, List.exists_mem_cons_iff]

/-- The tree of a level-4 table without entries. -/
def emptyRadix (root : U64) : Radix (BitVec 9) U64 U64 where
  table p := if p = [] then some root else none
  leaf _ := none

/-- A cleared level-4 table holds the empty tree. -/
theorem Directory.of_zero {words : U64 → U64} {root : U64} (hroot : pageFrameSize ∣ root.toNat)
    (hzero : ∀ i : BitVec 9, words (entryAddress root (i.setWidth 64)) = 0) :
    Directory words root (emptyRadix root) := by
  have htable : ∀ {p t}, (emptyRadix root).table p = some t → p = [] ∧ t = root := by
    intro p t hp
    simp only [emptyRadix] at hp
    split at hp
    · exact ⟨‹_›, (Option.some.inj hp).symm⟩
    · cases hp
  refine ⟨⟨?_, ?_, ?_, fun _ => rfl, ?_⟩, rfl, ?_, ?_⟩
  · intro p t hp i
    obtain ⟨rfl, rfl⟩ := htable hp
    exact hzero i
  · intro i p hp
    obtain ⟨t, ht⟩ := Option.isSome_iff_exists.mp hp
    exact absurd (htable ht).1 (by simp)
  · intro i p hp
    cases hp
  · intro p q t hp hq
    exact (htable hp).1.trans (htable hq).1.symm
  · intro p t hp
    exact (htable hp).2 ▸ hroot
  · intro p e hp
    cases hp

theorem emptyRadix_pruned (root : U64) : (emptyRadix root).Pruned := by
  intro p hp
  by_cases hnil : p = []
  · exact .inl hnil
  · simp [emptyRadix, hnil] at hp

theorem tables_emptyRadix (root : U64) : (emptyRadix root).tables = {root} := by
  ext t
  simp only [tables, emptyRadix, Set.mem_ofPred_eq, Set.mem_singleton_iff]
  constructor
  · rintro ⟨p, hp⟩
    split at hp
    · exact (Option.some.inj hp).symm
    · cases hp
  · rintro rfl
    exact ⟨[], rfl⟩

/-- The page of a call among the leaves of the tree is what is looked up. -/
theorem Mapped.getMappedPage_eq {calls : List MapCall} (h : Mapped avoids s r)
    (hleaves : ∀ p e, Leaves calls p e → r.leaf p = some e) (hc : c ∈ calls) (hvalid : c.Valid)
    (hk : k < c.pages) {v : U64} (hv : v.toNat ∈ c.pageSpan k) :
    getMappedPage s.words s.level4PageTable v = ⟨c.entry k, c.pageType.value⟩ := by
  apply h.directory.getMappedPage_eq
  rw [hvalid.path_eq hk hv]
  exact hleaves _ _ ⟨c, hc, k, Nat.zero_le k, hk, rfl, rfl⟩

/-- Every address of a mapped page is looked up with its page size and entry, and later
calls change nothing about the addresses that were mapped before them. -/
theorem getMappedPage_of_mapped {earlier later : List MapCall} {s₁ s₂ : Paging σ}
    (hout : HandsOutFrames allocate4KiBPage avoids fun _ => True)
    (hvalid : ∀ c ∈ earlier ++ later, c.Valid)
    (hdisjoint : (earlier ++ later).Pairwise fun c d => c.span.Disjoint d.span)
    (hroot : pageFrameSize ∣ s.level4PageTable.toNat)
    (hzero : ∀ i : BitVec 9, s.words (entryAddress s.level4PageTable (i.setWidth 64)) = 0)
    (havoids : avoids s.allocator {s.level4PageTable})
    (hearlier : mapRegions allocate4KiBPage earlier s = .ok () s₁)
    (hlater : mapRegions allocate4KiBPage later s₁ = .ok () s₂) :
    (∀ c ∈ earlier ++ later, ∀ k < c.pages, ∀ v : U64, v.toNat ∈ c.pageSpan k →
      getMappedPage s₂.words s₂.level4PageTable v = ⟨c.entry k, c.pageType.value⟩) ∧
    ∀ c ∈ earlier, ∀ v : U64, v.toNat ∈ c.span →
      getMappedPage s₂.words s₂.level4PageTable v =
        getMappedPage s₁.words s₁.level4PageTable v := by
  have hempty : Mapped avoids s (emptyRadix s.level4PageTable) :=
    ⟨.of_zero hroot hzero, by rwa [tables_emptyRadix]⟩
  obtain ⟨hdisjoint₁, hdisjoint₂, hacross⟩ := List.pairwise_append.mp hdisjoint
  have hvalid₁ : ∀ c ∈ earlier, c.Valid := fun c hc => hvalid c (List.mem_append_left _ hc)
  have hvalid₂ : ∀ c ∈ later, c.Valid := fun c hc => hvalid c (List.mem_append_right _ hc)
  obtain ⟨r₁, hgrown₁, hpruned₁, hmapped₁, -⟩ := hempty.mapRegions hout hvalid₁ hdisjoint₁
    (emptyRadix_pruned _) (fun _ _ _ _ _ hp => by cases hp) hearlier trivial
  have hleaf₁ : ∀ p e, r₁.leaf p = some e ↔ Leaves earlier p e := by
    intro p e
    rw [hgrown₁.leaf_iff]
    exact or_iff_right (by simp [emptyRadix])
  have hapart : ∀ d ∈ later, ∀ j < d.pages, ∀ p, (r₁.leaf p).isSome →
      Apart p (d.pagePath j) := by
    intro d hd j hj p hp
    obtain ⟨e, he⟩ := Option.isSome_iff_exists.mp hp
    obtain ⟨c, hc, i, -, hi, rfl, -⟩ := (hleaf₁ p e).mp he
    exact (hvalid₁ c hc).apart (hvalid₂ d hd) hi hj fun a ha ha' =>
      hacross c hc d hd a (MapCall.pageSpan_subset hi ha) (MapCall.pageSpan_subset hj ha')
  obtain ⟨r₂, hgrown₂, -, hmapped₂, -⟩ :=
    hmapped₁.mapRegions hout hvalid₂ hdisjoint₂ hpruned₁ hapart hlater trivial
  have hleaf₂ : ∀ p e, Leaves (earlier ++ later) p e → r₂.leaf p = some e := by
    rintro p e ⟨c, hc, hp⟩
    rw [hgrown₂.leaf_iff, hleaf₁]
    rcases List.mem_append.mp hc with hc | hc
    · exact .inl ⟨c, hc, hp⟩
    · exact .inr ⟨c, hc, hp⟩
  refine ⟨fun c hc k hk v hv => hmapped₂.getMappedPage_eq hleaf₂ hc (hvalid c hc) hk hv, ?_⟩
  intro c hc v hv
  obtain ⟨k, hk, hv⟩ := MapCall.mem_span_iff.mp hv
  rw [hmapped₂.getMappedPage_eq hleaf₂ (List.mem_append_left _ hc) (hvalid₁ c hc) hk hv,
    hmapped₁.getMappedPage_eq (fun p e => (hleaf₁ p e).mpr) hc (hvalid₁ c hc) hk hv]

end Regions

/-- An allocator that counts up to 1 MiB. -/
def countingAllocator (numPages : U64) : EStateM Fault U64 U64 := do
  let next ← get
  if next < 0x100000 then
    set (next + 4096 * numPages)
    return next
  else throw .noMorePhysicalMemory

theorem handsOutFrames_countingAllocator : HandsOutFrames countingAllocator
    (fun next T => pageFrameSize ∣ next.toNat ∧ ∀ t ∈ T, t < next) fun _ => True := by
  refine ⟨?_, fun _ _ => trivial⟩
  rintro t t' T page ⟨haligned, hbelow⟩ hrun -
  simp only [countingAllocator, bind_eq_ok, get_eq_ok] at hrun
  obtain ⟨_, _, ⟨rfl, rfl⟩, hrun⟩ := hrun
  split at hrun
  · rename_i hlt
    simp only [bind_eq_ok, set_eq_ok, pure_eq_ok] at hrun
    obtain ⟨_, _, rfl, rfl, rfl⟩ := hrun
    have hlt' : t.toNat < 0x100000 := hlt
    have hnext : (t + 4096 * 1).toNat = t.toNat + 4096 := by
      rw [BitVec.toNat_add]
      exact Nat.mod_eq_of_lt (by
        change _ + 4096 < _
        omega)
    refine ⟨haligned, fun hin => ?_, ?_, ?_⟩
    · have := hbelow t hin
      exact absurd this (BitVec.lt_irrefl t)
    · rw [hnext]
      exact Nat.dvd_add haligned (dvd_refl _)
    · rintro x (rfl | hx)
      · rw [BitVec.lt_def, hnext]
        omega
      · have := hbelow x hx
        rw [BitVec.lt_def] at this ⊢
        omega
  · exact (throw_eq_ok.mp hrun).elim

/-- Two small pages, then a large one in the same table. -/
theorem getMappedPage_of_mapped_three : ∃ s₁ s₂,
    mapRegions countingAllocator [⟨0xffff800000000000, ⟨0x400000, 2⟩, .basePage, 0⟩]
      ⟨fun _ => 0, 0x1000, 0x2000⟩ = .ok () s₁ ∧
    mapRegions countingAllocator [⟨0xffff800000200000, ⟨0x600000, 1⟩, .largePage, 0x10⟩] s₁ =
      .ok () s₂ ∧
    getMappedPage s₂.words s₂.level4PageTable 0xffff800000201234 = ⟨0x600093, 0x200000⟩ := by
  obtain ⟨_, s₂, hrun, -⟩ : ReturnsWith ((do
      mapRegions countingAllocator [⟨0xffff800000000000, ⟨0x400000, 2⟩, .basePage, 0⟩]
      mapRegions countingAllocator [⟨0xffff800000200000, ⟨0x600000, 1⟩, .largePage, 0x10⟩])
      ⟨fun _ => 0, 0x1000, 0x2000⟩) fun _ s₂ => s₂.level4PageTable = 0x1000 := by
    decide +kernel
  obtain ⟨_, s₁, hearlier, hlater⟩ := bind_eq_ok.mp hrun
  refine ⟨s₁, s₂, hearlier, hlater, ?_⟩
  have hmapped := getMappedPage_of_mapped handsOutFrames_countingAllocator (by
      simp only [List.cons_append, List.nil_append, List.forall_mem_cons]
      refine ⟨⟨by decide, by decide, fun a ha => .inr ?_⟩,
        ⟨by decide, by decide, fun a ha => .inr ?_⟩, fun _ h => absurd h (by simp)⟩
      · exact le_trans (by decide) ha.1
      · exact le_trans (by decide) ha.1)
    (by
      simp only [List.cons_append, List.nil_append, List.pairwise_cons, List.mem_singleton,
        forall_eq, List.not_mem_nil, false_imp_iff, implies_true, List.Pairwise.nil, and_true]
      exact Span.disjoint_of_stop_le (by decide))
    (by decide) (fun _ => rfl) ⟨by decide, fun t ht => by
      rw [Set.mem_singleton_iff.mp ht]
      decide⟩ hearlier hlater
  exact hmapped.1 ⟨0xffff800000200000, ⟨0x600000, 1⟩, .largePage, 0x10⟩ (by simp) 0 (by decide)
    0xffff800000201234 (by decide)

end Homegrown.Memory
