import Homegrown.Core.Loop
import Homegrown.Memory.Policy.Allocation
import Homegrown.Memory.Virtual.Frame

/-!
# Freeing mapped memory

`freeMapped` walks the pages of a range by the page sizes it looks up, and frees the frames
behind them, those that follow each other in one call. What it asks and what it frees is
recorded here; a run on the memory itself makes the recorded calls. For every range that is
not empty it frees the pages that start in the range. It looks up the first address before it
compares the start with the end, so it also asks for one, and may free a page, where the range
is empty.
-/

namespace Homegrown.Memory

/-- The local variables of the loop of `freeMapped`. -/
structure FreeWalk where
  start : U64
  pagedEntry : PagedMemory
  previousPageSize : U64
  nextPhysical : U64

section FreeMapped

variable {σ : Type} (getMappedPage : U64 → EStateM Fault σ MappedPage)
  (freePhysicalPage : PagedMemory → U64 → EStateM Fault σ Unit)

/-- The walk behind its first page. -/
def FreeWalk.first (start : U64) (page : MappedPage) : FreeWalk :=
  let physicalOfPage := getPhysicalAddressFrame page.entry
  ⟨start + page.pageSize, ⟨physicalOfPage, 1⟩, page.pageSize, physicalOfPage + page.pageSize⟩

/-- The loop of `freeMapped`, one round. -/
def freeMappedRound (stop : U64) (w : FreeWalk) : EStateM Fault σ (FreeWalk ⊕ FreeWalk) := do
  if w.start < stop then
    let page ← getMappedPage w.start
    if getPhysicalAddressFrame page.entry = w.nextPhysical ∧ w.previousPageSize = page.pageSize then
      return .inl { w with
        start := w.start + page.pageSize
        pagedEntry := { w.pagedEntry with numberOfPages := w.pagedEntry.numberOfPages + 1 }
        nextPhysical := w.nextPhysical + w.previousPageSize }
    else
      freePhysicalPage w.pagedEntry w.previousPageSize
      return .inl (FreeWalk.first w.start page)
  else return .inr w

/-- `freeMapped`, from the first page on. -/
def freeMappedFrom (rounds : Nat) (stop start : U64) (page : MappedPage) :
    EStateM Fault σ Unit := do
  let w ← loop .outOfFuel (freeMappedRound getMappedPage freePhysicalPage stop) rounds
    (FreeWalk.first start page)
  freePhysicalPage w.pagedEntry w.previousPageSize

/-- `freeMapped`. -/
def freeMapped (rounds : Nat) (start bytes : U64) : EStateM Fault σ Unit := do
  let stop := start + bytes
  let page ← getMappedPage start
  if ringRangeValue start page.pageSize ≠ 0 then
    let start := alignUpValue start page.pageSize
    if stop ≤ start then return ()
    else
      let page ← getMappedPage start
      freeMappedFrom getMappedPage freePhysicalPage rounds stop start page
  else freeMappedFrom getMappedPage freePhysicalPage rounds stop start page

end FreeMapped

/-! ## The calls of a run -/

/-- The addresses a run has asked for, and the regions it has freed, with their page sizes. -/
structure FreeCalls where
  asked : List U64
  freed : List (PagedMemory × U64)

section Recorded

variable (lookup : U64 → MappedPage)

/-- A recorded look-up. -/
def FreeCalls.ask (address : U64) : EStateM Fault FreeCalls MappedPage := do
  modify fun c => { c with asked := c.asked ++ [address] }
  return lookup address

/-- A recorded call of `freePhysicalPage`. -/
def FreeCalls.free (memory : PagedMemory) (pageSize : U64) : EStateM Fault FreeCalls Unit :=
  modify fun c => { c with freed := c.freed ++ [(memory, pageSize)] }

/-- The calls of `freeMapped`. -/
def freeMappedCalls (rounds : Nat) (start bytes : U64) : EStateM Fault FreeCalls Unit :=
  freeMapped (FreeCalls.ask lookup) FreeCalls.free rounds start bytes

end Recorded

/-- A look-up in the page tables. -/
def lookUpPage (virt : U64) : Policy MappedPage := do
  let m ← get
  return getMappedPage m.paging.words m.paging.level4PageTable virt

/-- `freePhysicalPage`, with the page size as a value. -/
def freePageOfSize (depth : Nat) (memory : PagedMemory) (pageSize : U64) : Policy Unit :=
  match PageSize.ofValue? pageSize with
  | none => throw .assertion
  | some s => onPhysical (freePhysicalPage depth memory s)

/-- The recorded calls, made one after the other. -/
def freeRegions (depth : Nat) : List (PagedMemory × U64) → Policy Unit
  | [] => return ()
  | (memory, pageSize) :: freed => do
    freePageOfSize depth memory pageSize
    freeRegions depth freed

section Replay

variable {α β : Type} {depth : Nat} {words : U64 → U64} {root : U64}

/-- The page tables of a memory. -/
def MappedMemory.HasTables (m : MappedMemory) (words : U64 → U64) (root : U64) : Prop :=
  m.paging.words = words ∧ m.paging.level4PageTable = root

/-- Regions are freed one after the other. -/
theorem freeRegions_append (freed freed' : List (PagedMemory × U64)) (m : MappedMemory) :
    freeRegions depth (freed ++ freed') m =
      (do freeRegions depth freed; freeRegions depth freed') m := by
  induction freed generalizing m with
  | nil => rfl
  | cons f freed ih =>
    rw [List.cons_append, freeRegions, freeRegions]
    cases hfirst : freePageOfSize depth f.1 f.2 m with
    | ok u m₁ => rw [bind_of_ok hfirst, ih, bind_assoc, bind_of_ok hfirst]
    | error e m₁ => rw [bind_of_error hfirst, bind_assoc, bind_of_error hfirst]

/-- Freeing leaves the page tables as they are. -/
theorem MappedMemory.HasTables.freeRegions {m m' : MappedMemory} (h : m.HasTables words root)
    {freed : List (PagedMemory × U64)} {u : Unit}
    (hrun : Memory.freeRegions depth freed m = .ok u m') : m'.HasTables words root := by
  induction freed generalizing m with
  | nil =>
    obtain ⟨-, rfl⟩ := pure_eq_ok.mp hrun
    exact h
  | cons f freed ih =>
    rw [Memory.freeRegions, bind_eq_ok] at hrun
    obtain ⟨_, m₁, hfirst, hrest⟩ := hrun
    refine ih ?_ hrest
    cases hsize : PageSize.ofValue? f.2 with
    | none =>
      rw [freePageOfSize, hsize] at hfirst
      exact (throw_eq_ok.mp hfirst).elim
    | some s =>
      rw [freePageOfSize, hsize] at hfirst
      obtain ⟨p, -, rfl⟩ := zoom_eq_ok.mp hfirst
      exact h

/-- A program on memory makes the calls of a recorded run, and returns what that returns. -/
def Replays (depth : Nat) (words : U64 → U64) (root : U64) (x : EStateM Fault FreeCalls α)
    (y : Policy α) : Prop :=
  ∀ c a c', x c = .ok a c' → ∃ freed, c'.freed = c.freed ++ freed ∧
    ∀ m : MappedMemory, m.HasTables words root →
      y m = (do freeRegions depth freed; return a) m

theorem Replays.pure (a : α) : Replays depth words root (Pure.pure a) (Pure.pure a) := by
  intro c b c' hrun
  obtain ⟨rfl, rfl⟩ := pure_eq_ok.mp hrun
  exact ⟨[], (List.append_nil _).symm, fun m _ => rfl⟩

theorem Replays.bind {x : EStateM Fault FreeCalls α} {y : Policy α}
    {f : α → EStateM Fault FreeCalls β} {g : α → Policy β} (hx : Replays depth words root x y)
    (hf : ∀ a, Replays depth words root (f a) (g a)) :
    Replays depth words root (x >>= f) (y >>= g) := by
  intro c b c' hrun
  obtain ⟨a, c₁, hfirst, hrest⟩ := bind_eq_ok.mp hrun
  obtain ⟨freed, hfreed, hy⟩ := hx c a c₁ hfirst
  obtain ⟨freed', hfreed', hg⟩ := hf a c₁ b c' hrest
  refine ⟨freed ++ freed', by rw [hfreed', hfreed, List.append_assoc], fun m hm => ?_⟩
  have happend := @freeRegions_append depth freed freed' m
  cases hfree : freeRegions depth freed m with
  | ok u m₁ =>
    have hreturns : y m = .ok a m₁ := by rw [hy m hm, bind_of_ok hfree]; rfl
    rw [bind_of_ok hreturns, hg m₁ (hm.freeRegions hfree)]
    rw [bind_of_ok hfree] at happend
    cases hfree' : freeRegions depth freed' m₁ with
    | ok u' m₂ =>
      rw [hfree'] at happend
      rw [bind_of_ok hfree', bind_of_ok happend]
    | error e m₂ =>
      rw [hfree'] at happend
      rw [bind_of_error hfree', bind_of_error happend]
  | error e m₁ =>
    have hfails : y m = .error e m₁ := by rw [hy m hm, bind_of_error hfree]
    rw [bind_of_error hfree] at happend
    rw [bind_of_error hfails, bind_of_error happend]

theorem Replays.ask (a : U64) :
    Replays depth words root (FreeCalls.ask (getMappedPage words root) a) (lookUpPage a) := by
  rintro c page c' hrun
  cases hrun
  refine ⟨[], (List.append_nil _).symm, ?_⟩
  rintro m ⟨rfl, rfl⟩
  rfl

theorem Replays.free (memory : PagedMemory) (pageSize : U64) :
    Replays depth words root (FreeCalls.free memory pageSize)
      (freePageOfSize depth memory pageSize) := by
  rintro c u c' hrun
  cases hrun
  refine ⟨[(memory, pageSize)], rfl, fun m _ => ?_⟩
  cases hfree : freePageOfSize depth memory pageSize m with
  | ok u m₁ =>
    have hregions : freeRegions depth [(memory, pageSize)] m = .ok () m₁ := by
      rw [freeRegions, bind_of_ok hfree]
      rfl
    rw [bind_of_ok hregions]
    rfl
  | error e m₁ =>
    have hregions : freeRegions depth [(memory, pageSize)] m = .error e m₁ := by
      rw [freeRegions, bind_of_error hfree]
    rw [bind_of_error hregions]

/-- A round that asks the tables and frees replays one that records. -/
theorem Replays.round (stop : U64) (w : FreeWalk) : Replays depth words root
    (freeMappedRound (FreeCalls.ask (getMappedPage words root)) FreeCalls.free stop w)
    (freeMappedRound lookUpPage (freePageOfSize depth) stop w) := by
  unfold freeMappedRound
  split
  · refine (Replays.ask w.start).bind fun page => ?_
    split
    · exact Replays.pure _
    · exact (Replays.free _ _).bind fun _ => Replays.pure _
  · exact Replays.pure _

/-- So do all rounds. -/
theorem Replays.walk (rounds : Nat) (stop start : U64) (page : MappedPage) :
    Replays depth words root
      (freeMappedFrom (FreeCalls.ask (getMappedPage words root)) FreeCalls.free rounds stop start
        page)
      (freeMappedFrom lookUpPage (freePageOfSize depth) rounds stop start page) := by
  refine Replays.bind ?_ fun w => Replays.free _ _
  generalize FreeWalk.first start page = w
  induction rounds generalizing w with
  | zero => exact fun _ _ _ hrun => (throw_eq_ok.mp hrun).elim
  | succ rounds ih =>
    refine (Replays.round stop w).bind fun r => ?_
    cases r with
    | inl next => exact ih next
    | inr last => exact Replays.pure last

/-- On memory, `freeMapped` makes the calls that were recorded for its page tables. -/
theorem freeMapped_eq_freeRegions {rounds : Nat} {start bytes : U64} {u : Unit} {c : FreeCalls}
    {m : MappedMemory}
    (hrun : freeMappedCalls (getMappedPage m.paging.words m.paging.level4PageTable) rounds start
      bytes ⟨[], []⟩ = .ok u c) :
    freeMapped lookUpPage (freePageOfSize depth) rounds start bytes m =
      freeRegions depth c.freed m := by
  have hreplays : Replays depth m.paging.words m.paging.level4PageTable
      (freeMappedCalls (getMappedPage m.paging.words m.paging.level4PageTable) rounds start bytes)
      (freeMapped lookUpPage (freePageOfSize depth) rounds start bytes) := by
    refine (Replays.ask start).bind fun page => ?_
    dsimp only
    split
    · split
      · exact Replays.pure _
      · exact (Replays.ask _).bind fun page => Replays.walk _ _ _ _
    · exact Replays.walk _ _ _ _
  obtain ⟨freed, hfreed, hrun'⟩ := hreplays _ u c hrun
  rw [hfreed, hrun' m ⟨rfl, rfl⟩]
  exact congrFun (bind_pure (freeRegions depth freed)) m

end Replay

/-! ## Pages and their frames -/

/-- A page of the virtual addresses, and the frame behind it. -/
structure VirtualPage where
  virt : U64
  size : PageSize
  frame : U64

namespace VirtualPage

/-- The addresses of a page. -/
def span (p : VirtualPage) : Span := ⟨p.virt.toNat, p.size.bytes⟩

/-- The frame that has to be freed for a page, at the size of the page. -/
def sizedFrame (p : VirtualPage) : U64 × U64 := (p.frame, p.size.value)

theorem virt_mem_span (p : VirtualPage) : p.virt.toNat ∈ p.span := by
  have hpos := p.size.bytes_pos
  simp only [span, Span.mem_mk]
  omega

end VirtualPage

/-- The pages of a call of `mapVirtualRegion`. -/
def MapCall.virtualPages (c : MapCall) : List VirtualPage :=
  (List.range c.pages).map fun k =>
    ⟨c.virt + BitVec.ofNat 64 k * c.pageType.value, c.pageType, c.physical k⟩

/-- The frames of a freed region, each with the page size. -/
def framesOf (freed : PagedMemory × U64) : List (U64 × U64) :=
  (List.range freed.1.numberOfPages.toNat).map fun k =>
    (freed.1.pageStart + BitVec.ofNat 64 k * freed.2, freed.2)

/-- The frames of all freed regions. -/
def FreeCalls.frames (c : FreeCalls) : List (U64 × U64) := c.freed.flatMap framesOf

/-- Pages that do not overlap cover a range of addresses, and are looked up there with their
size and frame. -/
structure LaidOut (lookup : U64 → MappedPage) (pages : List VirtualPage) (range : Span) :
    Prop where
  aligned : ∀ p ∈ pages, p.size.bytes ∣ p.virt.toNat
  fits : ∀ p ∈ pages, p.virt.toNat + p.size.bytes < 2 ^ 64
  disjoint : pages.Pairwise fun p q => p.span.Disjoint q.span
  covered : ∀ a ∈ range, ∃ p ∈ pages, a ∈ p.span
  looked : ∀ p ∈ pages, ∀ a : U64, a.toNat ∈ range → a.toNat ∈ p.span →
    (lookup a).pageSize = p.size.value ∧ getPhysicalAddressFrame (lookup a).entry = p.frame

/-- The pages that start in a range. -/
def pagesStartingIn (pages : List VirtualPage) (range : Span) : List VirtualPage :=
  pages.filter fun p => decide (p.virt.toNat ∈ range)

/-- The run frees, each once and at its own size, the frames of the pages that start in the
range, and asks for addresses of the range only. -/
structure FreeCalls.Exact (c : FreeCalls) (pages : List VirtualPage) (range : Span) : Prop where
  asked : ∀ a ∈ c.asked, a.toNat ∈ range
  frames : c.frames.Perm ((pagesStartingIn pages range).map VirtualPage.sizedFrame)

section Pages

variable {lookup : U64 → MappedPage} {pages visited : List VirtualPage} {range : Span}
  {p q : VirtualPage} {x : Nat}

/-- Pages that share an address are the same page. -/
theorem LaidOut.eq_of_mem (h : LaidOut lookup pages range) (hp : p ∈ pages) (hq : q ∈ pages)
    {a : Nat} (hap : a ∈ p.span) (haq : a ∈ q.span) : p = q := by
  by_contra hne
  have hsymm : Std.Symm fun p q : VirtualPage => p.span.Disjoint q.span := ⟨fun _ _ hd => hd.symm⟩
  exact h.disjoint.forall hp hq hne a hap haq

/-- Pages that are laid out differ. -/
theorem LaidOut.nodup (h : LaidOut lookup pages range) : pages.Nodup := by
  refine h.disjoint.imp ?_
  rintro p _ hd rfl
  exact hd _ p.virt_mem_span p.virt_mem_span

/-- No page lies across an address. -/
def Boundary (pages : List VirtualPage) (x : Nat) : Prop :=
  ∀ p ∈ pages, p.virt.toNat < x → p.span.stop ≤ x

/-- Behind a page starts the next one. -/
theorem LaidOut.boundary_stop (h : LaidOut lookup pages range) (hp : p ∈ pages) :
    Boundary pages p.span.stop := by
  intro q hq hlt
  by_cases hin : q.virt.toNat ∈ p.span
  · rw [h.eq_of_mem hp hq hin q.virt_mem_span]
  · have hbelow : q.virt.toNat < p.virt.toNat := by
      simp only [VirtualPage.span, Span.mem_mk, Span.stop] at hin hlt
      omega
    by_contra hcross
    refine absurd (h.eq_of_mem hp hq p.virt_mem_span ?_) ?_
    · simp only [VirtualPage.span, Span.mem_mk, Span.stop] at hcross ⊢
      have := p.size.bytes_pos
      omega
    · rintro rfl
      exact Nat.lt_irrefl _ hbelow

/-- No page lies across the start of a page. -/
theorem LaidOut.boundary_virt (h : LaidOut lookup pages range) (hp : p ∈ pages) :
    Boundary pages p.virt.toNat := by
  intro q hq hlt
  by_contra hcross
  refine absurd (h.eq_of_mem hp hq p.virt_mem_span ?_) ?_
  · simp only [VirtualPage.span, Span.mem_mk, Span.stop] at hcross ⊢
    omega
  · rintro rfl
    exact Nat.lt_irrefl _ hlt

/-- Rounding up an address of a page does not wrap. -/
theorem LaidOut.fits_round (h : LaidOut lookup pages range) (hp : p ∈ pages)
    (hx : x ∈ p.span) : x + (2 ^ p.size.exponent - 1) < 2 ^ 64 := by
  have hfits := h.fits p hp
  have hle := p.size.bytes_le
  obtain ⟨i, hi⟩ := h.aligned p hp
  have hwhole : (2 : Nat) ^ 64 = p.size.bytes * 2 ^ (64 - p.size.exponent) := by
    cases p.size <;> norm_num [PageSize.exponent]
  have hroom : i + 1 < 2 ^ (64 - p.size.exponent) := by
    refine Nat.lt_of_mul_lt_mul_left (a := p.size.bytes) ?_
    rw [← hwhole, Nat.mul_add, Nat.mul_one, ← hi]
    exact hfits
  have hlast : p.size.bytes * (i + 1) + p.size.bytes ≤ 2 ^ 64 := by
    rw [hwhole, ← Nat.mul_succ]
    exact Nat.mul_le_mul_left _ hroom
  have hpow : 2 ^ p.size.exponent = p.size.bytes := rfl
  rw [Nat.mul_add, Nat.mul_one, ← hi] at hlast
  simp only [VirtualPage.span, Span.mem_mk] at hx
  omega

/-- At an address of the range that no page lies across, a page starts. -/
theorem LaidOut.exists_at (h : LaidOut lookup pages range) (hx : Boundary pages x)
    (hin : x ∈ range) : ∃ p ∈ pages, p.virt.toNat = x := by
  obtain ⟨p, hp, hxp⟩ := h.covered x hin
  refine ⟨p, hp, ?_⟩
  by_contra hne
  have hbound := hx p hp (by
    simp only [VirtualPage.span, Span.mem_mk] at hxp
    omega)
  simp only [VirtualPage.span, Span.mem_mk, Span.stop] at hxp hbound
  omega

end Pages

section Frames

variable {start size : U64} {n : U64}

theorem framesOf_one : framesOf (⟨start, 1⟩, size) = [(start, size)] := by
  simp [framesOf]

/-- One page more is one frame more. -/
theorem framesOf_succ (hn : n.toNat + 1 < 2 ^ 64) : framesOf (⟨start, n + 1⟩, size) =
    framesOf (⟨start, n⟩, size) ++ [(start + n * size, size)] := by
  have hsucc : (n + 1).toNat = n.toNat + 1 := by
    rw [BitVec.toNat_add]
    exact Nat.mod_eq_of_lt hn
  simp only [framesOf, hsucc, List.range_succ, List.map_append, List.map_singleton,
    BitVec.ofNat_toNat, BitVec.setWidth_eq]

theorem FreeCalls.frames_free (c : FreeCalls) (freed : PagedMemory × U64) :
    FreeCalls.frames { c with freed := c.freed ++ [freed] } = c.frames ++ framesOf freed := by
  simp [FreeCalls.frames]

end Frames

/-! ## The walk -/

section Walk

variable {lookup : U64 → MappedPage} {pages : List VirtualPage} {start bytes stop : U64}
  {range : Span} {c : FreeCalls} {w : FreeWalk} {p : VirtualPage} {page : MappedPage}

theorem ask_returns (a : U64) (c : FreeCalls) : FreeCalls.ask lookup a c =
    .ok (lookup a) { c with asked := c.asked ++ [a] } := rfl

theorem free_returns (memory : PagedMemory) (pageSize : U64) (c : FreeCalls) :
    FreeCalls.free memory pageSize c =
      .ok ⟨⟩ { c with freed := c.freed ++ [(memory, pageSize)] } := rfl

/-- The pages that were visited, in order: those of the range that start before the walk. -/
structure Visited (pages : List VirtualPage) (range : Span) (x : Nat)
    (visited : List VirtualPage) : Prop where
  nodup : visited.Nodup
  mem_iff : ∀ p, p ∈ visited ↔ p ∈ pages ∧ p.virt.toNat ∈ range ∧ p.virt.toNat < x
  boundary : Boundary pages x

/-- At the end of the range all pages that start in it were visited. -/
theorem Visited.perm {visited : List VirtualPage} {x : Nat} (h : Visited pages range x visited)
    (hnodup : pages.Nodup) (hx : range.stop ≤ x) :
    visited.Perm (pagesStartingIn pages range) := by
  refine (List.perm_ext_iff_of_nodup h.nodup (hnodup.filter _)).mpr fun p => ?_
  rw [h.mem_iff, List.mem_filter, decide_eq_true_iff]
  refine and_congr_right fun _ => and_iff_left_of_imp fun hin => ?_
  simp only [Span.mem_iff, Span.stop] at hin hx
  omega

/-- The step of the walk: the page at an address is visited, and the walk goes on behind it. -/
theorem Visited.push {visited : List VirtualPage} (hlaid : LaidOut lookup pages range)
    (h : Visited pages range p.virt.toNat visited) (hp : p ∈ pages) (hin : p.virt.toNat ∈ range) :
    Visited pages range p.span.stop (visited ++ [p]) := by
  have hpos := p.size.bytes_pos
  refine ⟨?_, fun q => ?_, hlaid.boundary_stop hp⟩
  · rw [List.nodup_append]
    refine ⟨h.nodup, List.nodup_singleton p, ?_⟩
    rintro q hq _ hmem rfl
    rw [List.mem_singleton.mp hmem, h.mem_iff] at hq
    exact Nat.lt_irrefl _ hq.2.2
  · rw [List.mem_append, List.mem_singleton, h.mem_iff]
    constructor
    · rintro (⟨hq, hqin, hlt⟩ | rfl)
      · refine ⟨hq, hqin, ?_⟩
        simp only [VirtualPage.span, Span.stop]
        omega
      · refine ⟨hp, hin, ?_⟩
        simp only [VirtualPage.span, Span.stop]
        omega
    · rintro ⟨hq, hqin, hlt⟩
      by_cases hbelow : q.virt.toNat < p.virt.toNat
      · exact .inl ⟨hq, hqin, hbelow⟩
      · refine .inr (hlaid.eq_of_mem hq hp q.virt_mem_span ?_)
        simp only [VirtualPage.span, Span.mem_mk, Span.stop] at hlt ⊢
        omega

/-- What the loop keeps: what was freed and the pages to be freed next are the frames of the
pages that were visited. -/
structure Walking (pages : List VirtualPage) (range : Span) (w : FreeWalk) (c : FreeCalls) :
    Prop where
  asked : ∀ a ∈ c.asked, a.toNat ∈ range
  visited : ∃ visited, Visited pages range w.start.toNat visited ∧
    c.frames ++ framesOf (w.pagedEntry, w.previousPageSize) = visited.map VirtualPage.sizedFrame
  next : w.nextPhysical = w.pagedEntry.pageStart + w.pagedEntry.numberOfPages * w.previousPageSize
  few : w.pagedEntry.numberOfPages.toNat * 4096 ≤ w.start.toNat

theorem toNat_add_page (hlaid : LaidOut lookup pages range) (hp : p ∈ pages) :
    (p.virt + p.size.value).toNat = p.span.stop := by
  rw [BitVec.toNat_add, PageSize.toNat_value, Nat.mod_eq_of_lt (hlaid.fits p hp)]
  rfl

theorem four_kib_le (s : PageSize) : 4096 ≤ s.bytes := by
  cases s <;> decide

/-- The first page of a walk, or the first one of a region to be freed. -/
theorem Walking.first {visited : List VirtualPage} (hlaid : LaidOut lookup pages range)
    (hp : p ∈ pages) (hin : p.virt.toNat ∈ range)
    (hasked : ∀ a ∈ c.asked, a.toNat ∈ range)
    (hvisited : Visited pages range p.virt.toNat visited)
    (hframes : c.frames = visited.map VirtualPage.sizedFrame) :
    Walking pages range (FreeWalk.first p.virt (lookup p.virt)) c := by
  obtain ⟨hsize, hframe⟩ := hlaid.looked p hp p.virt hin p.virt_mem_span
  have hstart : (FreeWalk.first p.virt (lookup p.virt)).start.toNat = p.span.stop := by
    rw [← toNat_add_page hlaid hp, ← hsize]
    rfl
  refine ⟨hasked, ⟨visited ++ [p], ?_, ?_⟩, ?_, ?_⟩
  · rw [hstart]
    exact hvisited.push hlaid hp hin
  · rw [List.map_append, List.map_singleton, ← hframes, VirtualPage.sizedFrame, ← hframe, ← hsize]
    exact congrArg (c.frames ++ ·) framesOf_one
  · simp [FreeWalk.first]
  · have hbytes := four_kib_le p.size
    rw [hstart]
    simp only [VirtualPage.span, Span.stop]
    change 1 * 4096 ≤ _
    omega

/-- The step lemma: a round visits one page more. -/
theorem freeMappedRound_returns (hlaid : LaidOut lookup pages ⟨start.toNat, bytes.toNat⟩)
    (hstop : stop.toNat = start.toNat + bytes.toNat) (hstart : start ≤ w.start)
    (h : Walking pages ⟨start.toNat, bytes.toNat⟩ w c) :
    ReturnsWith (freeMappedRound (FreeCalls.ask lookup) FreeCalls.free stop w c)
      fun r c' => match r with
        | .inl next => (start ≤ next.start ∧
            Walking pages ⟨start.toNat, bytes.toNat⟩ next c') ∧
            stop.toNat - next.start.toNat < stop.toNat - w.start.toNat
        | .inr last => stop ≤ last.start ∧ Walking pages ⟨start.toNat, bytes.toNat⟩ last c' := by
  obtain ⟨x, ⟨pageStart, numberOfPages⟩, previous, next⟩ := w
  unfold freeMappedRound
  by_cases hlt : x < stop
  · rw [if_pos hlt, bind_of_ok (ask_returns x c)]
    rw [BitVec.lt_def] at hlt
    change start.toNat ≤ x.toNat at hstart
    obtain ⟨visited, hvisited, hframes⟩ := h.visited
    have hin : x.toNat ∈ Span.mk start.toNat bytes.toNat := by
      rw [Span.mem_mk]
      omega
    obtain ⟨p, hp, hvirt⟩ := hlaid.exists_at hvisited.boundary hin
    obtain rfl : p.virt = x := BitVec.eq_of_toNat_eq hvirt
    obtain ⟨hsize, hframe⟩ := hlaid.looked p hp p.virt hin p.virt_mem_span
    have hasked : ∀ a ∈ c.asked ++ [p.virt], a.toNat ∈ Span.mk start.toNat bytes.toNat := by
      simpa only [List.forall_mem_append, List.forall_mem_singleton] using ⟨h.asked, hin⟩
    have hafter := toNat_add_page hlaid hp
    have hbytes := four_kib_le p.size
    have hpast : p.span.stop = p.virt.toNat + p.size.bytes := rfl
    rw [← hsize] at hafter
    split
    · -- The frame follows the one before it, and has its size.
      rename_i hfollows
      obtain ⟨hframe', hprevious⟩ := hfollows
      obtain rfl : previous = p.size.value := hprevious.trans hsize
      have hfew : numberOfPages.toNat * 4096 ≤ p.virt.toNat := h.few
      have hvirt := p.virt.isLt
      have hnext : next = pageStart + numberOfPages * p.size.value := h.next
      have hmore : (numberOfPages + 1).toNat = numberOfPages.toNat + 1 := by
        rw [BitVec.toNat_add]
        exact Nat.mod_eq_of_lt (show _ + 1 < _ by omega)
      refine .pure ⟨⟨?_, hasked, ⟨visited ++ [p], ?_, ?_⟩, ?_, ?_⟩, ?_⟩
      · rw [BitVec.le_def]
        change _ ≤ (p.virt + (lookup p.virt).pageSize).toNat
        omega
      · change Visited _ _ (p.virt + (lookup p.virt).pageSize).toNat _
        rw [hafter]
        exact hvisited.push hlaid hp hin
      · change c.frames ++ framesOf (⟨pageStart, numberOfPages + 1⟩, _) = _
        rw [framesOf_succ (by omega), ← List.append_assoc, hframes, List.map_append,
          List.map_singleton, VirtualPage.sizedFrame, ← hframe, hframe', hnext]
      · have hmul : (numberOfPages + 1) * p.size.value =
            numberOfPages * p.size.value + p.size.value := by
          rw [BitVec.add_mul]
          exact congrArg _ (BitVec.one_mul _)
        dsimp only
        rw [hnext, hmul, BitVec.add_assoc]
      · change (numberOfPages + 1).toNat * 4096 ≤ (p.virt + (lookup p.virt).pageSize).toNat
        rw [hmore, hafter, hpast, Nat.add_mul, Nat.one_mul]
        exact Nat.add_le_add hfew hbytes
      · change _ - (p.virt + (lookup p.virt).pageSize).toNat < _ - p.virt.toNat
        omega
    · -- What was gathered is freed, and the page is the first of the next region.
      rw [bind_of_ok (free_returns ⟨pageStart, numberOfPages⟩ previous _)]
      refine .pure ⟨⟨?_, Walking.first hlaid hp hin hasked hvisited ?_⟩, ?_⟩
      · rw [BitVec.le_def]
        change _ ≤ (p.virt + (lookup p.virt).pageSize).toNat
        omega
      · rw [FreeCalls.frames_free]
        exact hframes
      · change _ - (p.virt + (lookup p.virt).pageSize).toNat < _ - p.virt.toNat
        omega
  · rw [if_neg hlt]
    exact .pure ⟨BitVec.not_lt.mp hlt, h⟩

/-- The run lemma: from the first page of the range on, all pages that start in it are freed. -/
theorem freeMappedFrom_returns (hlaid : LaidOut lookup pages ⟨start.toNat, bytes.toNat⟩)
    (hstop : stop.toNat = start.toNat + bytes.toNat) (hp : p ∈ pages)
    (hin : p.virt.toNat ∈ Span.mk start.toNat bytes.toNat)
    (hfirst : Visited pages ⟨start.toNat, bytes.toNat⟩ p.virt.toNat [])
    (hasked : ∀ a ∈ c.asked, a.toNat ∈ Span.mk start.toNat bytes.toNat) (hfreed : c.freed = []) :
    ReturnsWith (freeMappedFrom (FreeCalls.ask lookup) FreeCalls.free (2 ^ 64) stop p.virt
      (lookup p.virt) c) fun _ c' => c'.Exact pages ⟨start.toNat, bytes.toNat⟩ := by
  have hwalking : Walking pages ⟨start.toNat, bytes.toNat⟩
      (FreeWalk.first p.virt (lookup p.virt)) c :=
    Walking.first hlaid hp hin hasked hfirst (by rw [FreeCalls.frames, hfreed]; rfl)
  have hsize := (hlaid.looked p hp p.virt hin p.virt_mem_span).1
  have hafter := toNat_add_page hlaid hp
  have hstop' := stop.isLt
  rw [← hsize] at hafter
  unfold freeMappedFrom
  refine ReturnsWith.bind (p := fun last c' => stop ≤ last.start ∧
    Walking pages ⟨start.toNat, bytes.toNat⟩ last c') ?_ ?_
  · refine loop_returns (fun w c' => start ≤ w.start ∧
        Walking pages ⟨start.toNat, bytes.toNat⟩ w c')
      (fun w _ => stop.toNat - w.start.toNat)
      (fun w c' h => (freeMappedRound_returns hlaid hstop h.1 h.2).weaken ?_) ⟨?_, hwalking⟩
      (by omega)
    · rintro (next | last) _ hround <;> exact hround
    rw [BitVec.le_def]
    change _ ≤ (p.virt + (lookup p.virt).pageSize).toNat
    rw [hafter]
    simp only [Span.mem_mk] at hin
    exact hin.1.trans (Nat.le_add_right _ _)
  · rintro last c' ⟨hle, hlast⟩
    obtain ⟨visited, hvisited, hframes⟩ := hlast.visited
    refine ⟨⟨⟩, _, free_returns _ _ _, hlast.asked, ?_⟩
    rw [FreeCalls.frames_free, hframes]
    refine (hvisited.perm hlaid.nodup ?_).map _
    rw [BitVec.le_def, hstop] at hle
    exact hle

/-- The start of a range lies in the first page or in one before it. -/
theorem Visited.nil (hlaid : LaidOut lookup pages range) (hp : p ∈ pages)
    (hin : range.start ∈ p.span) {x : Nat} (hx : Boundary pages x)
    (hle : x ≤ p.span.stop) (hge : p.virt.toNat < x → p.virt.toNat < range.start) :
    Visited pages range x [] := by
  refine ⟨List.nodup_nil, fun q => ?_, hx⟩
  refine iff_of_false (List.not_mem_nil) ?_
  rintro ⟨hq, hqin, hlt⟩
  have hbelow : q.virt.toNat ∈ p.span := by
    simp only [VirtualPage.span, Span.mem_iff, Span.stop] at hin hle hqin ⊢
    omega
  obtain rfl := hlaid.eq_of_mem hp hq hbelow q.virt_mem_span
  have := hge hlt
  rw [Span.mem_iff] at hqin
  omega

/-- Every range that is not empty is freed exactly. -/
theorem freeMappedCalls_returns (hlaid : LaidOut lookup pages ⟨start.toNat, bytes.toNat⟩)
    (hbytes : bytes ≠ 0) (hfits : start.toNat + bytes.toNat < 2 ^ 64) :
    ReturnsWith (freeMappedCalls lookup (2 ^ 64) start bytes ⟨[], []⟩)
      fun _ c => c.Exact pages ⟨start.toNat, bytes.toNat⟩ := by
  have hpos : 0 < bytes.toNat := Nat.pos_of_ne_zero fun h => hbytes (BitVec.eq_of_toNat_eq h)
  have hstop : (start + bytes).toNat = start.toNat + bytes.toNat := by
    rw [BitVec.toNat_add, Nat.mod_eq_of_lt hfits]
  have hstart : start.toNat ∈ Span.mk start.toNat bytes.toNat := by
    rw [Span.mem_mk]
    omega
  obtain ⟨p, hp, hin⟩ := hlaid.covered _ hstart
  obtain ⟨hsize, -⟩ := hlaid.looked p hp start hstart hin
  have hvirt : p.virt.toNat ≤ start.toNat := hin.1
  have hpow := p.size.isTwoPow_value
  have hring : (ringRangeValue start (lookup start).pageSize).toNat =
      start.toNat % p.size.bytes := by
    rw [hsize, toNat_ringRangeValue hpow, PageSize.toNat_value]
  rw [freeMappedCalls, freeMapped, bind_of_ok (ask_returns start _)]
  split
  · -- The start is rounded up to the end of its page.
    rename_i hunaligned
    have hmod : start.toNat % p.size.bytes ≠ 0 := fun hzero =>
      hunaligned (BitVec.eq_of_toNat_eq (hring.trans hzero))
    have hlt : p.virt.toNat < start.toNat := hvirt.lt_of_ne fun heq =>
      hmod (Nat.mod_eq_zero_of_dvd (heq ▸ hlaid.aligned p hp))
    have hup : (alignUpValue start (lookup start).pageSize).toNat = p.span.stop := by
      rw [hsize, toNat_alignUpValue hpow (hlaid.fits_round hp hin), PageSize.toNat_value,
        roundUp_of_lt_of_le (hlaid.aligned p hp) hlt hin.2.le]
      rfl
    have hfirst : Visited pages ⟨start.toNat, bytes.toNat⟩ p.span.stop [] :=
      Visited.nil hlaid hp hin (hlaid.boundary_stop hp) le_rfl fun _ => hlt
    dsimp only
    split
    · rename_i hle
      rw [BitVec.le_def, hstop, hup] at hle
      refine .pure ⟨?_, ?_⟩
      · simpa using hstart
      · exact ((hfirst.perm hlaid.nodup hle).map _)
    · rename_i hgt
      rw [BitVec.not_le, BitVec.lt_def, hstop, hup] at hgt
      have hin' : p.span.stop ∈ Span.mk start.toNat bytes.toNat := ⟨hin.2.le, by omega⟩
      obtain ⟨q, hq, hqstart⟩ := hlaid.exists_at (hlaid.boundary_stop hp) hin'
      obtain hqstart : q.virt = alignUpValue start (lookup start).pageSize :=
        BitVec.eq_of_toNat_eq (hqstart.trans hup.symm)
      rw [bind_of_ok (ask_returns _ _), ← hqstart]
      refine freeMappedFrom_returns hlaid hstop hq ?_ ?_ ?_ rfl
      · rwa [hqstart, hup]
      · rwa [hqstart, hup]
      · rw [← hup, ← hqstart] at hin'
        simpa only [List.nil_append, List.forall_mem_append, List.forall_mem_singleton] using
          ⟨hstart, hin'⟩
  · rename_i haligned
    have hmod : start.toNat % p.size.bytes = 0 := by
      rw [← hring, not_not.mp haligned]
      rfl
    obtain rfl : p.virt = start := by
      apply BitVec.eq_of_toNat_eq
      obtain ⟨i, hi⟩ := hlaid.aligned p hp
      obtain ⟨j, hj⟩ := Nat.dvd_of_mod_eq_zero hmod
      have hupper := hin.2
      simp only [VirtualPage.span] at hupper
      rw [hi] at hvirt hupper ⊢
      rw [hj] at hvirt hupper ⊢
      have hij : i ≤ j := Nat.le_of_mul_le_mul_left hvirt p.size.bytes_pos
      have hji : j < i + 1 := by
        refine Nat.lt_of_mul_lt_mul_left (a := p.size.bytes) ?_
        rwa [Nat.mul_add, Nat.mul_one]
      rw [show i = j by omega]
    refine freeMappedFrom_returns hlaid hstop hp hstart ?_ ?_ rfl
    · refine Visited.nil hlaid hp hin (hlaid.boundary_virt hp) ?_ fun h => (Nat.lt_irrefl _ h).elim
      exact Nat.le_add_right _ _
    · simpa using hstart

theorem Ensures.ask {b : U64} (a : U64) : Ensures (fun c : FreeCalls => b ∈ c.asked)
    (FreeCalls.ask lookup a) fun _ c => b ∈ c.asked ∧ a ∈ c.asked := by
  rintro c page c' hin hrun
  rw [ask_returns] at hrun
  cases hrun
  exact ⟨List.mem_append_left _ hin, List.mem_append_right _ (List.mem_singleton_self a)⟩

theorem Ensures.free {b : U64} (memory : PagedMemory) (pageSize : U64) :
    Ensures (fun c : FreeCalls => b ∈ c.asked) (FreeCalls.free memory pageSize)
      fun _ c => b ∈ c.asked :=
  Ensures.modify fun _ hin => hin

/-- What was asked stays asked. -/
theorem freeMappedRound_ensures {b : U64} (stop : U64) (w : FreeWalk) :
    Ensures (fun c : FreeCalls => b ∈ c.asked)
      (freeMappedRound (FreeCalls.ask lookup) FreeCalls.free stop w)
      fun _ c => b ∈ c.asked := by
  unfold freeMappedRound
  split
  · refine Ensures.bind (Ensures.ask w.start) fun page => ?_
    split
    · exact Ensures.pure fun _ hin => hin.1
    · refine Ensures.bind (m := fun _ c => b ∈ c.asked) ?_ fun _ => Ensures.pure fun _ hin => hin
      exact fun c u c' hin hrun => Ensures.free _ _ c u c' hin.1 hrun
  · exact Ensures.pure fun _ hin => hin

/-- The rounds never forget an address they asked for. -/
theorem freeMappedFrom_ensures {b : U64} (rounds : Nat) (stop x : U64) (page : MappedPage) :
    Ensures (fun c : FreeCalls => b ∈ c.asked)
      (freeMappedFrom (FreeCalls.ask lookup) FreeCalls.free rounds stop x page)
      fun _ c => b ∈ c.asked := by
  have hloop : ∀ w, Ensures (fun c : FreeCalls => b ∈ c.asked)
      (loop .outOfFuel (freeMappedRound (FreeCalls.ask lookup) FreeCalls.free stop) rounds w)
      fun _ c => b ∈ c.asked := by
    intro w
    refine @Ensures.loop _ _ _ _ _ _ (fun _ (c : FreeCalls) => b ∈ c.asked)
      (fun _ (c : FreeCalls) => b ∈ c.asked) (fun w => ?_) rounds w
    refine (freeMappedRound_ensures stop w).weaken ?_
    rintro (_ | _) _ hin <;> exact hin
  exact (hloop _).bind fun last => Ensures.free _ _

/-- The first address is asked for in every run. -/
theorem start_mem_asked {rounds : Nat} {u : Unit}
    (hrun : freeMappedCalls lookup rounds start bytes ⟨[], []⟩ = .ok u c) : start ∈ c.asked := by
  rw [freeMappedCalls, freeMapped, bind_of_ok (ask_returns start _)] at hrun
  have hfirst : start ∈ [] ++ [start] := List.mem_singleton_self start
  dsimp only at hrun
  split at hrun
  · split at hrun
    · obtain ⟨-, rfl⟩ := pure_eq_ok.mp hrun
      exact hfirst
    · rw [bind_of_ok (ask_returns _ _)] at hrun
      exact freeMappedFrom_ensures _ _ _ _ _ _ _ (List.mem_append_left _ hfirst) hrun
  · exact freeMappedFrom_ensures _ _ _ _ _ _ _ hfirst hrun

/-- A run frees exactly the pages that start in its range, when that is not empty; in an empty
range there is no address to ask for. -/
theorem freeMappedCalls_exact_iff (hlaid : LaidOut lookup pages ⟨start.toNat, bytes.toNat⟩)
    (hfits : start.toNat + bytes.toNat < 2 ^ 64) :
    (∃ rounds, ReturnsWith (freeMappedCalls lookup rounds start bytes ⟨[], []⟩)
      fun _ c => c.Exact pages ⟨start.toNat, bytes.toNat⟩) ↔ bytes ≠ 0 := by
  constructor
  · rintro ⟨rounds, u, c, hrun, hexact⟩ rfl
    have hin := hexact.asked start (start_mem_asked hrun)
    simp [Span.mem_mk] at hin
  · exact fun hbytes => ⟨2 ^ 64, freeMappedCalls_returns hlaid hbytes hfits⟩

end Walk

/-! ## Pages that were mapped -/

section Mapped

variable {σ : Type} {allocate4KiBPage : U64 → EStateM Fault σ U64} {avoids : σ → Set U64 → Prop}
  {s s' : Paging σ} {calls : List MapCall} {c : MapCall} {p : VirtualPage} {k : Nat}
  {start bytes : U64} {range : Span}

/-- The pages of a call to map. -/
theorem mem_virtualPages : p ∈ c.virtualPages ↔ ∃ k < c.pages,
    ⟨c.virt + BitVec.ofNat 64 k * c.pageType.value, c.pageType, c.physical k⟩ = p := by
  rw [MapCall.virtualPages, List.mem_map]
  simp only [List.mem_range]

/-- The pages of a valid call as spans. -/
theorem MapCall.Valid.span_eq (h : c.Valid) (hk : k < c.pages) :
    (VirtualPage.mk (c.virt + BitVec.ofNat 64 k * c.pageType.value) c.pageType
      (c.physical k)).span = c.pageSpan k := (h.page hk).2.2

/-- The pages of a call do not overlap. -/
theorem MapCall.Valid.pairwise_virtualPages (h : c.Valid) :
    c.virtualPages.Pairwise fun p q => p.span.Disjoint q.span := by
  rw [MapCall.virtualPages, List.pairwise_map]
  refine List.pairwise_lt_range.imp_of_mem fun {j k} hj hk hlt => ?_
  rw [h.span_eq (List.mem_range.mp hj), h.span_eq (List.mem_range.mp hk)]
  exact MapCall.pageSpan_disjoint hlt.ne

/-- A call that returns was given frames aligned to its page size. -/
theorem mapVirtualRegion_aligned {virt flags : U64} {memory : PagedMemory} {pageType : PageSize}
    {u : Unit} (hrun : mapVirtualRegionWithFlags allocate4KiBPage virt memory pageType flags s =
      .ok u s') : pageType.bytes ∣ memory.pageStart.toNat := by
  simp only [mapVirtualRegionWithFlags, bind_eq_ok, get_eq_ok, assert_eq_ok] at hrun
  obtain ⟨_, _, ⟨rfl, rfl⟩, _, _, ⟨-, rfl⟩, _, _, ⟨-, rfl⟩, _, _, ⟨-, rfl⟩, _, _, ⟨hzero, rfl⟩,
    -⟩ := hrun
  have hmod := toNat_ringRangeValue (x := memory.pageStart) pageType.isTwoPow_value
  rw [hzero, PageSize.toNat_value] at hmod
  exact Nat.dvd_of_mod_eq_zero hmod.symm

/-- The frames of calls that return start at whole pages. -/
theorem mapRegions_aligned {u : Unit} (hrun : mapRegions allocate4KiBPage calls s = .ok u s')
    (hc : c ∈ calls) : c.pageType.bytes ∣ c.memory.pageStart.toNat := by
  induction calls generalizing s with
  | nil => cases hc
  | cons d calls ih =>
    rw [mapRegions, bind_eq_ok] at hrun
    obtain ⟨_, s₁, hcall, hrest⟩ := hrun
    rcases List.mem_cons.mp hc with rfl | hc
    · exact mapVirtualRegion_aligned hcall
    · exact ih hrest hc

/-- So each of its frames is aligned to a frame. -/
theorem MapCall.frame_aligned (h : c.pageType.bytes ∣ c.memory.pageStart.toNat) (k : Nat) :
    pageFrameSize ∣ (c.physical k).toNat := by
  have hword : pageFrameSize ∣ 2 ^ 64 := by decide
  have hsize := c.pageType.pageFrameSize_dvd
  rw [MapCall.physical, BitVec.toNat_add, BitVec.toNat_mul, PageSize.toNat_value,
    Nat.dvd_mod_iff hword]
  refine Nat.dvd_add (hsize.trans h) ?_
  rw [Nat.dvd_mod_iff hword]
  exact hsize.mul_left _

/-- Calls on regions that do not overlap lay their pages out for every range they cover, when
the frames there lie below bit 48. -/
theorem laidOut_of_mapped
    (hout : HandsOutFrames allocate4KiBPage avoids fun _ => True)
    (hvalid : ∀ c ∈ calls, c.Valid)
    (hdisjoint : calls.Pairwise fun c d => c.span.Disjoint d.span)
    (hroot : pageFrameSize ∣ s.level4PageTable.toNat)
    (hzero : ∀ i : BitVec 9, s.words (entryAddress s.level4PageTable (i.setWidth 64)) = 0)
    (havoids : avoids s.allocator {s.level4PageTable})
    (hrun : mapRegions allocate4KiBPage calls s = .ok () s')
    (hcovered : ∀ a ∈ range, ∃ c ∈ calls, a ∈ c.span)
    (hframes : ∀ c ∈ calls, IsFlags c.additionalFlags ∧ ∀ k < c.pages,
      ∀ a ∈ c.pageSpan k, a ∈ range → (c.physical k).toNat < 2 ^ 48) :
    LaidOut (getMappedPage s'.words s'.level4PageTable) (calls.flatMap MapCall.virtualPages)
      range := by
  have hempty : Mapped avoids s (emptyRadix s.level4PageTable) :=
    ⟨.of_zero hroot hzero, by rwa [tables_emptyRadix]⟩
  obtain ⟨r, hgrown, -, hmapped, -⟩ := hempty.mapRegions hout hvalid hdisjoint
    (emptyRadix_pruned _) (fun _ _ _ _ _ hp => by cases hp) hrun trivial
  have hleaves : ∀ p e, Leaves calls p e → r.leaf p = some e := fun p e hp =>
    (hgrown.leaf_iff p e).mpr (.inr hp)
  have hpage : ∀ {p}, p ∈ calls.flatMap MapCall.virtualPages → ∃ c ∈ calls, ∃ k < c.pages,
      ⟨c.virt + BitVec.ofNat 64 k * c.pageType.value, c.pageType, c.physical k⟩ = p := by
    intro p hp
    obtain ⟨c, hc, hp⟩ := List.mem_flatMap.mp hp
    exact ⟨c, hc, mem_virtualPages.mp hp⟩
  constructor
  case aligned =>
    intro p hp
    obtain ⟨c, hc, k, hk, rfl⟩ := hpage hp
    exact ((hvalid c hc).page hk).1
  case fits =>
    intro p hp
    obtain ⟨c, hc, k, hk, rfl⟩ := hpage hp
    have hfits := (hvalid c hc).fits
    have hle := Nat.mul_le_mul_right c.pageType.bytes (Nat.succ_le_of_lt hk)
    rw [Nat.succ_mul] at hle
    change (c.virt + BitVec.ofNat 64 k * c.pageType.value).toNat + c.pageType.bytes < _
    rw [(hvalid c hc).toNat_page hk.le]
    omega
  case disjoint =>
    rw [List.pairwise_flatMap]
    refine ⟨fun c hc => (hvalid c hc).pairwise_virtualPages, ?_⟩
    refine hdisjoint.imp_of_mem fun {c d} hc hd hcd p hp q hq a hap haq => ?_
    obtain ⟨j, hj, rfl⟩ := mem_virtualPages.mp hp
    obtain ⟨k, hk, rfl⟩ := mem_virtualPages.mp hq
    rw [(hvalid c hc).span_eq hj] at hap
    rw [(hvalid d hd).span_eq hk] at haq
    exact hcd a (MapCall.pageSpan_subset hj hap) (MapCall.pageSpan_subset hk haq)
  case covered =>
    intro a ha
    obtain ⟨c, hc, hac⟩ := hcovered a ha
    obtain ⟨k, hk, hak⟩ := MapCall.mem_span_iff.mp hac
    refine ⟨_, List.mem_flatMap.mpr ⟨c, hc, mem_virtualPages.mpr ⟨k, hk, rfl⟩⟩, ?_⟩
    rwa [(hvalid c hc).span_eq hk]
  case looked =>
    intro p hp a harange hap
    obtain ⟨c, hc, k, hk, rfl⟩ := hpage hp
    rw [(hvalid c hc).span_eq hk] at hap
    obtain ⟨hflags, hbelow⟩ := hframes c hc
    rw [hmapped.getMappedPage_eq hleaves hc (hvalid c hc) hk hap]
    refine ⟨rfl, ?_⟩
    rw [← MapCall.pageEntry_eq, getPhysicalAddressFrame_pageEntry hflags]
    exact (getPhysicalAddressFrame_eq_iff
      (MapCall.frame_aligned (mapRegions_aligned hrun hc) k)).mpr
      (hbelow k hk _ hap harange)

/-- `freeMapped` on a range of pages that calls of `mapVirtualRegion` have mapped to frames below
bit 48: it frees exactly the pages that start in the range, and asks for no address outside it,
exactly when the range is not empty. -/
theorem freeMapped_exact_iff
    (hout : HandsOutFrames allocate4KiBPage avoids fun _ => True)
    (hvalid : ∀ c ∈ calls, c.Valid)
    (hdisjoint : calls.Pairwise fun c d => c.span.Disjoint d.span)
    (hroot : pageFrameSize ∣ s.level4PageTable.toNat)
    (hzero : ∀ i : BitVec 9, s.words (entryAddress s.level4PageTable (i.setWidth 64)) = 0)
    (havoids : avoids s.allocator {s.level4PageTable})
    (hrun : mapRegions allocate4KiBPage calls s = .ok () s')
    (hfits : start.toNat + bytes.toNat < 2 ^ 64)
    (hcovered : ∀ a ∈ Span.mk start.toNat bytes.toNat, ∃ c ∈ calls, a ∈ c.span)
    (hframes : ∀ c ∈ calls, IsFlags c.additionalFlags ∧ ∀ k < c.pages,
      ∀ a ∈ c.pageSpan k, a ∈ Span.mk start.toNat bytes.toNat → (c.physical k).toNat < 2 ^ 48) :
    (∃ rounds, ReturnsWith (freeMappedCalls (getMappedPage s'.words s'.level4PageTable) rounds
      start bytes ⟨[], []⟩) fun _ c =>
        c.Exact (calls.flatMap MapCall.virtualPages) ⟨start.toNat, bytes.toNat⟩) ↔ bytes ≠ 0 :=
  freeMappedCalls_exact_iff
    (laidOut_of_mapped hout hvalid hdisjoint hroot hzero havoids hrun hcovered hframes) hfits

end Mapped

/-- Two small pages, from the start of the higher half on. -/
def twoSmallPages : MapCall := ⟨0xffff800000000000, ⟨0x400000, 2⟩, .basePage, 0⟩

/-- The second of the two pages starts in a range that starts within the first one. -/
theorem freeMapped_exact_iff_second : ∃ s',
    mapRegions countingAllocator [twoSmallPages] ⟨fun _ => 0, 0x1000, 0x2000⟩ = .ok () s' ∧
    ∃ rounds, ReturnsWith (freeMappedCalls (getMappedPage s'.words s'.level4PageTable) rounds
      0xffff800000000800 0x1800 ⟨[], []⟩) fun _ c =>
        c.Exact ([twoSmallPages].flatMap MapCall.virtualPages)
          ⟨(0xffff800000000800 : U64).toNat, (0x1800 : U64).toNat⟩ := by
  obtain ⟨_, s', hrun, -⟩ : ReturnsWith (mapRegions countingAllocator [twoSmallPages]
      ⟨fun _ => 0, 0x1000, 0x2000⟩) fun _ s' => s'.level4PageTable = 0x1000 := by
    decide +kernel
  refine ⟨s', hrun, (freeMapped_exact_iff handsOutFrames_countingAllocator ?_
    (List.pairwise_singleton _ _) (by decide) (fun _ => rfl) ⟨by decide, fun t ht => ?_⟩ hrun
    (by decide) (fun a ha => ⟨_, List.mem_singleton_self _, ?_⟩) ?_).mpr (by decide)⟩
  · rw [List.forall_mem_singleton]
    exact ⟨by decide, by decide, fun a ha => .inr (le_trans (by decide) ha.1)⟩
  · rw [Set.mem_singleton_iff.mp ht]
    decide
  · have hspan : twoSmallPages.span = ⟨0xffff800000000000, 0x2000⟩ := by decide
    rw [hspan, Span.mem_mk]
    exact ⟨le_trans (by decide) ha.1, lt_of_lt_of_le ha.2 (by decide)⟩
  · rw [List.forall_mem_singleton]
    refine ⟨by decide, fun k (hk : k < 2) a _ _ => ?_⟩
    interval_cases k <;> decide

/-- For no bytes at the start of the two pages, the first page is freed. -/
theorem freeMapped_empty_range : ∃ s',
    mapRegions countingAllocator [twoSmallPages] ⟨fun _ => 0, 0x1000, 0x2000⟩ = .ok () s' ∧
    ReturnsWith (freeMappedCalls (getMappedPage s'.words s'.level4PageTable) 1
      0xffff800000000000 0 ⟨[], []⟩) (fun _ c => c.freed = [(⟨0x400000, 1⟩, 0x1000)]) ∧
    ¬ ∃ rounds, ReturnsWith (freeMappedCalls (getMappedPage s'.words s'.level4PageTable) rounds
      0xffff800000000000 0 ⟨[], []⟩) fun _ c =>
        c.Exact ([twoSmallPages].flatMap MapCall.virtualPages)
          ⟨(0xffff800000000000 : U64).toNat, (0 : U64).toNat⟩ := by
  obtain ⟨_, s', hrun, hfreed⟩ : ReturnsWith (mapRegions countingAllocator [twoSmallPages]
      ⟨fun _ => 0, 0x1000, 0x2000⟩) fun _ s' =>
        ReturnsWith (freeMappedCalls (getMappedPage s'.words s'.level4PageTable) 1
          0xffff800000000000 0 ⟨[], []⟩) (fun _ c => c.freed = [(⟨0x400000, 1⟩, 0x1000)]) := by
    decide +kernel
  refine ⟨s', hrun, hfreed, ?_⟩
  rintro ⟨rounds, _, c, hcalls, hexact⟩
  have hin := hexact.asked _ (start_mem_asked hcalls)
  simp [Span.mem_mk] at hin

end Homegrown.Memory
