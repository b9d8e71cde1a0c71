import Homegrown.Memory.Virtual.Ends
import Homegrown.OsLoader.Entry

/-!
# From the image to the entry of the kernel

On firmware that does what the loader needs, the loader reaches its jump or runs out of pages. On
the image of the image builder this closes the chain: what the processor loads at the addresses
that the kernel was linked to is the kernel that the image builder was given
(`efiMain_createUEFIImage`).
-/

namespace Homegrown.OsLoader

open ImageBuilder Memory

/-! ## Mapping stops for want of frames only -/

section Pager

variable {σ : Type} {boot : BootServices σ} {s : Paging σ} {virt : U64} {memory : PagedMemory}

/-- An allocation ends, whatever boot services answer. -/
theorem endsClean_allocate4KiBPage (numPages : U64) :
    EndsClean (fun _ => True) (fun _ => True) (boot.allocate4KiBPage numPages) NoMoreFrames
      fun _ _ => True := by
  refine ⟨fun t _ _ => ?_, fun _ h => absurd trivial h⟩
  rw [BootServices.allocate4KiBPage]
  cases boot.allocatePages numPages t with
  | some result => exact .of_ok rfl trivial
  | none => exact .throw rfl

/-- The loader stops with a message where the pager fails. -/
theorem endsIn_onPages {α : Type} {x : Pager σ α} {post : α → Paging σ → Prop}
    (h : EndsIn (x s) NoMoreFrames post) : EndsIn (onPages x s) Stop.OutOfPages post := by
  rw [onPages]
  cases hcase : x s with
  | ok a s' => exact .of_ok rfl (h.ok hcase)
  | error fault s' =>
    obtain rfl : fault = .noMorePhysicalMemory := h.error hcase
    exact .throw ⟨_, List.mem_cons_self .., rfl⟩

/-- Cleared pages are obtained, or there were too few. -/
theorem endsIn_allocAndZero (numPages : U64) :
    EndsIn (onPages (allocAndZero boot numPages) s) Stop.OutOfPages fun _ _ => True :=
  endsIn_onPages (.bind (m := fun _ _ => True)
    (.zoom ((endsClean_allocate4KiBPage numPages).ends _ trivial trivial))
    fun _ _ _ _ => .bind (m := fun _ _ => True) (.of_ok rfl trivial) fun _ _ _ _ => .pure trivial)

/-- The assertions of a valid call hold. -/
theorem endsIn_mapPagesAt (hroot : s.level4PageTable ≠ 0)
    (hvalid : (basePages virt memory).Valid) (haligned : pageFrameSize ∣ memory.pageStart.toNat)
    (hcanonical : Canonical virt.toNat) :
    EndsIn (mapPagesAt boot virt memory s) Stop.OutOfPages fun _ _ => True := by
  have hmappable : Mappable s.level4PageTable virt memory .basePage :=
    ⟨hroot, hcanonical, hvalid.aligned, haligned⟩
  have hallocate : EndsClean (fun _ => True) (fun _ => True) (boot.allocate4KiBPage 1)
    NoMoreFrames fun _ _ => True := endsClean_allocate4KiBPage 1
  have hpages := (endsClean_mapVirtualRegion hallocate (.inl hmappable)).ends s ⟨trivial, rfl⟩
    trivial
  exact endsIn_onPages (hpages.weaken fun _ _ _ _ => trivial)

end Pager

/-! ## Firmware that lets the loader through -/

/-- The processor has what the loader asks for. -/
def CPUFeatures.Suffice (cpu : CPUFeatures) : Prop :=
  1 ≤ cpu.maxCPUID ∧ cpu.APIC ∧ cpu.TSC ∧ cpu.PGE ∧ cpu.FPU ∧ cpu.SSE

instance (cpu : CPUFeatures) : Decidable cpu.Suffice := inferInstanceAs (Decidable (_ ∧ _))

/-- Firmware that answers as the loader needs it to. An allocation adds two descriptors to its map
at most. An exit with the key of the last map may fail, if then the map has settled. -/
structure Ready {σ : Type} (fw : Firmware σ) (settled : σ → Prop) : Prop where
  graphicsOutput : fw.graphicsOutput.isSome
  rsdp : (Efi.getRSDP fw.tableBytes fw.configurationTable).rsdp ≠ 0
  answers : ∀ t, ∃ memoryMapSize descriptorSize u,
    fw.getMemoryMap 0 t = (.bufferTooSmall memoryMapSize descriptorSize, u) ∧
    (settled t → settled u) ∧
    ∀ address u', fw.allocatePages
      (ceilingDivValue (memoryMapSize + descriptorSize * 2) UEFIPageSize) u = some (address, u') →
        (settled u → settled u') ∧ ∃ memoryMapSize' mapKey descriptorSize' descriptors v,
          fw.getMemoryMap (memoryMapSize + descriptorSize * 2) u' =
            (.success memoryMapSize' mapKey descriptorSize' descriptors, v) ∧
          (settled u' → settled v)
  exits : ∀ size t memoryMapSize mapKey descriptorSize descriptors u,
    fw.getMemoryMap size t = (.success memoryMapSize mapKey descriptorSize descriptors, u) →
      (fw.exitBootServices mapKey u).1 = true ∨
        ¬ settled u ∧ settled (fw.exitBootServices mapKey u).2
  frees : ∀ memory pages t, settled t → ∃ u, fw.freePages memory pages t = some u ∧ settled u

section Services

variable {σ : Type} {fw : Firmware σ} {settled : σ → Prop} {t : σ}

/-- A memory map is obtained, unless there are no more pages. -/
theorem Ready.endsIn_getMemoryInfo (h : Ready fw settled) (t : σ) :
    EndsIn (getMemoryInfo fw t) Stop.OutOfPages fun memoryInfo t' =>
      (settled t → settled t') ∧ ((fw.exitBootServices memoryInfo.mapKey t').1 = true ∨
        ¬ settled t' ∧ settled (fw.exitBootServices memoryInfo.mapKey t').2) := by
  obtain ⟨memoryMapSize, descriptorSize, u, hsmall, hsettled, hanswers⟩ := h.answers t
  have hask (size : U64) (t : σ) : fw.askMemoryMap size t =
    .ok (fw.getMemoryMap size t).1 (fw.getMemoryMap size t).2 := rfl
  rw [getMemoryInfo, bind_of_ok (hask 0 t), hsmall]
  dsimp only
  refine (BootServices.endsIn_allocate (by decide) _ u).bind fun address u' hrun _ => ?_
  obtain ⟨hsettled', _, mapKey, _, descriptors, v, hsuccess, hsettled''⟩ :=
    hanswers address u' (BootServices.allocate_eq_ok.mp hrun)
  rw [bind_of_ok (hask _ u'), hsuccess]
  exact .pure ⟨fun hs => hsettled'' (hsettled' (hsettled hs)), h.exits _ _ _ _ _ _ _ hsuccess⟩

/-- The boot services are left at the second try, if not at the first. -/
theorem Ready.endsIn_exitServices (h : Ready fw settled) (t : σ) :
    EndsIn (exitServices fw t) Stop.OutOfPages fun _ _ => True := by
  have htry (mapKey : U64) (t : σ) : fw.tryExit mapKey t =
    .ok (fw.exitBootServices mapKey t).1 (fw.exitBootServices mapKey t).2 := rfl
  rw [exitServices]
  refine (h.endsIn_getMemoryInfo t).bind fun memoryInfo u _ hu => ?_
  rw [bind_of_ok (htry _ u)]
  rcases hu.2 with hleft | ⟨-, hsettled⟩
  · rw [hleft, if_pos rfl]
    exact .pure trivial
  · split
    · exact .pure trivial
    · obtain ⟨v, hfree, hv⟩ := h.frees memoryInfo.memoryMap
        (ceilingDivValue memoryInfo.memoryMapSize UEFIPageSize) _ hsettled
      have hfreed : fw.free memoryInfo.memoryMap
          (ceilingDivValue memoryInfo.memoryMapSize UEFIPageSize)
          "Could not free allocated memory map\r\n" (fw.exitBootServices memoryInfo.mapKey u).2 =
            .ok () v := by
        rw [Firmware.free, get_bind, hfree]
        rfl
      rw [bind_of_ok hfreed]
      refine (h.endsIn_getMemoryInfo v).bind fun memoryInfo' w _ hw => ?_
      rw [bind_of_ok (htry _ w), hw.2.resolve_right fun hnot => hnot.1 (hw.1 hv), if_pos rfl]
      exact .pure trivial

end Services

/-! ## The memory map at the exit -/

/-- Firmware with a key for its memory map, by which alone its boot services can be left. The map
describes the same memory at all times, in whatever parts. -/
structure Keyed {σ : Type} (fw : Firmware σ) (memoryMap : σ → List MemoryDescriptor)
    (mapKey : σ → U64) (left : σ → Prop) : Prop where
  answer : ∀ size t memoryMapSize key descriptorSize descriptors, (fw.getMemoryMap size t).1 =
    .success memoryMapSize key descriptorSize descriptors →
      key = mapKey t ∧ descriptors = memoryMap t
  identifies : ∀ t u, mapKey t = mapKey u → memoryMap t = memoryMap u
  steady : ∀ t u, ∀ d ∈ memoryMap t, ∀ n ∈ descriptorSpan d, ∃ d' ∈ memoryMap u,
    n ∈ descriptorSpan d'
  exit : ∀ key t, (fw.exitBootServices key t).1 = true → key = mapKey t ∧
    memoryMap (fw.exitBootServices key t).2 = memoryMap t ∧ left (fw.exitBootServices key t).2

/-- The memory map that is returned is the one at the exit, and the boot services are left. -/
theorem Keyed.exitServices {σ : Type} {fw : Firmware σ} {memoryMap : σ → List MemoryDescriptor}
    {mapKey : σ → U64} {left : σ → Prop} (h : Keyed fw memoryMap mapKey left) {t t' : σ}
    {memoryInfo : MemoryInfo} (hrun : exitServices fw t = .ok memoryInfo t') :
    left t' ∧ memoryInfo.descriptors = memoryMap t' := by
  have hexit {t v w : σ} {memoryInfo : MemoryInfo}
      (hinfo : getMemoryInfo fw t = .ok memoryInfo v)
      (htry : fw.tryExit memoryInfo.mapKey v = .ok true w) :
      left w ∧ memoryInfo.descriptors = memoryMap w := by
    obtain ⟨size, u, hanswer, -⟩ := getMemoryInfo_answer hinfo
    simp only [Firmware.tryExit, EStateM.Result.ok.injEq] at htry
    obtain ⟨hleft, rfl⟩ := htry
    obtain ⟨hkey, hmap⟩ := h.answer _ _ _ _ _ _ hanswer
    obtain ⟨hkey', hsame, hgone⟩ := h.exit _ _ hleft
    refine ⟨hgone, ?_⟩
    rw [hsame, hmap]
    exact h.identifies _ _ (hkey.symm.trans hkey')
  rw [OsLoader.exitServices, bind_eq_ok] at hrun
  obtain ⟨memoryInfo₁, u, hinfo, hrun⟩ := hrun
  rw [bind_eq_ok] at hrun
  obtain ⟨left₁, v, htry, hrun⟩ := hrun
  cases left₁ with
  | true =>
    obtain ⟨rfl, rfl⟩ := pure_eq_ok.mp hrun
    exact hexit hinfo htry
  | false =>
    rw [if_neg (by decide), bind_eq_ok] at hrun
    obtain ⟨_, w, -, hrun⟩ := hrun
    rw [bind_eq_ok] at hrun
    obtain ⟨memoryInfo₂, x, hinfo, hrun⟩ := hrun
    rw [bind_eq_ok] at hrun
    obtain ⟨left₂, y, htry, hrun⟩ := hrun
    cases left₂ with
    | true =>
      obtain ⟨rfl, rfl⟩ := pure_eq_ok.mp hrun
      exact hexit hinfo htry
    | false => exact (throw_eq_ok.mp hrun).elim

/-! ## The whole run -/

section Run

variable {σ : Type} {fw : Firmware σ} {settled : σ → Prop} {taken : σ → Set U64}
  {calls : List MapCall} {kept : Set U64} {s : Paging σ} {cpu : CPUFeatures}
  {kernelMagic : List U8}

theorem endsIn_initArchitecture (hcpu : cpu.Suffice) :
    EndsIn (initArchitecture fw.toBootServices cpu s) Stop.OutOfPages fun _ _ => True := by
  obtain ⟨hmax, hAPIC, hTSC, hPGE, hFPU, hSSE⟩ := hcpu
  refine (endsIn_allocAndZero _).bind fun root s₁ _ _ => ?_
  rw [modify_bind]
  refine .zoom ?_
  simp only [needs, hmax, hAPIC, hTSC, hPGE, hFPU, hSSE, decide_true, if_true, pure_bind]
  exact (BootServices.endsIn_allocate (by decide) _ _).bind fun _ _ _ _ => .pure trivial

/-- The loop over the descriptors makes valid calls. -/
theorem Placed.endsIn_mapDescriptors (h : HandsOutPages fw.toBootServices taken)
    {descriptors : List MemoryDescriptor} {mode : GraphicsOutputMode}
    (hs : Placed taken calls kept s) (hdescribes : Describes mode descriptors)
    (hcalls : ∀ c ∈ calls, ∀ d ∈ descriptors, c.span.Disjoint (descriptorSpan d)) :
    EndsIn (OsLoader.mapDescriptors fw.toBootServices descriptors s) Stop.OutOfPages
      fun _ _ => True := by
  induction descriptors generalizing calls s with
  | nil => exact .pure trivial
  | cons d descriptors ih =>
    have hd := List.mem_cons_self (a := d) (l := descriptors)
    have hlow := hdescribes.low d hd
    have hvalid : (identityPages d).Valid := basePages_valid_of_low (hdescribes.aligned d hd) hlow
    refine (endsIn_mapPagesAt hs.root_ne_zero hvalid (hdescribes.aligned d hd) (.inl ?_)).bind
      fun _ s₁ hrun _ => ?_
    · have hnonempty := hdescribes.nonempty d hd
      exact lt_of_lt_of_le (Nat.lt_add_of_pos_right hnonempty) hlow
    · obtain ⟨h₁, -⟩ := hs.run h hvalid (fun c hc => hcalls c hc d hd) (mapPagesAt_eq_ok.mp hrun)
      have hdisjoint := List.pairwise_cons.mp hdescribes.disjoint
      refine ih h₁ ⟨fun d' hd' => hdescribes.aligned d' (List.mem_cons_of_mem _ hd'),
        fun d' hd' => hdescribes.nonempty d' (List.mem_cons_of_mem _ hd'),
        fun d' hd' => hdescribes.low d' (List.mem_cons_of_mem _ hd'), hdisjoint.2,
        hdescribes.frameBuffer_aligned, hdescribes.frameBuffer_nonempty,
        hdescribes.frameBuffer_low,
        fun d' hd' => hdescribes.frameBuffer_disjoint d' (List.mem_cons_of_mem _ hd')⟩
        fun c hc d' hd' => ?_
      rcases List.mem_append.mp hc with hc | hc
      · exact hcalls c hc d' (List.mem_cons_of_mem _ hd')
      · obtain rfl := List.mem_singleton.mp hc
        exact hdisjoint.1 d' hd'

/-- The kernel is loaded and mapped, as far as it is known to load. -/
theorem Reliable.endsIn_placeKernel {data : List U8} (h : Reliable fw taken)
    (hs : Placed taken [] ∅ s)
    (hload : ∀ t, EndsIn (loadKernel fw.toBootServices kernelMagic t) Stop.OutOfPages
      fun content _ => content.data = data)
    (hfits : data.length ≤ (bottomStack - kernelCodeStart).toNat) :
    EndsIn (OsLoader.placeKernel fw.toBootServices kernelMagic s) Stop.OutOfPages
      fun content _ => content.data = data := by
  refine .bind (m := fun content s' => content.data = data ∧ pageFrameSize ∣ content.buf.toNat ∧
    s'.level4PageTable = s.level4PageTable) (.zoom ?_) fun content s₁ _ hcontent => ?_
  · exact (hload _).weaken fun content t hrun hdata =>
      ⟨hdata, (h.givenAway_loadKernel hrun).aligned, rfl⟩
  · obtain ⟨hdata, haligned, hroot⟩ := hcontent
    obtain ⟨-, hstop⟩ := kernelPages_stop_le (hdata ▸ hfits)
    rw [modify_bind]
    refine (endsIn_mapPagesAt (hroot ▸ hs.root_ne_zero) (basePages_valid_of_high (by decide) le_rfl
      (hstop.trans_lt (by decide))) haligned (.inr (by decide))).bind fun _ _ _ _ => ?_
    exact .pure hdata

theorem Ready.endsIn_mapMemory (hready : Ready fw settled) (h : Reliable fw taken)
    (hs : Placed taken calls kept s) (hcalls : ∀ c ∈ calls, 2 ^ 47 ≤ c.span.start) :
    EndsIn (mapMemory fw s) Stop.OutOfPages fun _ _ => True := by
  obtain ⟨mode, hmode⟩ := Option.isSome_iff_exists.mp hready.graphicsOutput
  rw [OsLoader.mapMemory, hmode]
  refine .bind (m := fun mode' s' => mode' = mode ∧ s' = s) (.zoom (.pure ⟨rfl, rfl⟩))
    fun mode' s₁ _ heq => ?_
  obtain ⟨rfl, rfl⟩ := heq
  refine .bind (m := fun memoryInfo s' => Describes mode' memoryInfo.descriptors ∧
    Placed taken calls kept s') (.zoom ?_) fun memoryInfo s₂ _ hinfo => ?_
  · refine (hready.endsIn_getMemoryInfo _).weaken fun memoryInfo t hrun _ => ?_
    obtain ⟨size, u, hanswer, -⟩ := getMemoryInfo_answer hrun
    exact ⟨h.describes _ hmode _ _ _ _ _ _ hanswer,
      hs.services (h.grows_getMemoryInfo _ _ _ hrun)⟩
  · obtain ⟨hdescribes, h₂⟩ := hinfo
    have hapart : ∀ c ∈ calls, ∀ d ∈ memoryInfo.descriptors, c.span.Disjoint (descriptorSpan d) :=
      fun c hc d hd => (Span.disjoint_of_stop_le
        ((hdescribes.low d hd).trans (hcalls c hc))).symm
    refine (h₂.endsIn_mapDescriptors h.pages hdescribes hapart).bind fun _ s₃ hrun _ => ?_
    obtain ⟨h₃, -⟩ := h₂.mapDescriptors h.pages (fun d hd =>
      basePages_valid_of_low (hdescribes.aligned d hd) (hdescribes.low d hd)) hdescribes.disjoint
        hapart hrun
    have hlow : mode'.frameBufferBase.toNat < 2 ^ 47 :=
      lt_of_lt_of_le (Nat.lt_add_of_pos_right hdescribes.frameBuffer_nonempty)
        hdescribes.frameBuffer_low
    have hvalid : (frameBufferPages mode').Valid :=
      basePages_valid_of_low hdescribes.frameBuffer_aligned hdescribes.frameBuffer_low
    refine (endsIn_mapPagesAt h₃.root_ne_zero hvalid hdescribes.frameBuffer_aligned
      (.inl hlow)).bind fun _ _ _ _ => ?_
    exact .pure trivial

theorem Placed.endsIn_placeZeroed {virt size : U64} (hs : Placed taken calls kept s)
    (h : HandsOutPages fw.toBootServices taken)
    (hvalid : ∀ page, (zeroedPages virt size page).Valid)
    (hcanonical : Canonical virt.toNat) :
    EndsIn (OsLoader.placeZeroed fw.toBootServices virt size s) Stop.OutOfPages
      fun _ _ => True := by
  refine (endsIn_allocAndZero _).bind fun page s₁ hrun _ => ?_
  obtain ⟨h₁, -⟩ := hs.allocAndZero h hrun
  obtain ⟨t, hpages, -⟩ := allocAndZero_eq_ok.mp (onPages_eq_ok.mp hrun)
  have hcall : (basePages virt ⟨page, ceilingDivValue size UEFIPageSize⟩).Valid := hvalid page
  refine (endsIn_mapPagesAt h₁.root_ne_zero hcall (h.aligned hpages) hcanonical).bind
    fun _ _ _ _ => ?_
  exact .pure trivial

/-- The loader jumps with the kernel in place, or there were too few pages. -/
theorem Ready.endsIn_efiMain {data : List U8} (hready : Ready fw settled) (h : Reliable fw taken)
    (hcpu : cpu.Suffice) (hload : ∀ t, EndsIn (loadKernel fw.toBootServices kernelMagic t)
      Stop.OutOfPages fun content _ => content.data = data)
    (hfits : data.length ≤ (bottomStack - kernelCodeStart).toNat) :
    EndsIn (efiMain fw cpu kernelMagic s) Stop.OutOfPages fun jump s' =>
      jump.kernelContent.data = data ∧ ∃ mode descriptors, fw.graphicsOutput = some mode ∧
        (∃ size t memoryMapSize mapKey descriptorSize, (fw.getMemoryMap size t).1 =
          .success memoryMapSize mapKey descriptorSize descriptors) ∧
        Entered s' jump mode descriptors := by
  have hjump : EndsIn (efiMain fw cpu kernelMagic s) Stop.OutOfPages fun jump _ =>
      jump.kernelContent.data = data := by
    refine (endsIn_initArchitecture hcpu).bind fun _ s₁ hrun _ => ?_
    have h₁ := h.pages.initArchitecture hrun
    refine (h.endsIn_placeKernel h₁ hload hfits).bind fun content s₂ hrun hdata => ?_
    obtain ⟨h₂, -⟩ := h.placeKernel h₁ hrun (hdata ▸ hfits)
    have hkernel : ∀ c ∈ [kernelPages content], 2 ^ 47 ≤ c.span.start := fun c hc => by
      obtain rfl := List.mem_singleton.mp hc
      exact show 2 ^ 47 ≤ kernelCodeStart.toNat by decide
    refine (hready.endsIn_mapMemory h h₂ hkernel).bind fun mode s₃ hrun _ => ?_
    obtain ⟨hmode, descriptors, ⟨_, _, _, _, _, hmap⟩, h₃, -⟩ := h.mapMemory h₂ hkernel hrun
    have hdescribes := h.describes mode hmode _ _ _ _ _ _ hmap
    have hbelow := mappedPages_below (kernelPages_stop_le (hdata ▸ hfits)).2 hdescribes
    refine (h₃.endsIn_placeZeroed h.pages (fun page => (zeroedPages_valid 0 page).2)
      (.inr (by decide))).bind fun kernelParams s₄ hrun _ => ?_
    obtain ⟨h₄, -⟩ := h₃.placeZeroed h.pages (fun page => (zeroedPages_valid 0 page).2)
      (fun page => paramsPages_disjoint hbelow page) hrun
    refine (h₄.endsIn_placeZeroed h.pages (fun page => (zeroedPages_valid page 0).1)
      (.inr (by decide))).bind fun stackEnd s₅ hrun _ => ?_
    rw [if_neg hready.rsdp]
    refine .bind (m := fun _ _ => True) (.zoom ?_) fun _ _ _ _ => .pure hdata
    exact hready.endsIn_exitServices _
  exact hjump.weaken fun jump s' hrun hdata =>
    ⟨hdata, h.entered_efiMain hrun (hdata ▸ hfits)⟩

/-- So is the one that the loader jumps with. -/
theorem Keyed.efiMain {memoryMap : σ → List MemoryDescriptor} {mapKey : σ → U64} {left : σ → Prop}
    (h : Keyed fw memoryMap mapKey left) {jump : Jump} {s' : Paging σ}
    (hrun : OsLoader.efiMain fw cpu kernelMagic s = .ok jump s') :
    left s'.allocator ∧ jump.params.memory.descriptors = memoryMap s'.allocator := by
  simp only [OsLoader.efiMain, bind_eq_ok] at hrun
  obtain ⟨_, s₁, -, content, s₂, -, mode, s₃, -, kernelParams, s₄, -, stackEnd, s₅, -, hrun⟩ := hrun
  split at hrun
  · obtain ⟨_, _, hthrow, -⟩ := bind_eq_ok.mp hrun
    exact (throw_eq_ok.mp hthrow).elim
  simp only [bind_eq_ok, onServices_eq_ok, pure_eq_ok] at hrun
  obtain ⟨memory, _, ⟨t, hexit, rfl⟩, rfl, rfl⟩ := hrun
  exact h.exitServices hexit

end Run

/-! ## At the jump -/

section Jump

variable {σ : Type} {fw : Firmware σ} {taken : σ → Set U64} {cpu : CPUFeatures}
  {kernelMagic : List U8}

/-- Wherever the loader jumps, the boot services are left and the kernel is told of the memory as
it is then. If the kernel ends below the stack, then it finds itself, its parameters and its stack
where it expects them, and the frame buffer and all the memory that it is told of where they
were. -/
theorem efiMain_entered {memoryMap : σ → List MemoryDescriptor} {mapKey : σ → U64}
    {left : σ → Prop} (h : Reliable fw taken) (hkeyed : Keyed fw memoryMap mapKey left) :
    Ensures (fun _ => True) (efiMain fw cpu kernelMagic) fun jump s' =>
      left s'.allocator ∧ jump.params.memory.descriptors = memoryMap s'.allocator ∧
      (jump.kernelContent.data.length ≤ (bottomStack - kernelCodeStart).toNat →
        ∃ mode, fw.graphicsOutput = some mode ∧
          Entered s' jump mode jump.params.memory.descriptors) := by
  intro s jump s' _ hrun
  obtain ⟨hleft, hmap⟩ := hkeyed.efiMain hrun
  refine ⟨hleft, hmap, fun hfits => ?_⟩
  obtain ⟨mode, descriptors, hmode, ⟨_, t, _, _, _, hanswer⟩, hentered⟩ :=
    h.entered_efiMain hrun hfits
  obtain ⟨-, hread⟩ := hkeyed.answer _ _ _ _ _ _ hanswer
  refine ⟨mode, hmode, hentered.described ?_⟩
  rw [hmap, hread]
  exact hkeyed.steady s'.allocator t

end Jump

/-! ## From the image to the entry -/

section Through

variable {application kernel kernelMagic : List U8} {k j : Nat} {LBASizeBytes : U16}
  {alignmentSizeBytes : U32} {efiReads kernelReads : List (Option (List U8))}

/-- From the image of the image builder the loader jumps into the kernel, unless firmware has no
more pages: then each word that the processor loads behind the address that the kernel was linked
to is the one of the kernel that the image builder was given, followed by zeros up to the end of a
block. -/
theorem efiMain_createUEFIImage (hL : IsTwoPow LBASizeBytes k) (hk : 9 ≤ k) (hk' : k ≤ 12)
    (ha : IsTwoPow alignmentSizeBytes j)
    (hfits : imageLBA (2 ^ k) (blockAlignment (2 ^ k) alignmentSizeBytes.toNat)
      (fileLBA (2 ^ k) application.length) (fileLBA (2 ^ k) kernel.length) * 2 ^ k < 2 ^ 32)
    (hmirror : MirrorAside (2 ^ k) (blockAlignment (2 ^ k) alignmentSizeBytes.toNat)
      (fileLBA (2 ^ k) application.length)) (hefi : Delivers efiReads application)
    (hkernel : Delivers kernelReads kernel) (happlication : application ≠ [])
    (hmagic : createMagic kernel = some kernelMagic)
    (hroom : fileLBA (2 ^ k) kernel.length * 2 ^ k ≤ (bottomStack - kernelCodeStart).toNat) :
    let c := setConfiguration LBASizeBytes (BitVec.ofNat 64 application.length)
      (BitVec.ofNat 64 kernel.length) alignmentSizeBytes
    ReturnsWith (createUEFIImage c efiReads kernelReads (BitVec.ofNat 64 application.length)
      (BitVec.ofNat 64 kernel.length) emptyImage) fun done image => done = true ∧
        ∀ (σ : Type) (fw : Firmware σ) (taken : σ → Set U64) (settled : σ → Prop)
          (cpu : CPUFeatures) (s : Paging σ) (blocks : Nat), c.totalImageSizeLBA.toNat ≤ blocks →
          StartedFrom fw.toBootServices image.bytes (2 ^ k) blocks kernelMagic
            (c.dataPartitionStartLBA.setWidth 64) →
          Reliable fw taken → Ready fw settled → cpu.Suffice →
          EndsIn (efiMain fw cpu kernelMagic s) Stop.OutOfPages fun _ s' =>
            ∀ a : U64, 8 ∣ a.toNat → a.toNat + 8 ≤ fileLBA (2 ^ k) kernel.length * 2 ^ k →
              load s' (kernelCodeStart + a) = wordAt (kernel ++ zeros (fileLBA (2 ^ k)
                kernel.length * 2 ^ k - kernel.length)) a.toNat := by
  intro c
  obtain ⟨h, kernelCluster, diskCluster, hcreated⟩ := createUEFIImage_planned hL hk hk' ha hfits
    hmirror hefi hkernel happlication
  have hlength : (kernel ++ zeros (fileLBA (2 ^ k) kernel.length * 2 ^ k - kernel.length)).length =
      fileLBA (2 ^ k) kernel.length * 2 ^ k := by
    rw [List.length_append, length_zeros, Nat.add_sub_of_le (le_fileLBA_mul k _)]
  refine hcreated.weaken fun _ _ hfilled => ⟨hfilled.1, ?_⟩
  intro σ fw taken settled cpu s blocks hblocks started hreliable hready hcpu
  have hload (t : σ) := loadKernel_filled (t := t) h hfilled.2 hmagic hblocks started
  refine (hready.endsIn_efiMain hreliable hcpu hload (hlength.trans_le hroom)).weaken ?_
  rintro jump s' - ⟨hdata, mode, descriptors, -, -, hentered⟩ a hdvd ha
  rw [← hdata]
  exact hentered.code a hdvd (by rw [hdata, hlength]; exact ha)

end Through

/-! ## Firmware with one disk, to the end -/

/-- Firmware on one disk, whose memory has one descriptor, with a frame buffer at 64 TiB. The key
of the memory map is the page that is given away next. -/
def diskFirmware (kernelInf : Option (List U8)) (bytes : Nat → U8) (blockSize blocks memory : Nat) :
    Firmware DiskState where
  toBootServices := diskServices kernelInf bytes blockSize blocks memory
  graphicsOutput := some ⟨0x400000000000, 0x1000, 16, 16, 16⟩
  getMemoryMap := fun size t =>
    if size.toNat < 40 then (.bufferTooSmall 40 40, t)
    else (.success 40 t.next 40 [⟨.conventionalMemory, 0, BitVec.ofNat 64 memory⟩], t)
  freePages := fun _ _ t => some t
  exitBootServices := fun key t => if key = t.next then (true, ⟨t.next, true⟩) else (false, t)
  tableBytes := fun _ => 0
  configurationTable := [⟨Efi.efiAcpi20TableGUID, 0x1000⟩]

/-- The pages below the next one are taken. -/
def DiskState.taken (t : DiskState) : Set U64 := {x | x.toNat < t.next.toNat}

section DiskFirmware

variable {kernelInf : Option (List U8)} {bytes : Nat → U8} {blockSize blocks memory : Nat}

/-- What an allocation does. -/
theorem diskServices_allocatePages {pages address : U64} {t t' : DiskState}
    (hmemory : memory ≤ 2 ^ 34) (h : (diskServices kernelInf bytes blockSize blocks
      memory).allocatePages pages t = some (address, t')) :
    address = t.next ∧ t.next ≠ 0 ∧ pageFrameSize ∣ t.next.toNat ∧
      t.next.toNat + pages.toNat * pageFrameSize ≤ memory * pageFrameSize ∧
      t'.next.toNat = t.next.toNat + pages.toNat * pageFrameSize := by
  simp only [diskServices] at h
  split at h
  · rename_i hfree
    simp only [Option.some.injEq, Prod.ext_iff] at h
    obtain ⟨rfl, rfl⟩ := h
    have hpage : UEFIPageSize.toNat = 4096 := rfl
    refine ⟨rfl, hfree.1, hfree.2.1, hfree.2.2, ?_⟩
    simp only [BitVec.toNat_add, BitVec.toNat_mul, hpage, pageFrameSize]
    omega
  · cases h

theorem handsOutPages_diskServices (hmemory : memory ≤ 2 ^ 34) :
    HandsOutPages (diskServices kernelInf bytes blockSize blocks memory) DiskState.taken := by
  constructor
  all_goals
    intro pages t address t' h
    obtain ⟨rfl, hne, haligned, hfits, hnext⟩ := diskServices_allocatePages hmemory h
  · exact haligned
  · exact hne
  · rw [pageFrameSize] at *
    omega
  · rw [Set.disjoint_left]
    rintro x ⟨-, hx⟩ hlt
    exact absurd hlt (Nat.not_lt.mpr hx.1)
  · rintro x (⟨-, hx⟩ | hx)
    · exact hx.2.trans_eq hnext.symm
    · exact lt_of_lt_of_le hx (hnext ▸ Nat.le_add_right _ _)

/-- Such firmware is reliable. -/
theorem reliable_diskFirmware (hmemory : memory ≤ 2 ^ 34) (hsome : 0 < memory) :
    Reliable (diskFirmware kernelInf bytes blockSize blocks memory) DiskState.taken := by
  have hdescriptors {size t memoryMapSize mapKey descriptorSize descriptors}
      (h : ((diskFirmware kernelInf bytes blockSize blocks memory).getMemoryMap size t).1 =
        .success memoryMapSize mapKey descriptorSize descriptors) :
      descriptors = [⟨.conventionalMemory, 0, BitVec.ofNat 64 memory⟩] := by
    simp only [diskFirmware] at h
    split at h
    · cases h
    · simp only [MapAnswer.success.injEq] at h
      exact h.2.2.2.symm
  have hspan : descriptorSpan ⟨.conventionalMemory, 0, BitVec.ofNat 64 memory⟩ =
      ⟨0, memory * pageFrameSize⟩ := by
    rw [descriptorSpan, BitVec.toNat_ofNat, Nat.mod_eq_of_lt (by omega)]
    rfl
  constructor
  case pages => exact handsOutPages_diskServices hmemory
  case fills =>
    intro handles hhandles device hdevice biop hbiop mediaId lba size data hread
    have hblocks : ∃ first count, device = diskHandle kernelInf bytes blockSize first count := by
      obtain rfl := Option.some.inj hhandles
      rcases List.mem_append.mp hdevice with h | h
      · obtain ⟨p, -, rfl⟩ := List.mem_map.mp h
        exact ⟨_, _, rfl⟩
      · exact ⟨_, _, List.mem_singleton.mp h⟩
    obtain ⟨first, count, rfl⟩ := hblocks
    obtain rfl := Option.some.inj hbiop
    dsimp only at hread
    split at hread
    · obtain rfl := Option.some.inj hread
      exact Fat32.length_slice ..
    · cases hread
  case maps =>
    intro size t
    simp only [diskFirmware]
    split <;> exact subset_rfl
  case describes =>
    intro mode hmode size t memoryMapSize mapKey descriptorSize descriptors h
    obtain rfl := hdescriptors h
    obtain rfl := Option.some.inj hmode
    have hframeBuffer : GraphicsOutputMode.span ⟨0x400000000000, 0x1000, 16, 16, 16⟩ =
        ⟨2 ^ 46, 1 * pageFrameSize⟩ := by
      rw [GraphicsOutputMode.span, toNat_ceilingDivValue (show IsTwoPow UEFIPageSize 12 by decide)
        (by decide)]
      rfl
    constructor
    case disjoint => exact List.pairwise_singleton ..
    case frameBuffer_aligned => exact Nat.dvd_of_mod_eq_zero rfl
    case frameBuffer_nonempty =>
      rw [hframeBuffer]
      exact Nat.zero_lt_succ _
    case frameBuffer_low =>
      rw [hframeBuffer]
      exact (show 2 ^ 46 + 1 * 4096 ≤ 2 ^ 47 by norm_num)
    all_goals
      simp only [List.forall_mem_singleton, hspan, hframeBuffer]
    case aligned => exact Nat.dvd_zero _
    case nonempty => exact Nat.mul_pos hsome (by decide)
    case low =>
      change 0 + memory * 4096 ≤ _
      omega
    case frameBuffer_disjoint =>
      refine Span.disjoint_of_stop_le ?_
      change 0 + memory * 4096 ≤ 2 ^ 46
      omega
  case describes_pages =>
    intro size t memoryMapSize mapKey descriptorSize descriptors h pages u address u' hpages n hn
    obtain rfl := hdescriptors h
    obtain ⟨rfl, -, -, hfits, -⟩ := diskServices_allocatePages hmemory hpages
    refine ⟨_, List.mem_singleton_self _, ?_⟩
    rw [hspan]
    exact Span.mem_mk.mpr ⟨Nat.zero_le _, (hn.2.trans_le hfits).trans_eq (Nat.zero_add _).symm⟩

/-- The loader gets through. -/
theorem ready_diskFirmware :
    Ready (diskFirmware kernelInf bytes blockSize blocks memory) fun _ => True where
  graphicsOutput := rfl
  rsdp := show (Efi.getRSDP (fun _ => 0) [⟨Efi.efiAcpi20TableGUID, 0x1000⟩]).rsdp ≠ 0 by
    decide +kernel
  answers := fun t => ⟨40, 40, t, rfl, fun _ => trivial, fun _ t' _ => ⟨fun _ => trivial, 40,
    t'.next, 40, _, t', rfl, fun _ => trivial⟩⟩
  exits := by
    intro size t memoryMapSize mapKey descriptorSize descriptors u h
    simp only [diskFirmware] at h
    split at h
    · cases h
    · simp only [Prod.ext_iff, MapAnswer.success.injEq] at h
      obtain ⟨⟨-, rfl, -⟩, rfl⟩ := h
      exact .inl (by simp only [diskFirmware, if_true])
  frees := fun _ _ t _ => ⟨t, rfl, trivial⟩

/-- The next page is a key for the memory map, which never changes. -/
theorem keyed_diskFirmware : Keyed (diskFirmware kernelInf bytes blockSize blocks memory)
    (fun _ => [⟨.conventionalMemory, 0, BitVec.ofNat 64 memory⟩]) DiskState.next
      fun t => t.left = true where
  answer := by
    intro size t memoryMapSize key descriptorSize descriptors h
    simp only [diskFirmware] at h
    split at h
    · cases h
    · simp only [MapAnswer.success.injEq] at h
      exact ⟨h.2.1.symm, h.2.2.2.symm⟩
  identifies := fun _ _ _ => rfl
  steady := fun _ _ d hd _ hn => ⟨d, hd, hn⟩
  exit := by
    intro key t h
    by_cases hkey : key = t.next
    · have hexit : (diskFirmware kernelInf bytes blockSize blocks memory).exitBootServices key t =
        (true, ⟨t.next, true⟩) := if_pos hkey
      rw [hexit]
      exact ⟨hkey, rfl, rfl⟩
    · have hexit : (diskFirmware kernelInf bytes blockSize blocks memory).exitBootServices key t =
        (false, t) := if_neg hkey
      rw [hexit] at h
      cases h

end DiskFirmware

/-- A processor with all that the loader asks for. -/
def sufficientCPU : CPUFeatures := ⟨1, true, true, true, true, true⟩

/-- Firmware with 33 pages and a kernel of a block of 8 bytes. -/
def firmwareOfEight : Firmware DiskState :=
  diskFirmware (some (text "BYTES=8\nLBA=1\n")) (BitVec.ofNat 8) 8 2 33

/-- The loader jumps into that kernel. -/
theorem efiMain_entered_eight : ∃ jump s', efiMain firmwareOfEight sufficientCPU [8, 9, 10, 11]
      ⟨fun _ => 0, 0, ⟨0x1000, false⟩⟩ = .ok jump s' ∧
    jump.kernelContent.data = [8, 9, 10, 11, 12, 13, 14, 15] ∧
    s'.allocator.left = true ∧
    jump.params.memory.descriptors = [⟨.conventionalMemory, 0, BitVec.ofNat 64 33⟩] ∧
    ∃ mode, firmwareOfEight.graphicsOutput = some mode ∧
      Entered s' jump mode jump.params.memory.descriptors := by
  have hevaluated : (match efiMain firmwareOfEight sufficientCPU [8, 9, 10, 11]
      ⟨fun _ => 0, 0, ⟨0x1000, false⟩⟩ with
    | .ok jump _ => jump.kernelContent.data
    | .error _ _ => []) = [8, 9, 10, 11, 12, 13, 14, 15] := by decide +kernel
  cases hrun : efiMain firmwareOfEight sufficientCPU [8, 9, 10, 11]
      ⟨fun _ => 0, 0, ⟨0x1000, false⟩⟩ with
  | error stop s' =>
    rw [hrun] at hevaluated
    cases hevaluated
  | ok jump s' =>
    rw [hrun] at hevaluated
    change jump.kernelContent.data = _ at hevaluated
    obtain ⟨hleft, hmap, hentered⟩ := efiMain_entered
      (reliable_diskFirmware (by norm_num) (by norm_num)) keyed_diskFirmware _ jump s' trivial hrun
    refine ⟨jump, s', rfl, hevaluated, hleft, hmap, hentered ?_⟩
    rw [hevaluated]
    decide

/-- The kernel of four bytes is what the processor finds. -/
theorem efiMain_createUEFIImage_four :
    let c := setConfiguration 512 (BitVec.ofNat 64 3) (BitVec.ofNat 64 4) 512
    ReturnsWith (createUEFIImage c [some [1, 2], some [3]] [some [4, 5, 6, 7]] (BitVec.ofNat 64 3)
      (BitVec.ofNat 64 4) emptyImage) fun done image => done = true ∧
        EndsIn (efiMain (diskFirmware (kernelInfOf image.bytes (2 ^ 9)) image.bytes (2 ^ 9)
          c.totalImageSizeLBA.toNat 64) sufficientCPU [4, 5, 6, 7]
            ⟨fun _ => 0, 0, ⟨0x1000, false⟩⟩) Stop.OutOfPages fun _ s' =>
              ∀ a : U64, 8 ∣ a.toNat → a.toNat + 8 ≤ fileLBA (2 ^ 9) 4 * 2 ^ 9 →
                load s' (kernelCodeStart + a) =
                  wordAt ([4, 5, 6, 7] ++ zeros (fileLBA (2 ^ 9) 4 * 2 ^ 9 - 4)) a.toNat := by
  intro c
  have hcreated := @efiMain_createUEFIImage [1, 2, 3] [4, 5, 6, 7] [4, 5, 6, 7] 9 9 512 512
    [some [1, 2], some [3]] [some [4, 5, 6, 7]] (by decide) (by decide) (by decide) (by decide)
    (by decide +kernel) (by decide +kernel) (.piece [1, 2] (.piece [3] (.done [])))
    (.piece [4, 5, 6, 7] (.done [])) (by decide) (by decide) (by decide +kernel)
  exact hcreated.weaken fun _ _ h => ⟨h.1, h.2 DiskState _ _ _ sufficientCPU _ _ le_rfl
    (startedFromDisk 64 (by norm_num) _ _) (reliable_diskFirmware (by norm_num) (by norm_num))
    ready_diskFirmware (by decide)⟩

end Homegrown.OsLoader
