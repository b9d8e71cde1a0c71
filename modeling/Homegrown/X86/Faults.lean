import Homegrown.X86.Interrupts

/-!
# Faults

The loader gives the processor its segments, and the kernel its interrupts. From then on the faults
that the kernel triggers itself reach its handler.
-/

namespace Homegrown.X86

open StackWords

/-! ## Tables -/

/-- What the loader and the kernel do for interrupts: `prepNewGDT`, `enableNewGDT`, `initIDT` and
`asm_lidt`. The jump from one to the other, to another stack, is left out. -/
def Machine.boot (m : Machine) (zeroPages idt label : U64) (symbols : Symbols) : Machine :=
  let gdt := prepNewGDT zeroPages m.memory
  let m' := { m with memory := gdt.2 }.exec (enableNewGDT gdt.1 label)
  let gates := initIDT idt symbols.isr m'.memory
  { m' with memory := gates.2 }.exec [.lidt gates.1]

section Boot

variable {m : Machine} {register : DescriptorTableRegister} {zeroPages idt label a : U64}
  {memory : U64 → U64} {isr' : U8 → U64} {symbols : Symbols}
  {codeAt : U64 → Option (List Instruction)} {n : Nat}

/-- Gates are not stored outside of their table. -/
theorem setGates_of_ne (hn : n ≤ 256) (h : ∀ j < 512, a ≠ slot idt j) :
    setGates idt isr' memory n a = memory a := by
  induction n with
  | zero => rfl
  | succ n ih =>
    have hnum : (BitVec.ofNat 8 n).toNat = n := Nat.mod_eq_of_lt hn
    rw [setGates, idtSetGate, write_of_notMem fun j hj heq => ?_, ih (by omega)]
    have hj : j < 2 := hj
    rw [slot_slot, hnum] at heq
    exact h _ (by omega) heq

theorem initIDT_of_ne (h : ∀ j < 512, a ≠ slot idt j) :
    (initIDT idt isr' memory).2 a = memory a := by
  rw [initIDT]
  exact setGates_of_ne (Nat.le_refl 256) h

/-- The processor has the register and the code segment of the kernel, and the stack was used for
two words. -/
theorem exec_enableNewGDT : (m.exec (enableNewGDT register label)).gdtr = register ∧
    (m.exec (enableNewGDT register label)).segment .cs = 0x08 ∧
    (m.exec (enableNewGDT register label)).rsp = m.rsp ∧
    ∀ a ∉ Slots m.rsp 2, (m.exec (enableNewGDT register label)).memory a = m.memory a := by
  have hpushes : Grown m.memory m.rsp _ _ ([label] ++ [0x08]) :=
    grown_push.trans grown_push (show 1 + 1 < 2 ^ 60 by norm_num)
  simp only [enableNewGDT, Machine.exec_cons, Machine.exec_nil, Machine.step, Machine.setGeneral,
    Machine.setSegment, Machine.push, Function.update_self, true_and]
  refine ⟨congrArg (BitVec.setWidth 16) hpushes.holds.2.1, ?_, hpushes.beside⟩
  rw [BitVec.sub_sub]
  exact BitVec.sub_add_cancel m.rsp 16

/-- The last step is the load of the table of interrupts. -/
theorem prepared_lidt {gates : DescriptorTableRegister × (U64 → U64)}
    (hsegments : HasSegments gates.2 m.gdtr) (hgates : HasGates symbols.isr gates.2 gates.1)
    (hroutines : ∀ num, codeAt (symbols.isr num) = some (isr num ++ isrStub))
    (hkernel : m.segment .cs &&& 3 = 0) :
    ({ m with memory := gates.2 }.exec [.lidt gates.1]).Prepared symbols codeAt :=
  ⟨hsegments, hgates, hroutines, hkernel⟩

/-- The tables are set up where they do not lie on the stack or in each other. -/
theorem prepared_boot
    (hstack : ∀ i < 5, ∀ a ∈ Slots m.rsp 2, WordsApart (slot (zeroPages + 4096) i) a)
    (hapart : ∀ i < 5, ∀ j < 512, WordsApart (slot (zeroPages + 4096) i) (slot idt j))
    (hroutines : ∀ num, codeAt (symbols.isr num) = some (isr num ++ isrStub)) :
    (m.boot zeroPages idt label symbols).Prepared symbols codeAt := by
  obtain ⟨hgdtr, hcs, -, hbeside⟩ := @exec_enableNewGDT
    { m with memory := (prepNewGDT zeroPages m.memory).2 } (prepNewGDT zeroPages m.memory).1 label
  have hprep : HasSegments (prepNewGDT zeroPages m.memory).2 (prepNewGDT zeroPages m.memory).1 :=
    hasSegments_prepNewGDT
  obtain ⟨hlimit, zero, hwords⟩ := hprep
  rw [Machine.boot]
  refine prepared_lidt ?_ hasGates_initIDT hroutines ?_
  · have hbase : (prepNewGDT zeroPages m.memory).1.base = zeroPages + 4096 := rfl
    rw [hgdtr]
    refine ⟨hlimit, zero, hwords.congr fun i hi => ?_⟩
    rw [hbase, initIDT_of_ne fun j hj => (hapart i hi j hj).ne,
      hbeside _ fun hmem => (hstack i hi _ hmem).ne rfl]
  · rw [hcs]
    decide

/-- The code segment is the one of the kernel, and the stack is as before. -/
theorem context_boot : (m.boot zeroPages idt label symbols).segment .cs = 0x08 ∧
    (m.boot zeroPages idt label symbols).rsp = m.rsp := by
  have hload {m : Machine} {gates : DescriptorTableRegister × (U64 → U64)} :
      ({ m with memory := gates.2 }.exec [.lidt gates.1]).toContext = m.toContext := rfl
  rw [Machine.boot, hload]
  exact ⟨exec_enableNewGDT.2.1, exec_enableNewGDT.2.2.1⟩

/-- The tables are where they were stored. -/
theorem tables_boot : (m.boot zeroPages idt label symbols).gdtr.base = zeroPages + 4096 ∧
    (m.boot zeroPages idt label symbols).idtr.base = idt := by
  have hload {m : Machine} {gates : DescriptorTableRegister × (U64 → U64)} :
      ({ m with memory := gates.2 }.exec [.lidt gates.1]).gdtr = m.gdtr ∧
        ({ m with memory := gates.2 }.exec [.lidt gates.1]).idtr = gates.1 := ⟨rfl, rfl⟩
  rw [Machine.boot, hload.1, hload.2, exec_enableNewGDT.1, initIDT]
  exact ⟨rfl, rfl⟩

end Boot

/-! ## Faults of the kernel -/

/-- The number that `triggerFault` raises. -/
def vectorOf (fault : U64) : U8 := if fault.toNat < 36 then fault.setWidth 8 else 0xFF

/-- `triggerFault`: a software interrupt, for which the processor pushes no error code. -/
def Machine.triggerFault (m : Machine) (symbols : Symbols)
    (codeAt : U64 → Option (List Instruction)) (fault : U64) : Option Machine :=
  m.interrupt symbols codeAt (vectorOf fault) none

/-! ## A small machine -/

/-- The routines are at addresses of their own. -/
def bareSymbols : Symbols := ⟨fun num => slot 0x100000 (2 * num.toNat), 0x200000, 0x200100⟩

/-- The code at these addresses. -/
def bareCode (address : U64) : Option (List Instruction) :=
  if (address.toNat - 0x100000) / 16 < 256 then
    some (isr (BitVec.ofNat 8 ((address.toNat - 0x100000) / 16)) ++ isrStub)
  else none

/-- A machine whose registers are clear, and its memory as well. -/
def bareMachine : Machine where
  general := fun _ => 0
  segment := fun _ => 0
  rsp := 0x9000
  rip := 0x300000
  rflags := 2
  memory := fun _ => 0
  gdtr := ⟨0, 0⟩
  idtr := ⟨0, 0⟩
  taskRegister := 0

/-- It is given its tables. -/
def bareBooted : Machine := bareMachine.boot 0x1000 0x4000 0x300010 bareSymbols

theorem bareCode_isr (num : U8) : bareCode (bareSymbols.isr num) = some (isr num ++ isrStub) := by
  have hlt := num.isLt
  have haddress : ((bareSymbols.isr num).toNat - 0x100000) / 16 = num.toNat := by
    change ((slot 0x100000 (2 * num.toNat)).toNat - 0x100000) / 16 = num.toNat
    rw [toNat_slot, show (0x100000 : U64).toNat = 0x100000 from rfl]
    omega
  rw [bareCode, haddress, if_pos hlt, BitVec.ofNat_toNat, BitVec.setWidth_eq]

/-- The tables are apart from each other, and from the stack. -/
theorem apart_bareMachine :
    (∀ i < 5, ∀ a ∈ Slots bareMachine.rsp 2, WordsApart (slot (0x1000 + 4096) i) a) ∧
    ∀ i < 5, ∀ j < 512, WordsApart (slot (0x1000 + 4096) i) (slot 0x4000 j) := by
  have hsegment (i : Nat) : (slot (0x1000 + 4096) i).toNat = (0x2000 + 8 * i) % 2 ^ 64 := toNat_slot
  refine ⟨fun i hi a ⟨j, hj, heq⟩ => wordsApart_of_le ?_ ?_, fun i hi j hj =>
    wordsApart_of_le ?_ ?_⟩
  all_goals rw [hsegment]
  · have heq := congrArg BitVec.toNat heq
    rw [toNat_slot, show bareMachine.rsp.toNat = 0x9000 from rfl] at heq
    omega
  · have hlt := a.isLt
    omega
  all_goals
    rw [toNat_slot, show (0x4000 : U64).toNat = 0x4000 from rfl]
    omega

/-- It goes on with another stack. -/
def bareLater : Machine := bareBooted.setStack 0x8800

theorem bareLater_keeps : bareLater.tables = bareBooted.tables ∧
    bareLater.memory = bareBooted.memory ∧ bareLater.segment .cs = 0x08 := by
  obtain ⟨htables, hmemory, hsegment⟩ := bareBooted.setStack_keeps 0x8800
  exact ⟨htables, hmemory, (congrFun hsegment .cs).trans context_boot.1⟩

theorem prepared_bareBooted : bareBooted.Prepared bareSymbols bareCode :=
  prepared_boot apart_bareMachine.1 apart_bareMachine.2 bareCode_isr

section Interrupt

variable {m : Machine} {symbols : Symbols} {codeAt : U64 → Option (List Instruction)}

/-- For every number, the handler starts with an aligned stack and sees what was interrupted: unless
the number is one of `isr_wrapper_with_error` and no error code was pushed. Then it sees each word
in the place of another one, on a stack that is not aligned. -/
theorem interrupt_regs {num : U8} {errorCode : Option U64} (h : m.Prepared symbols codeAt)
    (herror : errorCode.isSome → num ∈ withError) : ∃ m',
      m.interrupt symbols codeAt num errorCode = some m' ∧
      if num ∈ withError ∧ errorCode = none then
        m.Shown m' symbols { m.toContext.regs (num.setWidth 64) m.rip with
          rip := (m.segment .cs).setWidth 64, cs := m.rflags, eflags := m.rsp } 26 ∧
        m'.rsp.toNat % 16 = 0
      else
        m.Shown m' symbols (m.toContext.regs (num.setWidth 64) (errorCode.getD 0)) 27 ∧
        m'.rsp.toNat % 16 = 8 := by
  by_cases hshift : num ∈ withError ∧ errorCode = none
  · obtain ⟨hnum, rfl⟩ := hshift
    obtain ⟨m', hrun, hshown⟩ := interrupt_shows_shifted h hnum
    have haligned := aligned_of_slot hshown.stack
    refine ⟨m', hrun, ?_⟩
    rw [if_pos ⟨hnum, rfl⟩]
    exact ⟨hshown, by omega⟩
  · have hsome : errorCode.isSome ↔ num ∈ withError := by
      refine ⟨herror, fun hnum => ?_⟩
      rw [Option.isSome_iff_ne_none]
      exact fun hnone => hshift ⟨hnum, hnone⟩
    obtain ⟨m', hrun, hshown, -⟩ := interrupt_shows h hsome
    have haligned := aligned_of_slot hshown.stack
    refine ⟨m', hrun, ?_⟩
    rw [if_neg hshift]
    exact ⟨hshown, by omega⟩

/-- A page fault is shown with its error code. -/
theorem interrupt_regs_page : ∃ m',
    bareBooted.interrupt bareSymbols bareCode 14 (some 2) = some m' ∧
    if (14 : U8) ∈ withError ∧ some (2 : U64) = none then
      bareBooted.Shown m' bareSymbols { bareBooted.toContext.regs ((14 : U8).setWidth 64)
        bareBooted.rip with
        rip := (bareBooted.segment .cs).setWidth 64
        cs := bareBooted.rflags
        eflags := bareBooted.rsp } 26 ∧ m'.rsp.toNat % 16 = 0
    else
      bareBooted.Shown m' bareSymbols (bareBooted.toContext.regs ((14 : U8).setWidth 64)
        ((some 2).getD 0)) 27 ∧ m'.rsp.toNat % 16 = 8 :=
  interrupt_regs prepared_bareBooted (by decide)

/-- The number of a fault. -/
theorem toNat_vectorOf (fault : U64) :
    (vectorOf fault).setWidth 64 = if fault.toNat < 36 then fault else 0xFF := by
  rw [vectorOf]
  split
  case isTrue h =>
    apply BitVec.eq_of_toNat_eq
    rw [BitVec.toNat_setWidth, BitVec.toNat_setWidth]
    omega
  case isFalse => rfl

/-- Once the tables are set up, and for as long as they are not overwritten, every fault that is
triggered reaches the handler with its own number, or with the last one if there is no such
fault. -/
theorem triggerFault_boot {m' : Machine} {zeroPages idt label : U64}
    (hstack : ∀ i < 5, ∀ a ∈ Slots m.rsp 2, WordsApart (slot (zeroPages + 4096) i) a)
    (hapart : ∀ i < 5, ∀ j < 512, WordsApart (slot (zeroPages + 4096) i) (slot idt j))
    (hroutines : ∀ num, codeAt (symbols.isr num) = some (isr num ++ isrStub))
    (htables : m'.tables = (m.boot zeroPages idt label symbols).tables)
    (hsegments : ∀ i < 5, m'.memory (slot (zeroPages + 4096) i) =
      (m.boot zeroPages idt label symbols).memory (slot (zeroPages + 4096) i))
    (hgates : ∀ i < 512, m'.memory (slot idt i) =
      (m.boot zeroPages idt label symbols).memory (slot idt i))
    (hcs : m'.segment .cs = 0x08) (fault : U64) :
    let intNo := if fault.toNat < 36 then fault else 0xFF
    ∃ m'', m'.triggerFault symbols codeAt fault = some m'' ∧
      if vectorOf fault ∈ withError then
        m'.Shown m'' symbols { m'.toContext.regs intNo m'.rip with
          rip := 0x08, cs := m'.rflags, eflags := m'.rsp } 26
      else m'.Shown m'' symbols (m'.toContext.regs intNo 0) 27 := by
  intro intNo
  obtain ⟨hgdtr, hidtr⟩ := @tables_boot m zeroPages idt label symbols
  have hprepared : m'.Prepared symbols codeAt :=
    (prepared_boot hstack hapart hroutines).later htables (hgdtr ▸ hsegments) (hidtr ▸ hgates)
      (by rw [hcs]; decide)
  have hcode : (m'.segment .cs).setWidth 64 = 0x08 := congrArg (BitVec.setWidth 64) hcs
  have hintNo : (vectorOf fault).setWidth 64 = intNo := toNat_vectorOf fault
  by_cases hnum : vectorOf fault ∈ withError
  · obtain ⟨m'', hrun, hshown⟩ := interrupt_shows_shifted hprepared hnum
    rw [hintNo, hcode] at hshown
    refine ⟨m'', hrun, ?_⟩
    rw [if_pos hnum]
    exact hshown
  · obtain ⟨m'', hrun, hshown, -⟩ := @interrupt_shows m' symbols codeAt (vectorOf fault) none
      hprepared (iff_of_false Bool.false_ne_true hnum)
    rw [hintNo] at hshown
    refine ⟨m'', hrun, ?_⟩
    rw [if_neg hnum]
    exact hshown

/-- So does the one for which no memory is left, on another stack. -/
theorem triggerFault_boot_memory :
    let intNo := if (34 : U64).toNat < 36 then 34 else 0xFF
    ∃ m'', bareLater.triggerFault bareSymbols bareCode 34 = some m'' ∧
      if vectorOf 34 ∈ withError then
        bareLater.Shown m'' bareSymbols { bareLater.toContext.regs intNo bareLater.rip with
          rip := 0x08, cs := bareLater.rflags, eflags := bareLater.rsp } 26
      else bareLater.Shown m'' bareSymbols (bareLater.toContext.regs intNo 0) 27 :=
  triggerFault_boot apart_bareMachine.1 apart_bareMachine.2 bareCode_isr bareLater_keeps.1
    (fun _ _ => congrFun bareLater_keeps.2.1 _) (fun _ _ => congrFun bareLater_keeps.2.1 _)
    bareLater_keeps.2.2 34

end Interrupt

end Homegrown.X86
