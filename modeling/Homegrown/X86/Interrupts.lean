import Homegrown.X86.Machine

/-!
# Interrupt routines

The routines of all numbers go on in one stub, which saves the registers that were interrupted,
calls `fault_handler` and restores them. The handler sees them as its `regs`
(`interrupt_shows`), whatever was interrupted, and whatever it leaves there is what the processor
goes on with (`resume_eq`).
-/

namespace Homegrown.X86

open StackWords

/-! ## The assembly -/

/-- The registers of `popaq`, in its order. -/
def savedRegisters : List Register :=
  [.r15, .r14, .r13, .r12, .r11, .r10, .r9, .r8, .rdi, .rsi, .rbp, .rbx, .rdx, .rcx, .rax]

/-- `pushaq`. -/
def pushaq : List Instruction :=
  [Register.rax, .rcx, .rdx, .rbx, .rbp, .rsi, .rdi, .r8, .r9, .r10, .r11, .r12, .r13, .r14,
    .r15].map .pushq

/-- `popaq`. -/
def popaq : List Instruction := savedRegisters.map .popq

/-- `KERNEL_DATA_SEG`. -/
def kernelDataSeg : U16 := 1 <<< 4

/-- The push of a segment register in `isr_stub`. -/
def saveSegment (segment : Segment) : List Instruction := [.movFromSegment segment, .pushq .rax]

/-- What `isr_stub` does before the call, with all registers saved. -/
def loadSegments : List Instruction :=
  [.movw kernelDataSeg, .movToSegment .ds, .movToSegment .es, .movToSegment .fs,
    .movToSegment .gs, .movStackPointer .rdi, .cld]

/-- `isr_stub`, up to the call of `fault_handler`. -/
def isrStub : List Instruction :=
  pushaq ++ [Segment.ds, .es, .fs, .gs].flatMap saveSegment ++ loadSegments

/-- The pop of a segment register in `isr_stub`. -/
def restoreSegment (segment : Segment) : List Instruction := [.popq .rax, .movToSegment segment]

/-- `isr_stub`, from there up to `iretq`. -/
def isrStubReturn : List Instruction :=
  [Segment.gs, .fs, .es, .ds].flatMap restoreSegment ++ popaq ++ [.addStackPointer 16]

/-- The numbers of `isr_wrapper_with_error`. -/
def withError : List U8 := [8, 10, 11, 12, 13, 14, 17, 21]

/-- What a wrapper pushes, with the last push first. -/
def wrapperWords (num : U8) : List U64 :=
  if num ∈ withError then [num.setWidth 64] else [num.setWidth 64, 0]

/-- `isr_wrapper_with_error`, and `isr_wrapper_no_error`, up to the jump to `isr_stub`. -/
def isr (num : U8) : List Instruction :=
  if num ∈ withError then [.cli, .pushImmediate (num.setWidth 64)]
  else [.cli, .pushImmediate 0, .pushImmediate (num.setWidth 64)]

/-- `enableNewGDT`. The label is behind `lretq`. -/
def enableNewGDT (register : DescriptorTableRegister) (label : U64) : List Instruction :=
  [.lgdt register, .movw 0x18, .ltr, .movq 0x08 .rax, .pushq .rax, .movq label .rax, .pushq .rax,
    .lretq, .movw 0x10, .movToSegment .ds, .movToSegment .es, .movToSegment .fs,
    .movToSegment .gs, .movToSegment .ss]

/-- Where the linker has put the routines, the handler, and what is behind its call. -/
structure Symbols where
  isr : U8 → U64
  faultHandler : U64
  returnAddress : U64

/-- The interrupt of a number, up to the first instruction of the handler. -/
def Machine.interrupt (m : Machine) (symbols : Symbols) (codeAt : U64 → Option (List Instruction))
    (num : U8) (errorCode : Option U64) : Option Machine := do
  let m' ← m.deliver num errorCode
  let code ← codeAt m'.rip
  return (m'.exec code).call symbols.faultHandler symbols.returnAddress

/-- From the return of the handler to where `iretq` goes on. -/
def Machine.resume (m : Machine) : Machine := (m.ret.exec isrStubReturn).iretq

/-! ## What the handler sees -/

/-- `regs`. -/
structure Regs where
  gs : U16
  fs : U16
  es : U16
  ds : U16
  general : Register → U64
  intNo : U64
  errCode : U64
  rip : U64
  cs : U64
  eflags : U64

/-- The place of a register in `regs`, in words. -/
def Register.place : Register → Nat
  | .r15 => 4
  | .r14 => 5
  | .r13 => 6
  | .r12 => 7
  | .r11 => 8
  | .r10 => 9
  | .r9 => 10
  | .r8 => 11
  | .rdi => 12
  | .rsi => 13
  | .rbp => 14
  | .rbx => 15
  | .rdx => 16
  | .rcx => 17
  | .rax => 18

/-- The `regs` at an address. -/
def Regs.read (memory : U64 → U64) (address : U64) : Regs where
  gs := (memory (slot address 0)).setWidth 16
  fs := (memory (slot address 1)).setWidth 16
  es := (memory (slot address 2)).setWidth 16
  ds := (memory (slot address 3)).setWidth 16
  general := fun register => memory (slot address register.place)
  intNo := memory (slot address 19)
  errCode := memory (slot address 20)
  rip := memory (slot address 21)
  cs := memory (slot address 22)
  eflags := memory (slot address 23)

/-- What `regs` has to show of a context. -/
def Context.regs (c : Context) (intNo errCode : U64) : Regs where
  gs := c.segment .gs
  fs := c.segment .fs
  es := c.segment .es
  ds := c.segment .ds
  general := c.general
  intNo := intNo
  errCode := errCode
  rip := c.rip
  cs := (c.segment .cs).setWidth 64
  eflags := c.rflags

/-- The context that is in memory from the place of `regs` on. -/
def contextAt (memory : U64 → U64) (address : U64) : Context where
  general := fun register => memory (slot address register.place)
  segment := fun
    | .gs => (memory (slot address 0)).setWidth 16
    | .fs => (memory (slot address 1)).setWidth 16
    | .es => (memory (slot address 2)).setWidth 16
    | .ds => (memory (slot address 3)).setWidth 16
    | .cs => (memory (slot address 22)).setWidth 16
    | .ss => (memory (slot address 25)).setWidth 16
  rip := memory (slot address 21)
  rflags := memory (slot address 23)
  rsp := memory (slot address 24)

/-- What the processor has pushed, with the last push first. -/
def Machine.contextWords (m : Machine) (errorCode : Option U64) : List U64 :=
  errorCode.toList ++
    [m.rip, (m.segment .cs).setWidth 64, m.rflags, m.rsp, (m.segment .ss).setWidth 64]

/-- The tables are in memory, and the processor is in the kernel. -/
structure Machine.Prepared (m : Machine) (symbols : Symbols)
    (codeAt : U64 → Option (List Instruction)) : Prop where
  segments : HasSegments m.memory m.gdtr
  gates : HasGates symbols.isr m.memory m.idtr
  routines : ∀ num, codeAt (symbols.isr num) = some (isr num ++ isrStub)
  kernel : m.segment .cs &&& 3 = 0

/-- The state of the processor in which the handler starts: in the segments of the kernel, with the
address of its `regs` in `rdi`, and without the flags `IF` and `DF`. -/
structure Machine.Entered (m m' : Machine) (symbols : Symbols) : Prop where
  rip : m'.rip = symbols.faultHandler
  regs : m'.general .rdi = m'.rsp + 8
  segment : ∀ s, m'.segment s =
    if s = .cs then 0x08 else if s = .ss then m.segment .ss else kernelDataSeg
  flags : m'.rflags &&& (interruptFlag ||| directionFlag) = 0
  tables : m'.tables = m.tables

/-- What lies behind the saved segments in `regs`, with what the processor has pushed. -/
def Machine.frame (m : Machine) (num : U8) (errorCode : Option U64) : List U64 :=
  savedRegisters.map m.general ++ (wrapperWords num ++ m.contextWords errorCode)

/-- It stays so while the tables are where they are, with what they hold. -/
theorem Machine.Prepared.later {m m' : Machine} {symbols : Symbols}
    {codeAt : U64 → Option (List Instruction)} (h : m.Prepared symbols codeAt)
    (htables : m'.tables = m.tables)
    (hsegments : ∀ i < 5, m'.memory (slot m.gdtr.base i) = m.memory (slot m.gdtr.base i))
    (hgates : ∀ i < 512, m'.memory (slot m.idtr.base i) = m.memory (slot m.idtr.base i))
    (hkernel : m'.segment .cs &&& 3 = 0) : m'.Prepared symbols codeAt := by
  have hgdtr : m'.gdtr = m.gdtr := congrArg Prod.fst htables
  have hidtr : m'.idtr = m.idtr := congrArg (·.2.1) htables
  obtain ⟨hlimit, zeroPages, hwords⟩ := h.segments
  obtain ⟨hlimit', hall⟩ := h.gates
  refine ⟨?_, ?_, h.routines, hkernel⟩
  · rw [hgdtr]
    exact ⟨hlimit, zeroPages, hwords.congr hsegments⟩
  · rw [hidtr]
    refine ⟨hlimit', fun num => (hall num).congr fun i hi => ?_⟩
    have hnum := num.isLt
    have hi : i < 2 := hi
    rw [slot_slot]
    exact hgates _ (by omega)

theorem Register.mem_savedRegisters (r : Register) : r ∈ savedRegisters := by cases r <;> decide

theorem Register.place_eq (r : Register) : 4 + savedRegisters.idxOf r = r.place := by
  cases r <;> decide

section Entry

variable {m : Machine} {symbols : Symbols} {codeAt : U64 → Option (List Instruction)} {num : U8}
  {errorCode : Option U64}

theorem grows_pushContext : { m with rsp := m.rsp &&& ~~~0xF }.Grows (m.pushContext errorCode)
    (m.contextWords errorCode) := by
  cases errorCode with
  | none => exact Machine.grows_pushAll [_, _, _, _, _] (show 5 < 2 ^ 60 by norm_num)
  | some code => exact Machine.grows_pushAll [_, _, _, _, _, _] (show 6 < 2 ^ 60 by norm_num)

/-- A wrapper clears a flag and pushes its words. -/
theorem exec_isr : m.exec (isr num) =
    { m with rflags := m.rflags &&& ~~~interruptFlag }.pushAll (wrapperWords num).reverse := by
  rw [isr, wrapperWords]
  split <;> rfl

theorem grows_isr : m.Grows (m.exec (isr num)) (wrapperWords num) := by
  rw [isr, wrapperWords]
  split
  · exact grown_push
  · exact Machine.grows_pushAll [0, _] (show 2 < 2 ^ 60 by norm_num)

/-- What a segment is pushed as. -/
def Machine.segmentWord (m : Machine) (segment : Segment) : U64 :=
  withLow (m.general .rax) (m.segment segment)

/-- The push of a segment leaves the word in `rax`. -/
theorem exec_saveSegment (segment : Segment) : m.exec (saveSegment segment) =
    (m.setGeneral .rax (m.segmentWord segment)).push (m.segmentWord segment) := by
  simp only [saveSegment, Machine.exec_cons, Machine.exec_nil, Machine.step,
    Machine.setGeneral_self, Machine.segmentWord]

theorem grows_saveSegment (segment : Segment) :
    m.Grows (m.exec (saveSegment segment)) [m.segmentWord segment] := by
  rw [exec_saveSegment]
  exact grown_push

/-- The segments are pushed with their selectors in the lowest bits. -/
theorem grows_saves {segments : List Segment} (h : segments.length < 2 ^ 59) :
    ∃ words, m.Grows (m.exec (segments.flatMap saveSegment)) words ∧
      words.map (BitVec.setWidth 16) = (segments.map m.segment).reverse := by
  induction segments generalizing m with
  | nil => exact ⟨[], Grown.refl, rfl⟩
  | cons segment segments ih =>
    rw [List.length_cons] at h
    obtain ⟨words, hgrows, hwords⟩ := @ih (m.exec (saveSegment segment)) (by omega)
    have hlen := congrArg List.length hwords
    rw [List.length_map, List.length_reverse, List.length_map] at hlen
    refine ⟨words ++ [m.segmentWord segment], ?_, ?_⟩
    · rw [List.flatMap_cons, Machine.exec_append]
      refine (grows_saveSegment segment).trans hgrows ?_
      rw [List.length_singleton]
      omega
    · rw [exec_saveSegment, Machine.push_segment, Machine.setGeneral_segment] at hwords
      have hfirst : (m.segmentWord segment).setWidth 16 = m.segment segment := setWidth_withLow ..
      rw [List.map_append, hwords, List.map_singleton, hfirst, List.map_cons, List.reverse_cons]

/-- The load of the segments keeps the stack. -/
theorem Machine.Grows.loadSegments {m' : Machine} {words : List U64} (h : m.Grows m' words) :
    m.Grows (m'.exec loadSegments) words := h

/-- The stub pushes all registers. -/
theorem grows_isrStub : ∃ segments, m.Grows (m.exec isrStub)
      (segments ++ savedRegisters.map m.general) ∧
    segments.map (BitVec.setWidth 16) = [Segment.gs, .fs, .es, .ds].map m.segment := by
  have hpushes : m.Grows (m.exec pushaq) (savedRegisters.map m.general) := by
    rw [pushaq, Machine.exec_pushes]
    exact Machine.grows_pushAll _ (show 15 < 2 ^ 60 by norm_num)
  obtain ⟨segments, hgrows, hsegments⟩ :=
    @grows_saves (m.exec pushaq) [.ds, .es, .fs, .gs] (show 4 < 2 ^ 59 by norm_num)
  have hlen : segments.length = 4 := by
    rw [← List.length_map (BitVec.setWidth 16), hsegments]
    rfl
  refine ⟨segments, ?_, ?_⟩
  · rw [isrStub, Machine.exec_append, Machine.exec_append]
    refine (hpushes.trans hgrows ?_).loadSegments
    rw [hlen]
    exact show 15 + 4 < 2 ^ 60 by norm_num
  · rw [hsegments]
    rfl

/-- Flags that were cleared. -/
theorem flags_cleared {a b : U64} (flags : U64) : flags &&& ~~~a &&& ~~~b &&& (a ||| b) = 0 := by
  ext i hi
  simp only [BitVec.getElem_and, BitVec.getElem_or, BitVec.getElem_not]
  cases a[i] <;> cases b[i] <;> simp

/-- The stub leaves the code segment and the stack segment. -/
theorem segment_isrStub (s : Segment) : (m.exec isrStub).segment s =
    if s = .cs then m.segment .cs else if s = .ss then m.segment .ss else kernelDataSeg := by
  cases s with
  | cs | ss => rfl
  | ds | es | fs | gs => exact setWidth_withLow _ kernelDataSeg

/-- The stub clears a flag. -/
theorem rflags_isrStub : (m.exec isrStub).rflags = m.rflags &&& ~~~directionFlag := by
  have hsaves {m : Machine} (segments : List Segment) :
      (m.exec (segments.flatMap saveSegment)).rflags = m.rflags := by
    induction segments generalizing m with
    | nil => rfl
    | cons segment segments ih =>
      rw [List.flatMap_cons, Machine.exec_append, ih, exec_saveSegment]
      rfl
  have hload {m : Machine} : (m.exec loadSegments).rflags = m.rflags &&& ~~~directionFlag := by
    simp only [loadSegments, Machine.exec_cons, Machine.exec_nil, Machine.step]
    rfl
  rw [isrStub, Machine.exec_append, Machine.exec_append, hload, hsaves, pushaq,
    Machine.exec_pushes, Machine.pushAll_rflags]

/-- The processor as it starts with the routine of a number. -/
def Machine.delivered (m : Machine) (num : U8) (errorCode : Option U64) (symbols : Symbols) :
    Machine :=
  { (m.pushContext errorCode).setSegment .cs 0x08 with
    rip := symbols.isr num, rflags := m.rflags &&& ~~~gateMask }

/-- It finds the routine of every number in its tables. -/
theorem interrupt_eq (h : m.Prepared symbols codeAt) :
    m.interrupt symbols codeAt num errorCode =
      some (((m.delivered num errorCode symbols).exec (isr num ++ isrStub)).call
        symbols.faultHandler symbols.returnAddress) := by
  have hgate := h.gates.readGate num
  have hcode : readSegment m.memory m.gdtr (gateOf (symbols.isr num) .interruptGate).selector = _ :=
    h.segments.readSegment.1
  have husable : (gateOf (symbols.isr num) .interruptGate).Usable ∧
      (gdtTable 0).kernelCode.IsKernelCode ∧ m.segment .cs &&& 3 = 0 :=
    ⟨⟨rfl, show (0 : U8) &&& 7 = 0 by decide⟩, by decide, h.kernel⟩
  have hdeliver : m.deliver num errorCode = some (m.delivered num errorCode symbols) := by
    simp only [Machine.deliver, hgate, hcode, Option.bind_eq_bind, Option.bind_some, if_pos husable,
      offset_gateOf]
    rfl
  have hroutine : codeAt (m.delivered num errorCode symbols).rip = some (isr num ++ isrStub) :=
    h.routines num
  simp only [Machine.interrupt, hdeliver, hroutine, Option.bind_eq_bind, Option.bind_some]
  rfl

section Delivered

/-- The registers behind the wrapper. -/
theorem general_wrapped :
    ((m.delivered num errorCode symbols).exec (isr num)).general = m.general := by
  rw [exec_isr, Machine.pushAll_general]
  exact Machine.pushAll_general _

/-- The segments behind it. -/
theorem segment_wrapped (s : Segment) :
    ((m.delivered num errorCode symbols).exec (isr num)).segment s =
      if s = .cs then 0x08 else m.segment s := by
  rw [exec_isr, Machine.pushAll_segment]
  change Function.update (m.pushContext errorCode).segment .cs 0x08 s = _
  rw [Function.update_apply, Machine.pushContext, Machine.pushAll_segment]

/-- The state in which the handler starts. -/
theorem entered_handler : m.Entered (((m.delivered num errorCode symbols).exec
    (isr num ++ isrStub)).call symbols.faultHandler symbols.returnAddress) symbols := by
  have hcontext : (m.pushContext errorCode).tables = m.tables := by
    rw [Machine.pushContext, Machine.pushAll_tables]
    rfl
  have hcode : (isr num ++ isrStub).all (!·.loadsTable) := by
    rw [isr]
    split <;> rfl
  have htables := (@Machine.exec_tables (m.delivered num errorCode symbols) _ hcode).trans hcontext
  have hflags : ((m.delivered num errorCode symbols).exec (isr num)).rflags =
      m.rflags &&& ~~~gateMask &&& ~~~interruptFlag := by
    rw [exec_isr, Machine.pushAll_rflags]
    rfl
  exact {
    rip := rfl
    regs := by
      rw [Machine.exec_append]
      exact (BitVec.sub_add_cancel ..).symm
    segment := fun s => by
      rw [Machine.exec_append, Machine.call, Machine.push_segment, segment_isrStub,
        segment_wrapped, segment_wrapped]
      rfl
    flags := by
      rw [Machine.exec_append, Machine.call, Machine.push_rflags, rflags_isrStub, hflags]
      exact flags_cleared (m.rflags &&& ~~~gateMask)
    tables := htables }

/-- What is on the stack when it starts. -/
theorem grows_handler : ∃ segments, { m with rsp := m.rsp &&& ~~~0xF }.Grows
      (((m.delivered num errorCode symbols).exec (isr num ++ isrStub)).call symbols.faultHandler
        symbols.returnAddress)
      (symbols.returnAddress :: (segments ++ m.frame num errorCode)) ∧
    segments.map (BitVec.setWidth 16) = [Segment.gs, .fs, .es, .ds].map m.segment := by
  obtain ⟨segments, hstub, hsegments⟩ :=
    @grows_isrStub ((m.delivered num errorCode symbols).exec (isr num))
  have hlen : segments.length = 4 := by
    rw [← List.length_map (BitVec.setWidth 16), hsegments]
    rfl
  have hwrapper : (wrapperWords num).length ≤ 2 := by
    rw [wrapperWords]
    split
    · exact Nat.le_succ 1
    · exact Nat.le_refl 2
  have hcontext : (m.contextWords errorCode).length ≤ 6 := by
    cases errorCode with
    | none => exact Nat.le_succ 5
    | some code => exact Nat.le_refl 6
  have hregisters : (savedRegisters.map m.general).length = 15 := rfl
  have hpushed : { m with rsp := m.rsp &&& ~~~0xF }.Grows (m.delivered num errorCode symbols) _ :=
    grows_pushContext
  rw [general_wrapped] at hstub
  have hall := ((hpushed.trans grows_isr (by omega)).trans hstub (by
    simp only [List.length_append]
    omega)).trans (Machine.grows_push symbols.returnAddress) (by
    simp only [List.length_append, List.length_singleton]
    omega)
  refine ⟨segments, ?_, ?_⟩
  · rw [Machine.exec_append, Machine.frame, ← List.append_assoc]
    exact hall
  · rw [hsegments]
    simp only [List.map_cons, List.map_nil, segment_wrapped, reduceCtorEq, if_false]

end Delivered

end Entry

/-! ## The frame -/

section Frame

variable {m : Machine} {memory : U64 → U64} {address intNo errCode rip cs eflags rsp ss : U64}
  {segments rest : List U64} {general : Register → U64} {segment : Segment → U16}

/-- The words of a frame at their places. -/
theorem frame_words (h : Holds memory address (segments ++ (savedRegisters.map general ++ rest)))
    (hsegments : segments.map (BitVec.setWidth 16) = [Segment.gs, .fs, .es, .ds].map segment) :
    ((memory (slot address 0)).setWidth 16 = segment .gs ∧
      (memory (slot address 1)).setWidth 16 = segment .fs ∧
      (memory (slot address 2)).setWidth 16 = segment .es ∧
      (memory (slot address 3)).setWidth 16 = segment .ds) ∧
    (∀ r, memory (slot address r.place) = general r) ∧ Holds memory (slot address 19) rest := by
  have hlen : segments.length = 4 := by
    rw [← List.length_map (BitVec.setWidth 16), hsegments]
    rfl
  obtain ⟨gs, fs, es, ds, rfl⟩ := List.length_eq_four.mp hlen
  simp only [List.map_cons, List.map_nil, List.cons.injEq, and_true] at hsegments
  obtain ⟨hgs, hfs, hes, hds⟩ := hsegments
  obtain ⟨hfour, hbehind⟩ := holds_append.mp h
  obtain ⟨hregisters, hrest⟩ := holds_append.mp hbehind
  have hword {i : Nat} (hi : i < 4) := hfour.get hi
  refine ⟨⟨?_, ?_, ?_, ?_⟩, fun r => ?_, ?_⟩
  · rw [hword (show 0 < 4 by decide)]
    exact hgs
  · rw [hword (show 1 < 4 by decide)]
    exact hfs
  · rw [hword (show 2 < 4 by decide)]
    exact hes
  · rw [hword (show 3 < 4 by decide)]
    exact hds
  · have hlt : savedRegisters.idxOf r < (savedRegisters.map general).length := by
      rw [List.length_map]
      exact List.idxOf_lt_length_iff.mpr r.mem_savedRegisters
    have hpushed := hregisters.get hlt
    rw [List.getElem_map, List.getElem_idxOf, slot_slot] at hpushed
    rw [← r.place_eq]
    exact hpushed
  · rw [slot_slot] at hrest
    exact hrest

/-- What `regs` shows of them. -/
theorem read_frame (h : Holds memory address (segments ++ (savedRegisters.map general ++
      (intNo :: errCode :: rip :: cs :: eflags :: rest))))
    (hsegments : segments.map (BitVec.setWidth 16) = [Segment.gs, .fs, .es, .ds].map segment) :
    Regs.read memory address = ⟨segment .gs, segment .fs, segment .es, segment .ds, general, intNo,
      errCode, rip, cs, eflags⟩ := by
  obtain ⟨⟨hgs, hfs, hes, hds⟩, hgeneral, hrest⟩ := frame_words h hsegments
  have hword {i : Nat} (hi : i < 5) := hrest.get (Nat.lt_of_lt_of_le hi (Nat.le_add_left ..))
  simp only [slot_slot] at hword
  have hintNo : memory (slot address 19) = intNo := hword (show 0 < 5 by decide)
  have herrCode : memory (slot address 20) = errCode := hword (show 1 < 5 by decide)
  have hrip : memory (slot address 21) = rip := hword (show 2 < 5 by decide)
  have hcs : memory (slot address 22) = cs := hword (show 3 < 5 by decide)
  have heflags : memory (slot address 23) = eflags := hword (show 4 < 5 by decide)
  rw [Regs.read, hgs, hfs, hes, hds, funext hgeneral, hintNo, herrCode, hrip, hcs, heflags]

/-- The context of a whole frame. -/
theorem contextAt_frame {c : Context} (h : Holds memory address (segments ++
      (savedRegisters.map c.general ++ (intNo :: errCode :: [c.rip, (c.segment .cs).setWidth 64,
        c.rflags, c.rsp, (c.segment .ss).setWidth 64]))))
    (hsegments : segments.map (BitVec.setWidth 16) = [Segment.gs, .fs, .es, .ds].map c.segment) :
    contextAt memory address = c := by
  obtain ⟨⟨hgs, hfs, hes, hds⟩, hgeneral, hrest⟩ := frame_words h hsegments
  have hword {i : Nat} (hi : i < 7) := hrest.get hi
  simp only [slot_slot] at hword
  have hback (selector : U16) : (selector.setWidth 64).setWidth 16 = selector := by
    rw [BitVec.setWidth_setWidth_of_le _ (by decide), BitVec.setWidth_eq]
  have hcs : memory (slot address 22) = (c.segment .cs).setWidth 64 :=
    hword (show 3 < 7 by decide)
  have hss : memory (slot address 25) = (c.segment .ss).setWidth 64 :=
    hword (show 6 < 7 by decide)
  apply Context.ext
  case general => exact funext hgeneral
  case segment =>
    funext s
    cases s with
    | gs => exact hgs
    | fs => exact hfs
    | es => exact hes
    | ds => exact hds
    | cs => exact (congrArg _ hcs).trans (hback _)
    | ss => exact (congrArg _ hss).trans (hback _)
  case rip => exact hword (show 2 < 7 by decide)
  case rflags => exact hword (show 4 < 7 by decide)
  case rsp => exact hword (show 5 < 7 by decide)

/-- The stack was aligned before the pushes. -/
theorem aligned_of_slot {top rsp : U64} {n : Nat} (h : slot top n = rsp &&& ~~~0xF) :
    (top.toNat + 8 * n) % 16 = 0 := by
  have hdown := @toNat_alignDownValue 64 4 rsp 16 rfl
  have hsum := congrArg BitVec.toNat h
  change _ = (alignDownValue rsp 16).toNat at hsum
  change _ = rsp.toNat / 16 * 16 at hdown
  rw [hdown, slot, BitVec.toNat_add, BitVec.toNat_ofNat] at hsum
  omega

/-- With an error code for the numbers that have one, every frame has the same words. -/
theorem frame_eq {num : U8} {errorCode : Option U64} (h : errorCode.isSome ↔ num ∈ withError) :
    m.frame num errorCode = savedRegisters.map m.general ++
      (num.setWidth 64 :: errorCode.getD 0 :: [m.rip, (m.segment .cs).setWidth 64, m.rflags, m.rsp,
        (m.segment .ss).setWidth 64]) := by
  cases errorCode with
  | none =>
    rw [Machine.frame, wrapperWords, if_neg fun hmem => Bool.false_ne_true (h.mpr hmem)]
    rfl
  | some code =>
    rw [Machine.frame, wrapperWords, if_pos (h.mp rfl)]
    rfl

/-- The words that the handler of an interrupt finds on its stack. -/
structure Machine.Shown (m m' : Machine) (symbols : Symbols) (regs : Regs) (n : Nat) : Prop where
  entered : m.Entered m' symbols
  regs : Regs.read m'.memory (m'.general .rdi) = regs
  returnAddress : m'.memory m'.rsp = symbols.returnAddress
  stack : slot m'.rsp n = m.rsp &&& ~~~0xF
  beside : ∀ a ∉ Slots (m.rsp &&& ~~~0xF) n, m'.memory a = m.memory a

section Shown

variable {symbols : Symbols} {codeAt : U64 → Option (List Instruction)} {num : U8}
  {errorCode : Option U64}

/-- A frame on the stack is shown. -/
theorem shown_of_frame {m' : Machine} (hentered : m.Entered m' symbols)
    (hgrows : { m with rsp := m.rsp &&& ~~~0xF }.Grows m' (symbols.returnAddress ::
      (segments ++ (savedRegisters.map m.general ++
        (intNo :: errCode :: rip :: cs :: eflags :: rest)))))
    (hsegments : segments.map (BitVec.setWidth 16) = [Segment.gs, .fs, .es, .ds].map m.segment) :
    m.Shown m' symbols { m.toContext.regs intNo errCode with
      rip := rip, cs := cs, eflags := eflags } (rest.length + 25) := by
  have hlen : (symbols.returnAddress :: (segments ++ (savedRegisters.map m.general ++
      (intNo :: errCode :: rip :: cs :: eflags :: rest)))).length = rest.length + 25 := by
    have hfour := congrArg List.length hsegments
    rw [List.length_map] at hfour
    rw [List.length_cons, List.length_append, hfour, List.length_append]
    simp only [List.length_cons, List.length_map, savedRegisters, List.length_nil]
    omega
  refine ⟨hentered, ?_, hgrows.holds.1, hlen ▸ hgrows.top_eq, hlen ▸ hgrows.beside⟩
  rw [hentered.regs]
  exact read_frame hgrows.holds.2 hsegments

/-- The handler sees what was interrupted, and all of it is in the frame. -/
theorem interrupt_shows (h : m.Prepared symbols codeAt)
    (herror : errorCode.isSome ↔ num ∈ withError) : ∃ m',
      m.interrupt symbols codeAt num errorCode = some m' ∧
      m.Shown m' symbols (m.toContext.regs (num.setWidth 64) (errorCode.getD 0)) 27 ∧
      contextAt m'.memory (m'.rsp + 8) = m.toContext := by
  obtain ⟨segments, hgrows, hsegments⟩ := @grows_handler m symbols num errorCode
  rw [frame_eq herror] at hgrows
  exact ⟨_, interrupt_eq h, shown_of_frame entered_handler hgrows hsegments,
    contextAt_frame hgrows.holds.2 hsegments⟩

/-- Where the processor has pushed no error code for a number of `isr_wrapper_with_error`, the
handler takes each word for the one before it. -/
theorem interrupt_shows_shifted (h : m.Prepared symbols codeAt) (hnum : num ∈ withError) : ∃ m',
    m.interrupt symbols codeAt num none = some m' ∧
    m.Shown m' symbols { m.toContext.regs (num.setWidth 64) m.rip with
      rip := (m.segment .cs).setWidth 64, cs := m.rflags, eflags := m.rsp } 26 := by
  obtain ⟨segments, hgrows, hsegments⟩ := @grows_handler m symbols num none
  have hframe : m.frame num none = savedRegisters.map m.general ++
      (num.setWidth 64 :: m.rip :: (m.segment .cs).setWidth 64 :: m.rflags :: m.rsp ::
        [(m.segment .ss).setWidth 64]) := by
    rw [Machine.frame, wrapperWords, if_pos hnum]
    rfl
  rw [hframe] at hgrows
  exact ⟨_, interrupt_eq h, shown_of_frame entered_handler hgrows hsegments⟩

end Shown

end Frame

/-! ## What the processor goes on with -/

section Resume

variable {m : Machine}

/-- Segments are popped from the places that they were pushed to, and `rax` is lost. -/
theorem exec_restores {segments : List Segment} (h : segments.Nodup) :
    ∃ rax, m.exec (segments.flatMap restoreSegment) = { m with
      rsp := slot m.rsp segments.length
      general := Function.update m.general .rax rax
      segment := fun s => if s ∈ segments then
        (m.memory (slot m.rsp (segments.idxOf s))).setWidth 16 else m.segment s } := by
  induction segments generalizing m with
  | nil => exact ⟨m.general .rax, by simp [slot_zero]⟩
  | cons segment segments ih =>
    obtain ⟨hnot, hnodup⟩ := List.nodup_cons.mp h
    obtain ⟨rax, hrest⟩ := @ih ((m.step (.popq .rax)).step (.movToSegment segment)) hnodup
    refine ⟨rax, ?_⟩
    rw [List.flatMap_cons, Machine.exec_append, restoreSegment, Machine.exec_cons,
      Machine.exec_cons, Machine.exec_nil, hrest]
    simp only [Machine.step, Machine.setGeneral, Machine.setSegment, List.length_cons, slot_succ,
      Function.update_idem, Function.update_self]
    congr 2
    funext s
    by_cases hs : s = segment
    · subst hs
      rw [if_neg hnot, Function.update_self, if_pos (List.mem_cons_self ..), List.idxOf_cons_self,
        slot_zero]
    · rw [List.idxOf_cons_ne _ (Ne.symm hs), Nat.succ_eq_add_one, slot_succ,
        Function.update_of_ne hs]
      simp only [List.mem_cons, hs, false_or]

/-- Behind the return of the handler the processor goes on with what is in its `regs`. -/
theorem resume_eq : m.resume = { m with toContext := contextAt m.memory (m.rsp + 8) } := by
  obtain ⟨rax, hsegments⟩ := @exec_restores m.ret [.gs, .fs, .es, .ds] (by decide)
  rw [Machine.resume, isrStubReturn, Machine.exec_append, Machine.exec_append, hsegments, popaq,
    Machine.exec_pops (show savedRegisters.Nodup by decide)]
  have hret : m.ret.rsp = m.rsp + 8 := rfl
  -- what `iretq` takes is behind the segments, the registers, the number and the error code
  have hword (i : Nat) : m.memory (slot (slot (slot m.ret.rsp 4) 15 + 16) i) =
      m.memory (slot (m.rsp + 8) (21 + i)) := by
    have hskip : slot (slot m.ret.rsp 4) 15 + 16 = slot (m.rsp + 8) 21 := by
      rw [hret, slot_slot]
      exact @slot_slot (m.rsp + 8) 19 2
    rw [hskip, slot_slot]
  apply Machine.ext
  case general =>
    funext r
    change (if r ∈ savedRegisters then m.memory (slot (slot m.ret.rsp 4) (savedRegisters.idxOf r))
      else _) = m.memory (slot (m.rsp + 8) r.place)
    rw [if_pos r.mem_savedRegisters, slot_slot, r.place_eq, hret]
  case segment =>
    funext s
    cases s with
    | cs => exact congrArg (BitVec.setWidth 16) (hword 1)
    | ss => exact congrArg (BitVec.setWidth 16) (hword 4)
    | gs | fs | es | ds => rfl
  case rsp => exact hword 3
  case rip => exact hword 0
  case rflags => exact hword 2
  case memory | gdtr | idtr | taskRegister => rfl

end Resume

end Homegrown.X86
