import Homegrown.X86.DescriptorTables

/-!
# The processor

As much of the processor as the kernel's own assembly uses: the registers, memory by words, some
instructions, and what happens at an interrupt. Every address has a word of its own, so the words in
use must have no bytes in common. An interrupt is delivered through a present gate of the kernel
that changes neither the stack nor the privilege level, and through no other. Left out are the bits
that the processor itself sets in the table of segments, what it reads there when an instruction
loads a segment register, and the flag `RF` in the flags that it pushes for some exceptions.
-/

namespace Homegrown.X86

open StackWords

/-- The general registers, but for the stack pointer. -/
inductive Register where
  | rax | rcx | rdx | rbx | rbp | rsi | rdi | r8 | r9 | r10 | r11 | r12 | r13 | r14 | r15
  deriving DecidableEq, Repr

/-- The segment registers. -/
inductive Segment where
  | cs | ds | es | fs | gs | ss
  deriving DecidableEq, Repr

/-- What a program has of the processor. -/
@[ext] structure Context where
  general : Register → U64
  segment : Segment → U16
  rsp : U64
  rip : U64
  rflags : U64

/-- The processor with its memory. -/
@[ext] structure Machine extends Context where
  memory : U64 → U64
  gdtr : DescriptorTableRegister
  idtr : DescriptorTableRegister
  taskRegister : U16

/-- Instructions. -/
inductive Instruction where
  | cli
  | cld
  | lgdt (register : DescriptorTableRegister)
  | lidt (register : DescriptorTableRegister)
  /-- `ltr %ax`. -/
  | ltr
  | pushq (register : Register)
  | pushImmediate (value : U64)
  | popq (register : Register)
  | movq (value : U64) (register : Register)
  /-- `movq %rsp, register`. -/
  | movStackPointer (register : Register)
  /-- `movw value, %ax`. -/
  | movw (value : U16)
  /-- `movw segment, %ax`. -/
  | movFromSegment (segment : Segment)
  /-- `movw %ax, segment`. -/
  | movToSegment (segment : Segment)
  /-- `addq value, %rsp`. -/
  | addStackPointer (value : U64)
  /-- A return to the instruction behind it, with the code segment from the stack. -/
  | lretq
  deriving DecidableEq, Repr

/-! ## Instructions -/

/-- The flag `IF`. -/
def interruptFlag : U64 := 1 <<< 9

/-- The flag `DF`. -/
def directionFlag : U64 := 1 <<< 10

/-- The flags that an interrupt gate clears: `TF`, `IF`, `NT`, `RF` and `VM`. -/
def gateMask : U64 := 1 <<< 8 ||| interruptFlag ||| 1 <<< 14 ||| 1 <<< 16 ||| 1 <<< 17

/-- A flag in its place. -/
def flagAt (place : Nat) (set : Bool) : U64 := if set then 1 <<< place else 0

/-- The flags behind an addition: `CF`, `PF`, `AF`, `ZF`, `SF` and `OF`. -/
def flagsOfAdd (a b rflags : U64) : U64 :=
  let sum := a + b
  rflags &&& ~~~0x8D5 ||| flagAt 0 (2 ^ 64 ≤ a.toNat + b.toNat) |||
    flagAt 2 ((List.range 8).countP (fun i => sum.getLsbD i) % 2 = 0) |||
    flagAt 4 (16 ≤ a.toNat % 16 + b.toNat % 16) ||| flagAt 6 (sum = 0) ||| flagAt 7 sum.msb |||
    flagAt 11 (a.msb = b.msb ∧ sum.msb ≠ a.msb)

/-- A register behind a move to its lowest 16 bits. -/
def withLow (register : U64) (value : U16) : U64 := register &&& ~~~0xFFFF ||| value.setWidth 64

section Machine

variable (m : Machine)

/-- A register is given a value. -/
def Machine.setGeneral (register : Register) (value : U64) : Machine :=
  { m with general := Function.update m.general register value }

/-- A segment register is given a selector. -/
def Machine.setSegment (segment : Segment) (value : U16) : Machine :=
  { m with segment := Function.update m.segment segment value }

/-- The stack pointer is given a value. -/
def Machine.setStack (rsp : U64) : Machine := { m with rsp := rsp }

/-- A word is pushed. -/
def Machine.push (word : U64) : Machine :=
  { m with rsp := m.rsp - 8, memory := StackWords.push m.memory m.rsp word }

/-- Words are pushed one after the other. -/
def Machine.pushAll (words : List U64) : Machine := words.foldl Machine.push m

/-- An instruction is executed. -/
def Machine.step : Instruction → Machine
  | .cli => { m with rflags := m.rflags &&& ~~~interruptFlag }
  | .cld => { m with rflags := m.rflags &&& ~~~directionFlag }
  | .lgdt register => { m with gdtr := register }
  | .lidt register => { m with idtr := register }
  | .ltr => { m with taskRegister := (m.general .rax).setWidth 16 }
  | .pushq register => m.push (m.general register)
  | .pushImmediate value => m.push value
  | .popq register => { m.setGeneral register (m.memory m.rsp) with rsp := m.rsp + 8 }
  | .movq value register => m.setGeneral register value
  | .movStackPointer register => m.setGeneral register m.rsp
  | .movw value => m.setGeneral .rax (withLow (m.general .rax) value)
  | .movFromSegment segment =>
    m.setGeneral .rax (withLow (m.general .rax) (m.segment segment))
  | .movToSegment segment => m.setSegment segment ((m.general .rax).setWidth 16)
  | .addStackPointer value =>
    { m with rsp := m.rsp + value, rflags := flagsOfAdd m.rsp value m.rflags }
  | .lretq =>
    { m.setSegment .cs ((m.memory (m.rsp + 8)).setWidth 16) with
      rip := m.memory m.rsp, rsp := m.rsp + 16 }

/-- Instructions are executed one after the other. -/
def Machine.exec (code : List Instruction) : Machine := code.foldl Machine.step m

/-- The instructions that load a table. -/
def Instruction.loadsTable : Instruction → Bool
  | .lgdt _ | .lidt _ | .ltr => true
  | _ => false

/-- What the processor knows of the tables. -/
def Machine.tables : DescriptorTableRegister × DescriptorTableRegister × U16 :=
  (m.gdtr, m.idtr, m.taskRegister)

/-- `call`. -/
def Machine.call (target returnAddress : U64) : Machine :=
  { m.push returnAddress with rip := target }

/-- `ret`. -/
def Machine.ret : Machine := { m with rip := m.memory m.rsp, rsp := m.rsp + 8 }

/-- The context that `iretq` finds in memory, with the other registers as they are. -/
def Machine.iretq : Machine :=
  { m with
    rip := m.memory (slot m.rsp 0)
    segment := Function.update (Function.update m.segment .cs
      ((m.memory (slot m.rsp 1)).setWidth 16)) .ss ((m.memory (slot m.rsp 4)).setWidth 16)
    rflags := m.memory (slot m.rsp 2)
    rsp := m.memory (slot m.rsp 3) }

/-! ## Interrupts -/

/-- A present gate of the kernel for interrupts, without a stack of its own. -/
def InterruptDescriptor.Usable (gate : InterruptDescriptor) : Prop :=
  gate.type_attributes = 0x8E ∧ gate.ist &&& 7 = 0

/-- A present segment of the kernel with 64-bit code. -/
def SegmentDescriptor.IsKernelCode (d : SegmentDescriptor) : Prop :=
  d.p_flag = 1 ∧ d.s_flag = 1 ∧ d.type &&& 8 = 8 ∧ d.l_flag = 1 ∧ d.db_flag = 0 ∧ d.dpl = 0

instance (gate : InterruptDescriptor) : Decidable gate.Usable := inferInstanceAs (Decidable (_ ∧ _))

instance (d : SegmentDescriptor) : Decidable d.IsKernelCode := inferInstanceAs (Decidable (_ ∧ _))

/-- What the processor pushes at an interrupt, on a stack that it aligns first. -/
def Machine.pushContext (errorCode : Option U64) : Machine :=
  { m with rsp := m.rsp &&& ~~~0xF }.pushAll ([(m.segment .ss).setWidth 64, m.rsp, m.rflags,
    (m.segment .cs).setWidth 64, m.rip] ++ errorCode.toList)

/-- An interrupt is delivered: the gate of its number says where the processor goes on. A change
of the privilege level is not modelled. -/
def Machine.deliver (num : U8) (errorCode : Option U64) : Option Machine := do
  let gate ← readGate m.memory m.idtr num
  let code ← readSegment m.memory m.gdtr gate.selector
  if gate.Usable ∧ code.IsKernelCode ∧ m.segment .cs &&& 3 = 0 then
    let m' := (m.pushContext errorCode).setSegment .cs gate.selector
    return { m' with rip := gate.offset, rflags := m.rflags &&& ~~~gateMask }
  else none

end Machine

section Lemmas

variable {m : Machine} {code code' : List Instruction}

@[simp] theorem Machine.push_segment (word : U64) : (m.push word).segment = m.segment := rfl

@[simp] theorem Machine.push_rflags (word : U64) : (m.push word).rflags = m.rflags := rfl

@[simp] theorem Machine.setGeneral_segment (register : Register) (value : U64) :
    (m.setGeneral register value).segment = m.segment := rfl

@[simp] theorem Machine.setGeneral_self (register : Register) (value : U64) :
    (m.setGeneral register value).general register = value := Function.update_self ..

theorem Machine.setStack_keeps (m : Machine) (rsp : U64) : (m.setStack rsp).tables = m.tables ∧
    (m.setStack rsp).memory = m.memory ∧ (m.setStack rsp).segment = m.segment := ⟨rfl, rfl, rfl⟩

@[simp] theorem Machine.exec_nil : m.exec [] = m := rfl

@[simp] theorem Machine.exec_cons (i : Instruction) :
    m.exec (i :: code) = (m.step i).exec code := rfl

theorem Machine.exec_append : m.exec (code ++ code') = (m.exec code).exec code' :=
  List.foldl_append ..

/-- The lowest 16 bits come back. -/
@[simp] theorem setWidth_withLow (register : U64) (value : U16) :
    (withLow register value).setWidth 16 = value := by
  have hones : ∀ i < 16, (0xFFFF : U64).getLsbD i = true := by decide
  ext i hi
  rw [BitVec.getElem_setWidth, withLow, BitVec.getLsbD_or, BitVec.getLsbD_and, BitVec.getLsbD_not,
    hones i hi, BitVec.getLsbD_setWidth, BitVec.getLsbD_eq_getElem hi]
  simp only [show i < 64 by omega, decide_true, Bool.not_true, Bool.and_false, Bool.false_or,
    Bool.true_and]

/-- The stack has grown by some words from one state to the other. -/
def Machine.Grows (m m' : Machine) (words : List U64) : Prop :=
  Grown m.memory m.rsp m'.memory m'.rsp words

theorem Machine.grows_push (word : U64) : m.Grows (m.push word) [word] := grown_push

theorem Machine.Grows.trans {m' m'' : Machine} {words words' : List U64} (h : m.Grows m' words)
    (h' : m'.Grows m'' words') (hlen : words.length + words'.length < 2 ^ 60) :
    m.Grows m'' (words' ++ words) := Grown.trans h h' hlen

/-- The first word is deepest. -/
theorem Machine.grows_pushAll (words : List U64) (h : words.length < 2 ^ 60) :
    m.Grows (m.pushAll words) words.reverse := by
  induction words generalizing m with
  | nil => exact Grown.refl
  | cons word words ih =>
    rw [List.length_cons] at h
    have hrest : (m.push word).Grows _ _ := ih (by omega)
    rw [List.reverse_cons]
    refine (m.grows_push _).trans hrest ?_
    rw [List.length_singleton, List.length_reverse]
    omega

/-- Pushes change memory and the stack pointer. -/
theorem Machine.pushAll_eq (words : List U64) : m.pushAll words =
    { m with rsp := (m.pushAll words).rsp, memory := (m.pushAll words).memory } := by
  induction words generalizing m with
  | nil => rfl
  | cons word words ih =>
    change (m.push word).pushAll words = _
    rw [ih]
    rfl

@[simp] theorem Machine.pushAll_general (words : List U64) :
    (m.pushAll words).general = m.general := by
  rw [pushAll_eq]

@[simp] theorem Machine.pushAll_segment (words : List U64) :
    (m.pushAll words).segment = m.segment := by
  rw [pushAll_eq]

@[simp] theorem Machine.pushAll_rflags (words : List U64) :
    (m.pushAll words).rflags = m.rflags := by
  rw [pushAll_eq]

theorem Machine.pushAll_tables (words : List U64) : (m.pushAll words).tables = m.tables := by
  rw [pushAll_eq]
  rfl

/-- Other instructions keep the tables. -/
theorem Machine.exec_tables (h : code.all (!·.loadsTable)) : (m.exec code).tables = m.tables := by
  induction code generalizing m with
  | nil => rfl
  | cons i code ih =>
    rw [List.all_cons, Bool.and_eq_true] at h
    rw [exec_cons, ih h.2]
    cases i with
    | lgdt | lidt | ltr => exact absurd h.1 Bool.false_ne_true
    | _ => rfl

/-- Registers are pushed with the values that they have. -/
theorem Machine.exec_pushes (registers : List Register) :
    m.exec (registers.map .pushq) = m.pushAll (registers.map m.general) := by
  induction registers generalizing m with
  | nil => rfl
  | cons register registers ih =>
    rw [List.map_cons, exec_cons, ih]
    rfl

/-- Registers are popped from the places that they were pushed to. -/
theorem Machine.exec_pops {registers : List Register} (h : registers.Nodup) :
    m.exec (registers.map .popq) = { m with
      rsp := slot m.rsp registers.length
      general := fun r => if r ∈ registers then m.memory (slot m.rsp (registers.idxOf r))
        else m.general r } := by
  induction registers generalizing m with
  | nil => simp [slot_zero]
  | cons register registers ih =>
    obtain ⟨hnot, hnodup⟩ := List.nodup_cons.mp h
    rw [List.map_cons, exec_cons, ih hnodup]
    simp only [Machine.step, Machine.setGeneral, List.length_cons, slot_succ]
    congr 2
    funext r
    by_cases hr : r = register
    · subst hr
      rw [if_neg hnot, Function.update_self, if_pos (List.mem_cons_self ..), List.idxOf_cons_self,
        slot_zero]
    · rw [List.idxOf_cons_ne _ (Ne.symm hr), Nat.succ_eq_add_one, slot_succ,
        Function.update_of_ne hr]
      simp only [List.mem_cons, hr, false_or]

end Lemmas

end Homegrown.X86
