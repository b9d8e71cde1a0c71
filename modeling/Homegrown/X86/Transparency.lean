import Homegrown.X86.Faults

/-!
# Interrupted programs

Interrupts come between any two steps of a program. It is given back its registers, its segments and
its flags each time, and it does not find out (`runs_alike`), as long as it does not look below its
stack pointer or into the memory of the handler.
-/

namespace Homegrown.X86

open StackWords

section Definitions

variable (stack own : Set U64)

/-- Two machines with the same context, whose memory differs only in places of the handler's own and
in places of the stack below its top. -/
structure Machine.Alike (m m' : Machine) : Prop where
  context : m'.toContext = m.toContext
  tables : m'.tables = m.tables
  memory : ∀ a ∉ own, (a ∈ stack → m.rsp ≤ a) → m'.memory a = m.memory a

/-- What a handler has done, from its start to its return: it leaves its stack pointer, what lies
there of its frame, and all memory but its own and the stack below. -/
structure Machine.Handled (m m' : Machine) : Prop where
  rsp : m'.rsp = m.rsp
  tables : m'.tables = m.tables
  frame : ∀ i < 27, m'.memory (slot m.rsp i) = m.memory (slot m.rsp i)
  memory : ∀ a ∉ own, (a ∈ stack → m.rsp ≤ a) → m'.memory a = m.memory a

variable (symbols : Symbols) (codeAt : U64 → Option (List Instruction))

/-- The stack has room for a frame, and the tables lie elsewhere. -/
structure Machine.Ready (m : Machine) : Prop where
  prepared : m.Prepared symbols codeAt
  room : ∀ a ∈ Slots (m.rsp &&& ~~~0xF) 27, a ∈ stack ∧ a < m.rsp
  segments : ∀ i < 5, slot m.gdtr.base i ∉ own ∧ slot m.gdtr.base i ∉ stack
  gates : ∀ i < 512, slot m.idtr.base i ∉ own ∧ slot m.idtr.base i ∉ stack

/-- So many steps of a program, with interrupts before, between and behind them. -/
inductive Runs (program : Machine → Machine) (m : Machine) : Nat → Machine → Prop where
  | start : Runs program m 0 m
  | step {k : Nat} {m' : Machine} : Runs program m k m' → Runs program m (k + 1) (program m')
  | interrupt {k : Nat} {m' entered left : Machine} {num : U8} {errorCode : Option U64} :
    Runs program m k m' → (errorCode.isSome ↔ num ∈ withError) →
    m'.interrupt symbols codeAt num errorCode = some entered → entered.Handled stack own left →
    Runs program m k left.resume

end Definitions

/-! ## A small machine -/

/-- The stack of the machine. -/
def bareStack : Set U64 := {a | 0x8000 ≤ a ∧ a < 0xA000}

/-- A program that counts in a register. -/
def countUp (m : Machine) : Machine := m.setGeneral .rbx (m.general .rbx + 1)

/-- It has room on its stack, and its tables lie elsewhere. -/
theorem ready_bareBooted : bareBooted.Ready bareStack ∅ bareSymbols bareCode := by
  have hrsp : bareBooted.rsp = 0x9000 := context_boot.2
  have hgdtr : bareBooted.gdtr.base = 0x2000 := tables_boot.1
  have hidtr : bareBooted.idtr.base = 0x4000 := tables_boot.2
  refine ⟨prepared_bareBooted, fun a ha => ?_, fun i hi => ⟨id, fun hmem => ?_⟩,
    fun i hi => ⟨id, fun hmem => ?_⟩⟩
  · obtain ⟨i, hi, hslot⟩ := ha
    have hsum := congrArg BitVec.toNat hslot
    have hlt := a.isLt
    rw [hrsp, toNat_slot, show (0x9000 &&& ~~~0xF : U64).toNat = 0x9000 by decide] at hsum
    rw [hrsp]
    change (0x8000 ≤ a.toNat ∧ a.toNat < 0xA000) ∧ a.toNat < 0x9000
    omega
  · have hlow : 0x8000 ≤ (slot bareBooted.gdtr.base i).toNat := hmem.1
    rw [hgdtr, toNat_slot, show (0x2000 : U64).toNat = 0x2000 from rfl] at hlow
    omega
  · have hlow : 0x8000 ≤ (slot bareBooted.idtr.base i).toNat := hmem.1
    rw [hidtr, toNat_slot, show (0x4000 : U64).toNat = 0x4000 from rfl] at hlow
    omega

section Interrupted

variable {stack own : Set U64} {symbols : Symbols} {codeAt : U64 → Option (List Instruction)}
  {m m' m'' : Machine}

theorem Machine.Alike.refl : m.Alike stack own m := ⟨rfl, rfl, fun _ _ _ => rfl⟩

theorem Machine.Alike.trans (h : m.Alike stack own m') (h' : m'.Alike stack own m'') :
    m.Alike stack own m'' := by
  have hrsp : m'.rsp = m.rsp := congrArg Context.rsp h.context
  refine ⟨h'.context.trans h.context, h'.tables.trans h.tables, fun a hown hstack => ?_⟩
  rw [h'.memory a hown (hrsp ▸ hstack), h.memory a hown hstack]

/-- A machine that is like one that is ready is ready. -/
theorem Machine.Alike.ready (h : m.Alike stack own m')
    (hready : m.Ready stack own symbols codeAt) : m'.Ready stack own symbols codeAt := by
  have hrsp : m'.rsp = m.rsp := congrArg Context.rsp h.context
  have hcs : m'.segment .cs = m.segment .cs := congrArg (Context.segment · .cs) h.context
  have hgdtr : m'.gdtr = m.gdtr := congrArg Prod.fst h.tables
  have hidtr : m'.idtr = m.idtr := congrArg (·.2.1) h.tables
  have hsame {a : U64} (ha : a ∉ own ∧ a ∉ stack) : m'.memory a = m.memory a :=
    h.memory a ha.1 fun hmem => absurd hmem ha.2
  have hprepared := hready.prepared.later h.tables (fun i hi => hsame (hready.segments i hi))
    (fun i hi => hsame (hready.gates i hi)) (hcs ▸ hready.prepared.kernel)
  exact ⟨hprepared, hrsp ▸ hready.room, hgdtr ▸ hready.segments, hidtr ▸ hready.gates⟩

/-- The context is read from the frame alone. -/
theorem contextAt_congr {memory memory' : U64 → U64} {address : U64}
    (h : ∀ i < 26, memory' (slot address i) = memory (slot address i)) :
    contextAt memory' address = contextAt memory address := by
  have hplace (r : Register) : r.place < 26 := by cases r <;> decide
  apply Context.ext
  case general => exact funext fun r => h _ (hplace r)
  case segment =>
    funext s
    cases s with
    | gs => exact congrArg (BitVec.setWidth 16) (h 0 (by decide))
    | fs => exact congrArg (BitVec.setWidth 16) (h 1 (by decide))
    | es => exact congrArg (BitVec.setWidth 16) (h 2 (by decide))
    | ds => exact congrArg (BitVec.setWidth 16) (h 3 (by decide))
    | cs => exact congrArg (BitVec.setWidth 16) (h 22 (by decide))
    | ss => exact congrArg (BitVec.setWidth 16) (h 25 (by decide))
  case rip => exact h 21 (by decide)
  case rflags => exact h 23 (by decide)
  case rsp => exact h 24 (by decide)

/-- One interrupt goes unnoticed. -/
theorem alike_resume {num : U8} {errorCode : Option U64} {entered left : Machine}
    (hready : m.Ready stack own symbols codeAt) (herror : errorCode.isSome ↔ num ∈ withError)
    (hentered : m.interrupt symbols codeAt num errorCode = some entered)
    (hleft : entered.Handled stack own left) : m.Alike stack own left.resume := by
  obtain ⟨_, hrun, hshown, hcontext⟩ := interrupt_shows hready.prepared herror
  obtain rfl := Option.some.inj (hentered.symm.trans hrun)
  have hbelow : entered.rsp < m.rsp := (hready.room _ ⟨26, by decide, hshown.stack⟩).2
  rw [resume_eq]
  refine ⟨?_, hleft.tables.trans hshown.entered.tables, fun a hown hstack => ?_⟩
  · change contextAt left.memory (left.rsp + 8) = m.toContext
    rw [hleft.rsp, ← hcontext]
    refine contextAt_congr fun i hi => ?_
    rw [← slot_succ]
    exact hleft.frame _ (Nat.succ_lt_succ hi)
  · change left.memory a = m.memory a
    rw [hleft.memory a hown fun hmem => Nat.le_of_lt (Nat.lt_of_lt_of_le hbelow (hstack hmem)),
      hshown.beside a fun hmem => ?_]
    obtain ⟨hin, hlt⟩ := hready.room a hmem
    exact BitVec.not_le.mpr hlt (hstack hin)

/-- However many interrupts come, and whenever they come, the program is where it would be without
them, and the next one finds its handler as well. -/
theorem runs_alike {program : Machine → Machine}
    (hprogram : ∀ k m', (program^[k] m).Alike stack own m' →
      (program (program^[k] m)).Alike stack own (program m'))
    (hready : ∀ k, (program^[k] m).Ready stack own symbols codeAt) {k : Nat}
    (h : Runs stack own symbols codeAt program m k m') :
    (program^[k] m).Alike stack own m' ∧ m'.Ready stack own symbols codeAt := by
  have halike : (program^[k] m).Alike stack own m' := by
    induction h with
    | start => exact Machine.Alike.refl
    | step _ ih =>
      rw [Function.iterate_succ_apply']
      exact hprogram _ _ ih
    | interrupt _ herror hentered hleft ih =>
      exact ih.trans (alike_resume (ih.ready (hready _)) herror hentered hleft)
  exact ⟨halike, halike.ready (hready k)⟩

/-- A program that counts is interrupted between two steps. -/
theorem runs_alike_two : ∃ m', Runs bareStack ∅ bareSymbols bareCode countUp bareBooted 2 m' ∧
    (countUp^[2] bareBooted).Alike bareStack ∅ m' ∧
      m'.Ready bareStack ∅ bareSymbols bareCode := by
  have hready (k : Nat) : (countUp^[k] bareBooted).Ready bareStack ∅ bareSymbols bareCode := by
    induction k with
    | zero => exact ready_bareBooted
    | succ k ih =>
      rw [Function.iterate_succ_apply']
      exact ⟨⟨ih.prepared.segments, ih.prepared.gates, ih.prepared.routines, ih.prepared.kernel⟩,
        ih.room, ih.segments, ih.gates⟩
  have hprogram (k : Nat) (m' : Machine) (h : (countUp^[k] bareBooted).Alike bareStack ∅ m') :
      (countUp (countUp^[k] bareBooted)).Alike bareStack ∅ (countUp m') := by
    have hcontext := congrArg (fun c : Context =>
      { c with general := Function.update c.general .rbx (c.general .rbx + 1) }) h.context
    exact ⟨hcontext, h.tables, h.memory⟩
  obtain ⟨entered, hentered, -⟩ := @interrupt_shows (countUp^[1] bareBooted) bareSymbols bareCode 32
    none (hready 1).prepared (by decide)
  have hrun := Runs.step (Runs.interrupt (Runs.step Runs.start) (by decide) hentered
    (show entered.Handled bareStack ∅ entered from ⟨rfl, rfl, fun _ _ => rfl, fun _ _ _ => rfl⟩))
  exact ⟨_, hrun, runs_alike hprogram hready hrun⟩

end Interrupted

end Homegrown.X86
