import Homegrown.Core.BitFields
import Homegrown.Core.StackWords
import Homegrown.Shared.Maths

/-!
# Descriptor tables

The loader makes a table of segments and the kernel one of interrupts. Both store the addresses
they hold in parts, among other fields, and the processor puts the parts together again: it finds
the segments that were meant (`HasSegments.readSegment`), and for every interrupt the address that
was set (`HasGates.readGate`).
-/

namespace Homegrown.X86

open BitFields StackWords

/-! ## Segments -/

/-- `SegmentDescriptor`. -/
structure SegmentDescriptor where
  limit_15_0 : BitVec 16
  base_15_0 : BitVec 16
  base_23_16 : BitVec 8
  type : BitVec 4
  s_flag : BitVec 1
  dpl : BitVec 2
  p_flag : BitVec 1
  limit_19_16 : BitVec 4
  avl : BitVec 1
  l_flag : BitVec 1
  db_flag : BitVec 1
  g_flag : BitVec 1
  base_31_24 : BitVec 8
  deriving DecidableEq, Repr

/-- The widths of its fields. -/
def SegmentDescriptor.widths : List Nat := [16, 16, 8, 4, 1, 2, 1, 4, 1, 1, 1, 1, 8]

/-- Its fields with their widths. -/
def SegmentDescriptor.fields (d : SegmentDescriptor) : List (Nat × Nat) :=
  [(16, d.limit_15_0.toNat), (16, d.base_15_0.toNat), (8, d.base_23_16.toNat), (4, d.type.toNat),
    (1, d.s_flag.toNat), (2, d.dpl.toNat), (1, d.p_flag.toNat), (4, d.limit_19_16.toNat),
    (1, d.avl.toNat), (1, d.l_flag.toNat), (1, d.db_flag.toNat), (1, d.g_flag.toNat),
    (8, d.base_31_24.toNat)]

/-- `value`. -/
def SegmentDescriptor.value (d : SegmentDescriptor) : U64 := BitVec.ofNat 64 (pack d.fields)

/-- A field of a word. -/
def fieldOf (widths : List Nat) (word : U64) (i : Nat) : Nat := (unpack widths word.toNat).getD i 0

/-- The descriptor that the processor finds in a word. -/
def SegmentDescriptor.read (word : U64) : SegmentDescriptor :=
  let field := fieldOf widths word
  ⟨.ofNat _ (field 0), .ofNat _ (field 1), .ofNat _ (field 2), .ofNat _ (field 3),
    .ofNat _ (field 4), .ofNat _ (field 5), .ofNat _ (field 6), .ofNat _ (field 7),
    .ofNat _ (field 8), .ofNat _ (field 9), .ofNat _ (field 10), .ofNat _ (field 11),
    .ofNat _ (field 12)⟩

/-- `TSSDescriptor`. The fields that are zero by their names are not set to anything else. -/
structure TSSDescriptor where
  limit_15_0 : BitVec 16
  base_15_0 : BitVec 16
  base_23_16 : BitVec 8
  type : BitVec 4
  dpl : BitVec 2
  p_flag : BitVec 1
  limit_19_16 : BitVec 4
  avl : BitVec 1
  g_flag : BitVec 1
  base_31_24 : BitVec 8
  base_63_32 : BitVec 32
  deriving DecidableEq, Repr

/-- The first word of it is that of a segment. -/
def TSSDescriptor.low (d : TSSDescriptor) : SegmentDescriptor where
  limit_15_0 := d.limit_15_0
  base_15_0 := d.base_15_0
  base_23_16 := d.base_23_16
  type := d.type
  s_flag := 0
  dpl := d.dpl
  p_flag := d.p_flag
  limit_19_16 := d.limit_19_16
  avl := d.avl
  l_flag := 0
  db_flag := 0
  g_flag := d.g_flag
  base_31_24 := d.base_31_24

/-- The other word has the rest of the base. -/
def TSSDescriptor.high (d : TSSDescriptor) : U64 :=
  BitVec.ofNat 64 (pack [(32, d.base_63_32.toNat)])

/-- `GDTTable`. -/
structure GDTTable where
  null : SegmentDescriptor
  kernelCode : SegmentDescriptor
  kernelData : SegmentDescriptor
  tssDescriptor : TSSDescriptor
  deriving DecidableEq, Repr

/-- Its words. -/
def GDTTable.words (table : GDTTable) : List U64 :=
  [table.null.value, table.kernelCode.value, table.kernelData.value, table.tssDescriptor.low.value,
    table.tssDescriptor.high]

/-- `DescriptorTableRegister`, and `idt_ptr`. -/
structure DescriptorTableRegister where
  limit : U16
  base : U64
  deriving DecidableEq, Repr

/-- `sizeof(TaskStateSegment)`. -/
def sizeOfTaskStateSegment : Nat := 104

/-- The table of `prepNewGDT`, for the address of the first page. -/
def gdtTable (zeroPages : U64) : GDTTable where
  null := ⟨0, 0, 0, 0, 0, 0, 0, 0, 0, 0, 0, 0, 0⟩
  kernelCode := ⟨0xFFFF, 0, 0, 0xA, 1, 0, 1, 0xF, 0, 1, 0, 1, 0⟩
  kernelData := ⟨0xFFFF, 0, 0, 0x2, 1, 0, 1, 0xF, 0, 0, 1, 1, 0⟩
  tssDescriptor :=
    { limit_15_0 := BitVec.ofNat 16 (sizeOfTaskStateSegment - 1)
      base_15_0 := (zeroPages &&& 0xFFFF).setWidth 16
      base_23_16 := ((zeroPages >>> 16) &&& 0xFF).setWidth 8
      type := 9
      dpl := 0
      p_flag := 1
      limit_19_16 := 0
      avl := 0
      g_flag := 0
      base_31_24 := ((zeroPages >>> 24) &&& 0xFF).setWidth 8
      base_63_32 := ((zeroPages >>> 32) &&& 0xFFFFFFFF).setWidth 32 }

/-- `prepNewGDT`: the memory behind its stores, and the register that the third page is given. The
last two bytes of the segment of the first page are its `io_map_base_address`. -/
def prepNewGDT (zeroPages : U64) (memory : U64 → U64) : DescriptorTableRegister × (U64 → U64) :=
  let ioMap := memory (zeroPages + 96) &&& 0xFFFFFFFFFFFF |||
    BitVec.ofNat 64 sizeOfTaskStateSegment <<< 48
  (⟨8 * 5 - 1, zeroPages + 4096⟩,
    write (Function.update memory (zeroPages + 96) ioMap) (zeroPages + 4096)
      (gdtTable zeroPages).words)

/-- The segment of a selector. -/
def readSegment (memory : U64 → U64) (gdtr : DescriptorTableRegister) (selector : U16) :
    Option SegmentDescriptor :=
  if selector.toNat / 8 * 8 + 7 ≤ gdtr.limit.toNat then
    some (.read (memory (slot gdtr.base (selector.toNat / 8))))
  else none

section Segments

variable {fields : List (Nat × Nat)} {memory : U64 → U64} {zeroPages : U64}

/-- The fields of a packed word are the ones it was packed of. -/
theorem fieldOf_pack (h : ∀ f ∈ fields, f.2 < 2 ^ f.1) (hsum : (fields.map Prod.fst).sum ≤ 64)
    (i : Nat) : fieldOf (fields.map Prod.fst) (BitVec.ofNat 64 (pack fields)) i =
      (fields.map Prod.snd).getD i 0 := by
  have hlt := (pack_lt h).trans_le (Nat.pow_le_pow_right Nat.two_pos hsum)
  rw [fieldOf, BitVec.toNat_ofNat, Nat.mod_eq_of_lt hlt, unpack_pack h]

/-- The processor finds the descriptor that was stored. -/
@[simp] theorem SegmentDescriptor.read_value (d : SegmentDescriptor) : read d.value = d := by
  have hfits : ∀ f ∈ d.fields, f.2 < 2 ^ f.1 := by
    simp only [fields, List.forall_mem_cons, BitVec.isLt, true_and]
    exact List.forall_mem_nil _
  have hfield (i : Nat) : fieldOf widths d.value i = (d.fields.map Prod.snd).getD i 0 :=
    fieldOf_pack hfits (show widths.sum ≤ 64 by decide) i
  simp only [read, hfield]
  cases d
  simp [fields]

/-- A part of a word that is stored in a field of its own. -/
theorem toNat_part {x mask : U64} {k : Nat} (hmask : mask.toNat = 2 ^ k - 1) :
    ((x &&& mask).setWidth k).toNat = x.toNat % 2 ^ k := by
  rw [BitVec.toNat_setWidth, BitVec.toNat_and, hmask, Nat.and_two_pow_sub_one_eq_mod, Nat.mod_mod]

/-- The table of the loader is in memory, and the processor has its register. -/
def HasSegments (memory : U64 → U64) (gdtr : DescriptorTableRegister) : Prop :=
  gdtr.limit = 8 * 5 - 1 ∧ ∃ zeroPages, Holds memory gdtr.base (gdtTable zeroPages).words

/-- So it is behind `prepNewGDT`. -/
theorem hasSegments_prepNewGDT :
    HasSegments (prepNewGDT zeroPages memory).2 (prepNewGDT zeroPages memory).1 :=
  ⟨rfl, zeroPages, holds_write (show 5 < 2 ^ 60 by norm_num)⟩

/-- The selector of the code segment leads to it, and so does that of the data segment. -/
theorem HasSegments.readSegment {gdtr : DescriptorTableRegister} (h : HasSegments memory gdtr) :
    readSegment memory gdtr 0x08 = some (gdtTable 0).kernelCode ∧
      readSegment memory gdtr 0x10 = some (gdtTable 0).kernelData := by
  obtain ⟨hlimit, zeroPages, -, hcode, hdata, -⟩ := h
  have hone : slot gdtr.base 1 = gdtr.base + 8 := by rw [slot_succ, slot_zero]
  have htwo : slot gdtr.base 2 = gdtr.base + 8 + 8 := by rw [slot_succ, slot_succ, slot_zero]
  constructor
  · rw [X86.readSegment, if_pos (by rw [hlimit]; decide)]
    change some (SegmentDescriptor.read (memory (slot gdtr.base 1))) = _
    rw [hone, hcode, SegmentDescriptor.read_value]
    rfl
  · rw [X86.readSegment, if_pos (by rw [hlimit]; decide)]
    change some (SegmentDescriptor.read (memory (slot gdtr.base 2))) = _
    rw [htwo, hdata, SegmentDescriptor.read_value]
    rfl

end Segments

/-! ## Interrupts -/

/-- `InterruptDescriptor`. -/
structure InterruptDescriptor where
  offset_1 : U16
  selector : U16
  ist : U8
  type_attributes : U8
  offset_2 : U16
  offset_3 : U32
  zero : U32
  deriving DecidableEq, Repr

/-- The fields of its first word. -/
def InterruptDescriptor.lowFields (d : InterruptDescriptor) : List (Nat × Nat) :=
  [(16, d.offset_1.toNat), (16, d.selector.toNat), (8, d.ist.toNat), (8, d.type_attributes.toNat),
    (16, d.offset_2.toNat)]

/-- The fields of the other one. -/
def InterruptDescriptor.highFields (d : InterruptDescriptor) : List (Nat × Nat) :=
  [(32, d.offset_3.toNat), (32, d.zero.toNat)]

/-- Both words. -/
def InterruptDescriptor.words (d : InterruptDescriptor) : List U64 :=
  [BitVec.ofNat 64 (pack d.lowFields), BitVec.ofNat 64 (pack d.highFields)]

/-- The descriptor that the processor finds in two words. -/
def InterruptDescriptor.read (low high : U64) : InterruptDescriptor :=
  let lowField := fieldOf [16, 16, 8, 8, 16] low
  let highField := fieldOf [32, 32] high
  ⟨.ofNat _ (lowField 0), .ofNat _ (lowField 1), .ofNat _ (lowField 2), .ofNat _ (lowField 3),
    .ofNat _ (lowField 4), .ofNat _ (highField 0), .ofNat _ (highField 1)⟩

/-- The address that the processor puts together. -/
def InterruptDescriptor.offset (d : InterruptDescriptor) : U64 :=
  BitVec.ofNat 64 (pack [(16, d.offset_1.toNat), (16, d.offset_2.toNat), (32, d.offset_3.toNat)])

/-- `GateType`. -/
inductive GateType where
  | interruptGate
  | trapGate
  deriving DecidableEq, Repr

/-- `gateFlags`. -/
def gateFlags : GateType → U8
  | .interruptGate => 0x8E
  | .trapGate => 0x8F

/-- What `idt_set_gate` makes of a gate. -/
def gateOf (base : U64) (gateType : GateType) : InterruptDescriptor where
  offset_1 := (base &&& 0xFFFF).setWidth 16
  offset_2 := ((base >>> 16) &&& 0xFFFF).setWidth 16
  offset_3 := ((base >>> 32) &&& 0xFFFFFFFF).setWidth 32
  selector := 0x08
  type_attributes := gateFlags gateType
  ist := 0
  zero := 0

/-- `idt_set_gate`, on the table at an address. -/
def idtSetGate (idt : U64) (num : U8) (base : U64) (gateType : GateType) (memory : U64 → U64) :
    U64 → U64 :=
  write memory (slot idt (2 * num.toNat)) (gateOf base gateType).words

/-- The calls of `initIDT`, one for each number. -/
def setGates (idt : U64) (isr : U8 → U64) (memory : U64 → U64) : Nat → U64 → U64
  | 0 => memory
  | n + 1 => idtSetGate idt (BitVec.ofNat 8 n) (isr (BitVec.ofNat 8 n)) .interruptGate
      (setGates idt isr memory n)

/-- `initIDT`, up to `asm_lidt`: the memory behind it, and what is in `idtp`. -/
def initIDT (idt : U64) (isr : U8 → U64) (memory : U64 → U64) :
    DescriptorTableRegister × (U64 → U64) :=
  (⟨16 * 256 - 1, idt⟩, setGates idt isr memory 256)

/-- The gate of a number. -/
def readGate (memory : U64 → U64) (idtr : DescriptorTableRegister) (num : U8) :
    Option InterruptDescriptor :=
  if 16 * num.toNat + 15 ≤ idtr.limit.toNat then
    some (.read (memory (slot idtr.base (2 * num.toNat)))
      (memory (slot idtr.base (2 * num.toNat + 1))))
  else none

section Interrupts

variable {memory : U64 → U64} {idt : U64} {isr : U8 → U64} {base : U64} {gateType : GateType}

/-- The processor finds the gate that was stored. -/
theorem InterruptDescriptor.read_words (d : InterruptDescriptor) {low high : U64}
    (h : d.words = [low, high]) : read low high = d := by
  have hlow : ∀ f ∈ d.lowFields, f.2 < 2 ^ f.1 := by
    simp only [lowFields, List.forall_mem_cons, BitVec.isLt, true_and]
    exact List.forall_mem_nil _
  have hhigh : ∀ f ∈ d.highFields, f.2 < 2 ^ f.1 := by
    simp only [highFields, List.forall_mem_cons, BitVec.isLt, true_and]
    exact List.forall_mem_nil _
  simp only [words, List.cons.injEq, and_true] at h
  obtain ⟨rfl, rfl⟩ := h
  have hlowField (i : Nat) : fieldOf [16, 16, 8, 8, 16] (BitVec.ofNat 64 (pack d.lowFields)) i =
      (d.lowFields.map Prod.snd).getD i 0 :=
    fieldOf_pack hlow (show [16, 16, 8, 8, 16].sum ≤ 64 by decide) i
  have hhighField (i : Nat) : fieldOf [32, 32] (BitVec.ofNat 64 (pack d.highFields)) i =
      (d.highFields.map Prod.snd).getD i 0 :=
    fieldOf_pack hhigh (show [32, 32].sum ≤ 64 by decide) i
  simp only [read, hlowField, hhighField]
  cases d
  simp [lowFields, highFields]

/-- The processor puts the address together that was set. -/
@[simp] theorem offset_gateOf : (gateOf base gateType).offset = base := by
  have h16 : (0xFFFF : U64).toNat = 2 ^ 16 - 1 := by decide
  have h32 : (0xFFFFFFFF : U64).toNat = 2 ^ 32 - 1 := by decide
  have hlt := base.isLt
  apply BitVec.eq_of_toNat_eq
  rw [InterruptDescriptor.offset, BitVec.toNat_ofNat]
  simp only [gateOf, pack, toNat_part h16, toNat_part h32, BitVec.toNat_ushiftRight,
    Nat.shiftRight_eq_div_pow]
  omega

/-- A gate is not stored in the place of another word. -/
theorem idtSetGate_of_ne {num : U8} {i : Nat} (hi : i < 512)
    (hne : i ≠ 2 * num.toNat ∧ i ≠ 2 * num.toNat + 1) :
    idtSetGate idt num base gateType memory (slot idt i) = memory (slot idt i) := by
  have hnum := num.isLt
  refine write_of_notMem fun j hj heq => ?_
  have hj : j < 2 := hj
  rw [slot_slot] at heq
  have hsame := slot_inj (by omega) (by omega) heq
  omega

/-- The gates are set that were reached. -/
theorem holds_setGates {n : Nat} (hn : n ≤ 256) {num : U8} (hnum : num.toNat < n) :
    Holds (setGates idt isr memory n) (slot idt (2 * num.toNat))
      (gateOf (isr num) .interruptGate).words := by
  induction n with
  | zero => exact absurd hnum (Nat.not_lt_zero _)
  | succ n ih =>
    rw [setGates]
    by_cases hlast : num.toNat = n
    · obtain rfl : num = BitVec.ofNat 8 n := by rw [← hlast, BitVec.ofNat_toNat, BitVec.setWidth_eq]
      exact holds_write (show 2 < 2 ^ 60 by norm_num)
    · have hn' : (BitVec.ofNat 8 n).toNat = n := Nat.mod_eq_of_lt hn
      refine (ih (by omega) (by omega)).congr fun i hi => ?_
      have hi : i < 2 := hi
      rw [slot_slot]
      exact idtSetGate_of_ne (by omega) (by omega)

/-- The table of the kernel is in memory, and the processor has its register. -/
def HasGates (isr : U8 → U64) (memory : U64 → U64) (idtr : DescriptorTableRegister) : Prop :=
  idtr.limit = 16 * 256 - 1 ∧ ∀ num : U8, Holds memory (slot idtr.base (2 * num.toNat))
    (gateOf (isr num) .interruptGate).words

/-- So it is behind `initIDT`. -/
theorem hasGates_initIDT : HasGates isr (initIDT idt isr memory).2 (initIDT idt isr memory).1 := by
  have hall (num : U8) := @holds_setGates memory idt isr 256 (Nat.le_refl _) num num.isLt
  rw [initIDT]
  exact ⟨rfl, hall⟩

/-- For every number the processor finds the gate of its routine. -/
theorem HasGates.readGate {idtr : DescriptorTableRegister} (h : HasGates isr memory idtr)
    (num : U8) : readGate memory idtr num = some (gateOf (isr num) .interruptGate) := by
  have hlt := num.isLt
  have hlimit : idtr.limit.toNat = 4095 := congrArg BitVec.toNat h.1
  obtain ⟨hlow, hhigh, -⟩ := h.2 num
  rw [X86.readGate, if_pos (by omega)]
  refine congrArg some (InterruptDescriptor.read_words _ ?_)
  have hnext : slot idtr.base (2 * num.toNat + 1) = slot idtr.base (2 * num.toNat) + 8 := by
    rw [← slot_slot, slot_succ, slot_zero]
  rw [hnext, hlow, hhigh, InterruptDescriptor.words]

end Interrupts

end Homegrown.X86
