import Homegrown.ImageBuilder.Fat
import Homegrown.Shared.Text.Split

/-!
# The kernel information file

The image builder writes the size of the kernel and its first block to `KERNEL.INF`, and
the loader reads them: the value in a line belongs to the field that the number of the line
names. `getKernelInfo_kernelInf` is the round trip.
-/

namespace Homegrown.OsLoader

open ImageBuilder

/-- The byte that ends a line. -/
def newline : U8 := 0x0A

/-- The byte `=`. -/
def assignment : U8 := 0x3D

/-- `BYTE_SIZE` of `DataPartitionLayout`. -/
def byteSize : U32 := 0

/-- `LBA_START` of `DataPartitionLayout`. -/
def lbaStart : U32 := 1

/-- `DataPartitionFile`, in which nothing is assigned at first. -/
structure DataPartitionFile where
  bytes : Option U64
  lbaStart : Option U64
  deriving DecidableEq

/-- The variables of `getKernelInfo`, and the fields it has assigned so far. -/
structure KernelInfo where
  kernelFile : DataPartitionFile
  layout : U32
  assigned : List U32
  deriving DecidableEq

/-- The `switch` on the layout. -/
def KernelInfo.assign (info : KernelInfo) (token : ByteString) : KernelInfo :=
  let value := decimalValue token.buf
  if info.layout = byteSize then
    { info with kernelFile := { info.kernelFile with bytes := some value },
                assigned := info.assigned ++ [byteSize] }
  else if info.layout = OsLoader.lbaStart then
    { info with kernelFile := { info.kernelFile with lbaStart := some value },
                assigned := info.assigned ++ [OsLoader.lbaStart] }
  else info

/-- A round of the loop over tokens, with the flag `second`. -/
def readToken (state : Bool × KernelInfo) (token : ByteString) : Bool × KernelInfo :=
  (true, if state.1 then state.2.assign token else state.2)

/-- A round of the loop over lines. -/
def readLine (info : KernelInfo) (line : ByteString) : Option KernelInfo := do
  let tokens ← tokenizeString line assignment 0
  let (_, info) := tokens.foldl readToken (false, info)
  return { info with layout := info.layout + 1 }

/-- `getKernelInfo`, from where the file was read. -/
def getKernelInfo (dataFile : ByteString) : Option KernelInfo := do
  let lines ← tokenizeString dataFile newline 0
  lines.foldlM readLine ⟨⟨none, none⟩, byteSize, []⟩

/-! ## The round trip -/

/-- A line of the file: the name of a field and a number. -/
def line (name : List U8) (value : U64) (h : name.length < 100) : ByteString where
  buf := name ++ assignment :: U64ToString value
  length_lt := by
    have hvalue := length_U64ToString value
    rw [List.length_append, List.length_cons]
    omega

/-- A line assigns the field that its number names. -/
theorem readLine_line (info : KernelInfo) (name : List U8) (value : U64)
    (hlen : name.length < 100) (hname : assignment ∉ name) :
    ∃ token : ByteString, decimalValue token.buf = value ∧
      readLine info (line name value hlen) =
        some { info.assign token with layout := (info.assign token).layout + 1 } := by
  have hvalue := length_U64ToString value
  have hdigits : assignment ∉ U64ToString value := fun h => absurd (mem_U64ToString h) (by decide)
  refine ⟨⟨U64ToString value, by omega⟩, decimalValue_U64ToString value, ?_⟩
  have htokens : tokenizeString (line name value hlen) assignment 0 =
      some [⟨name, by omega⟩, ⟨U64ToString value, by omega⟩] := by
    apply tokenizeString_pair rfl hname hdigits
    · exact List.ne_nil_of_length_pos hvalue.1
    · simp only [line, List.length_append, List.length_cons]
      omega
  rw [readLine, htokens]
  rfl

/-- The file that the image builder writes. -/
def kernelInfFile (c : Configuration) (kernelSizeBytes : U64) : ByteString where
  buf := kernelInf c kernelSizeBytes
  length_lt := (length_kernelInf c kernelSizeBytes).2.trans_lt (by norm_num)

/-- The loader reads the size and the first block that the image builder wrote, and assigns
both fields once. -/
theorem getKernelInfo_kernelInf (c : Configuration) (kernelSizeBytes : U64) :
    getKernelInfo (kernelInfFile c kernelSizeBytes) = some
      ⟨⟨some kernelSizeBytes, some (c.dataPartitionStartLBA.setWidth 64)⟩, 2,
        [byteSize, lbaStart]⟩ := by
  let first := line (text "KERNEL_SIZE_BYTES") kernelSizeBytes (by decide)
  let second := line (text "KERNEL_START_LBA") (c.dataPartitionStartLBA.setWidth 64) (by decide)
  have hlines : tokenizeString (kernelInfFile c kernelSizeBytes) newline 0 =
      some [first, second] := by
    apply tokenizeString_terminated
    · simp only [List.flatMap_cons, List.flatMap_nil, List.append_nil]
      simp only [first, second, line, kernelInfFile, kernelInf, List.append_assoc]
      rfl
    · have hdigits (value : U64) : newline ∉ U64ToString value :=
        fun h => absurd (mem_U64ToString h).1 (by decide)
      intro p hp
      rcases List.mem_pair.mp hp with rfl | rfl
      · simp [first, line, hdigits]
        decide
      · simp [second, line, hdigits]
        decide
  let info : KernelInfo := ⟨⟨none, none⟩, byteSize, []⟩
  obtain ⟨token₁, hvalue₁, hfirst⟩ := readLine_line info (text "KERNEL_SIZE_BYTES")
    kernelSizeBytes (by decide) (by decide)
  have hassign₁ : info.assign token₁ = ⟨⟨some kernelSizeBytes, none⟩, byteSize, [byteSize]⟩ := by
    simp [info, KernelInfo.assign, hvalue₁]
  rw [hassign₁] at hfirst
  obtain ⟨token₂, hvalue₂, hsecond⟩ := readLine_line
    ⟨⟨some kernelSizeBytes, none⟩, byteSize + 1, [byteSize]⟩ (text "KERNEL_START_LBA")
    (c.dataPartitionStartLBA.setWidth 64) (by decide) (by decide)
  simp only [KernelInfo.assign, hvalue₂] at hsecond
  rw [getKernelInfo, hlines]
  exact Option.bind_eq_some_iff.mpr ⟨_, rfl,
    Option.bind_eq_some_iff.mpr ⟨_, hfirst, Option.bind_eq_some_iff.mpr ⟨_, hsecond, rfl⟩⟩⟩

end Homegrown.OsLoader
