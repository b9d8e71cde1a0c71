import Homegrown.Efi.Rsdp
import Homegrown.Memory.Physical.Init
import Homegrown.Memory.Virtual.Map
import Homegrown.OsLoader.KernelLoading

/-!
# The loader

`efi_main` makes a new tree of page tables, loads the kernel, maps it and all that it starts with,
leaves the boot services and jumps. What the processor and the firmware answer are parameters. The
messages that only inform are left out.
-/

namespace Homegrown.OsLoader

open Memory

/-! ## Parameters of the kernel -/

/-- `KERNEL_SPACE_END`. -/
def kernelSpaceEnd : U64 := 0xfffffffffffff000

/-- `KERNEL_CODE_START`. -/
def kernelCodeStart : U64 := kernelSpaceStart

/-- `KERNEL_PARAMS_SIZE`. -/
def kernelParamsSize : U64 := 0x1000

/-- `KERNEL_PARAMS_START`. -/
def kernelParamsStart : U64 := kernelSpaceEnd - kernelParamsSize

/-- `STACK_SIZE`. -/
def stackSize : U64 := 0x4000

/-- `BOTTOM_STACK`. -/
def bottomStack : U64 := kernelParamsStart - stackSize

/-- `FrameBuffer`. -/
structure FrameBuffer where
  ptr : U64
  size : U64
  columns : U32
  rows : U32
  scanline : U32
  deriving DecidableEq, Repr

/-- `MemoryInfo`, with the descriptors in its buffer. -/
structure MemoryInfo where
  memoryMapSize : U64
  mapKey : U64
  descriptorSize : U64
  memoryMap : U64
  descriptors : List MemoryDescriptor
  deriving DecidableEq, Repr

/-- `KernelParameters`: the frame buffer, and the memory map. -/
structure KernelParameters where
  fb : FrameBuffer
  memory : MemoryInfo
  deriving DecidableEq, Repr

/-- What the loader jumps with: the pages of the kernel, of its parameters and of its stack, and
what it stored in the parameters. -/
structure Jump where
  kernelContent : KernelContent
  kernelParams : U64
  params : KernelParameters
  stackEnd : U64
  deriving DecidableEq, Repr

/-- `stackPointer`. -/
def Jump.stackPointer (j : Jump) : U64 := j.stackEnd + stackSize

/-! ## Processor and firmware -/

/-- What `CPUID` says, as far as the loader asks. -/
structure CPUFeatures where
  maxCPUID : U32
  APIC : Bool
  TSC : Bool
  PGE : Bool
  FPU : Bool
  SSE : Bool

/-- `GraphicsOutputProtocolMode`. -/
structure GraphicsOutputMode where
  frameBufferBase : U64
  frameBufferSize : U64
  horizontalResolution : U32
  verticalResolution : U32
  pixelsPerScanLine : U32

/-- What `get_memory_map` answers to the size of a buffer. -/
inductive MapAnswer where
  | bufferTooSmall (memoryMapSize descriptorSize : U64)
  | success (memoryMapSize mapKey descriptorSize : U64) (descriptors : List MemoryDescriptor)
  | failure

/-- All boot services of the loader. -/
structure Firmware (σ : Type) extends BootServices σ where
  graphicsOutput : Option GraphicsOutputMode
  getMemoryMap : U64 → σ → MapAnswer × σ
  freePages : U64 → U64 → σ → Option σ
  exitBootServices : U64 → σ → Bool × σ
  tableBytes : U64 → U8
  configurationTable : List Efi.ConfigurationTable

/-- Programs of the loader on its memory. -/
abbrev EfiMain (σ : Type) := EStateM Stop (Paging σ)

section Programs

variable {σ α : Type}

/-- A program of boot services. -/
def onServices (x : Loader σ α) : EfiMain σ α :=
  zoom Paging.allocator (fun s t => { s with allocator := t }) x

/-- How a fault of the pager ends the loader. -/
def Stop.ofFault : Fault → Stop
  | .noMorePhysicalMemory => .message (text "Could not allocate 4KiB page\n")
  | _ => .assertion

/-- A program on page tables. -/
def onPages (x : Pager σ α) : EfiMain σ α := fun s =>
  match x s with
  | .ok a s' => .ok a s'
  | .error fault s' => .error (.ofFault fault) s'

/-- `allocate4KiBPage` of the loader. -/
def BootServices.allocate4KiBPage (boot : BootServices σ) (numPages : U64) :
    EStateM Fault σ U64 := fun t =>
  match boot.allocatePages numPages t with
  | some (address, t') => .ok address t'
  | none => .error .noMorePhysicalMemory t

/-- `memset` of pages with zero. -/
def clearPages (page numPages : U64) (words : U64 → U64) : U64 → U64 := fun a =>
  if page.toNat ≤ a.toNat ∧ a.toNat < page.toNat + numPages.toNat * pageFrameSize then 0
  else words a

/-- `allocAndZero`. -/
def allocAndZero (boot : BootServices σ) (numPages : U64) : Pager σ U64 := do
  let page ← zoom Paging.allocator (fun s t => { s with allocator := t })
    (boot.allocate4KiBPage numPages)
  modify fun s => { s with words := clearPages page numPages s.words }
  return page

/-- `messageAndExit`, where the processor does not have what it needs. -/
def needs (feature : Bool) (message : String) : Loader σ Unit :=
  if feature then return ()
  else throw (.message (text message ++ text "\n" ++ text "Buy newer CPU.\n"))

/-- `initArchitecture`: the table of level 4, the checks of the processor, and the pages of the
descriptor table. -/
def initArchitecture (boot : BootServices σ) (cpu : CPUFeatures) : EfiMain σ Unit := do
  let newCR3 ← onPages (allocAndZero boot 1)
  modify fun s => { s with level4PageTable := newCR3 }
  onServices do
    needs (1 ≤ cpu.maxCPUID) "CPU does not support CPUID of 1 and above"
    needs cpu.APIC "CPU does not support APIC"
    needs cpu.TSC "CPU does not support Time Stamp Counter"
    needs cpu.PGE "CPU does not support global memory paging!"
    needs cpu.FPU "CPU does not support FPU!"
    needs cpu.SSE "CPU does not support SSE!"
    let _ ← boot.allocate (ceilingDivValue (3 * 4096) UEFIPageSize)
      "Could not allocate data for disk buffer\n"

/-- The words of memory behind the read of the kernel. -/
def storeContent (content : KernelContent) (words : U64 → U64) : U64 → U64 := fun a =>
  if content.buf.toNat ≤ a.toNat ∧ a.toNat < content.buf.toNat + content.data.length then
    BitVec.ofNat 64 (ofLittleEndian ((content.data.drop (a.toNat - content.buf.toNat)).take 8))
  else words a

/-- A call of `get_memory_map`. -/
def Firmware.askMemoryMap (fw : Firmware σ) (size : U64) : Loader σ MapAnswer := fun t =>
  .ok (fw.getMemoryMap size t).1 (fw.getMemoryMap size t).2

/-- `getMemoryInfo`. -/
def getMemoryInfo (fw : Firmware σ) : Loader σ MemoryInfo := do
  match ← fw.askMemoryMap 0 with
  | .bufferTooSmall memoryMapSize descriptorSize =>
    let size := memoryMapSize + descriptorSize * 2
    let memoryMap ← fw.allocate (ceilingDivValue size UEFIPageSize)
      "Could not allocate data for memory map buffer\n"
    match ← fw.askMemoryMap size with
    | .success memoryMapSize mapKey descriptorSize descriptors =>
      return ⟨memoryMapSize, mapKey, descriptorSize, memoryMap, descriptors⟩
    | _ => throw (.message (text "Getting memory map failed!\n"))
  | _ =>
    throw (.message (text "Should have received a buffer too small error here!\n"))

/-- A call of `exit_boot_services`. -/
def Firmware.tryExit (fw : Firmware σ) (mapKey : U64) : Loader σ Bool := fun t =>
  .ok (fw.exitBootServices mapKey t).1 (fw.exitBootServices mapKey t).2

/-- A call of `free_pages`. -/
def Firmware.free (fw : Firmware σ) (memory pages : U64) (message : String) : Loader σ Unit := do
  set (← orExit (fw.freePages memory pages (← get)) message)

/-- The end of `efi_main`: a memory map, and the exit with its key, which is tried twice. -/
def exitServices (fw : Firmware σ) : Loader σ MemoryInfo := do
  let memoryInfo ← getMemoryInfo fw
  if ← fw.tryExit memoryInfo.mapKey then return memoryInfo
  else
    fw.free memoryInfo.memoryMap (ceilingDivValue memoryInfo.memoryMapSize UEFIPageSize)
      "Could not free allocated memory map\r\n"
    let memoryInfo ← getMemoryInfo fw
    if ← fw.tryExit memoryInfo.mapKey then return memoryInfo
    else throw (.message (text "could not exit boot services!\r\n"))

/-- `mapVirtualRegion` of pages of `UEFI_PAGE_SIZE`. -/
def mapPagesAt (boot : BootServices σ) (virt : U64) (memory : PagedMemory) : EfiMain σ Unit :=
  onPages (mapVirtualRegion boot.allocate4KiBPage virt memory .basePage)

/-- The loop of `efi_main` over the memory map. -/
def mapDescriptors (boot : BootServices σ) : List MemoryDescriptor → EfiMain σ Unit
  | [] => return ()
  | desc :: descriptors => do
    mapPagesAt boot desc.physicalStart ⟨desc.physicalStart, desc.numberOfPages⟩
    mapDescriptors boot descriptors

/-- The pages of the kernel. -/
def KernelContent.pages (content : KernelContent) : U64 :=
  ceilingDivValue (BitVec.ofNat 64 content.data.length) UEFIPageSize

/-- The part of `efi_main` that loads the kernel and maps it where it was linked to. -/
def placeKernel (boot : BootServices σ) (kernelMagic : List U8) : EfiMain σ KernelContent := do
  let kernelContent ← onServices (loadKernel boot kernelMagic)
  modify fun s => { s with words := storeContent kernelContent s.words }
  mapPagesAt boot kernelCodeStart ⟨kernelContent.buf, kernelContent.pages⟩
  return kernelContent

/-- The part of `efi_main` that maps all memory and the frame buffer to themselves. -/
def mapMemory (fw : Firmware σ) : EfiMain σ GraphicsOutputMode := do
  let mode ← onServices (orExit fw.graphicsOutput "Could not locate locate GOP\n")
  let memoryInfo ← onServices (getMemoryInfo fw)
  mapDescriptors fw.toBootServices memoryInfo.descriptors
  mapPagesAt fw.toBootServices mode.frameBufferBase
    ⟨mode.frameBufferBase, ceilingDivValue mode.frameBufferSize UEFIPageSize⟩
  return mode

/-- What `efi_main` does for the parameters of the kernel, and again for its stack. -/
def placeZeroed (boot : BootServices σ) (virt size : U64) : EfiMain σ U64 := do
  let page ← onPages (allocAndZero boot (ceilingDivValue size UEFIPageSize))
  mapPagesAt boot virt ⟨page, ceilingDivValue size UEFIPageSize⟩
  return page

/-- `efi_main`, up to the jump. -/
def efiMain (fw : Firmware σ) (cpu : CPUFeatures) (kernelMagic : List U8) : EfiMain σ Jump := do
  initArchitecture fw.toBootServices cpu
  let kernelContent ← placeKernel fw.toBootServices kernelMagic
  let mode ← mapMemory fw
  let kernelParams ← placeZeroed fw.toBootServices kernelParamsStart kernelParamsSize
  let stackEnd ← placeZeroed fw.toBootServices bottomStack stackSize
  if (Efi.getRSDP fw.tableBytes fw.configurationTable).rsdp = 0 then
    throw (.message (text "Could not find an RSDP!\n"))
  let memory ← onServices (exitServices fw)
  let fb : FrameBuffer := ⟨mode.frameBufferBase, mode.frameBufferSize, mode.horizontalResolution,
    mode.verticalResolution, mode.pixelsPerScanLine⟩
  return ⟨kernelContent, kernelParams, ⟨fb, memory⟩, stackEnd⟩

end Programs

end Homegrown.OsLoader
