import Homegrown.OsLoader.BootServices

/-!
# Reading the kernel from its disk

The medium of the loader has several handles: the whole disk, and each of its partitions.
`readDiskLbasFromCurrentGlobalImage` reads the block it is given from every handle of the medium,
and takes the first that begins as the kernel does (`readHandles_spec`).
-/

namespace Homegrown.OsLoader

/-- What `create_magic.py` makes of the kernel, where it does not raise an error. -/
def createMagic (kernel : List U8) : Option (List U8) :=
  let data := kernel.take 4
  if data.length < 4 then none else some data

/-- `ALIGN_UP_VALUE` of a number of bytes, to the size of a block. The size has 32 bits, and so
has the mask before it meets the number. -/
def alignUpToBlock (bytes : U64) (blockSize : U32) : U64 :=
  (bytes + (blockSize - 1).setWidth 64) &&& (~~~(blockSize - 1)).setWidth 64

/-- A `string`, with where it is in memory. -/
structure KernelContent where
  buf : U64
  data : List U8
  deriving DecidableEq, Repr

section Read

variable {σ : Type}

/-- What is read from a handle of the medium, where it begins with the magic. -/
def readHandle (kernelMagic : List U8) (mediaId : U32) (diskLba bytes : U64)
    (biop : BlockIoProtocol) : Option (List U8) :=
  if biop.media.mediaId = mediaId then
    (biop.readBlocks biop.media.mediaId diskLba
      (alignUpToBlock bytes biop.media.blockSize)).filter
        fun data => data.take kernelMagic.length = kernelMagic
  else none

/-- The loop of `readDiskLbasFromCurrentGlobalImage`. -/
def readHandles (boot : BootServices σ) (kernelMagic : List U8) (mediaId : U32)
    (diskLba bytes : U64) : List Device → Loader σ (Option KernelContent)
  | [] => return none
  | device :: handles => do
    let biop ← orExit device.blockIo "Could not Open Block IO protocol on handle\n"
    let alignedBytes := alignUpToBlock bytes biop.media.blockSize
    -- The pages are allocated for every handle, of whichever medium it is.
    let address ← boot.allocate (ceilingDivValue alignedBytes UEFIPageSize)
      "Could not allocete data for disk buffer\n"
    match readHandle kernelMagic mediaId diskLba bytes biop with
    | some data => return some ⟨address, data⟩
    | none => readHandles boot kernelMagic mediaId diskLba bytes handles

/-- `readDiskLbasFromCurrentGlobalImage`. -/
def readDiskLbasFromCurrentGlobalImage (boot : BootServices σ) (kernelMagic : List U8)
    (diskLba bytes : U64) : Loader σ KernelContent := do
  let device ← orExit boot.loadedImage "Could not open Loaded Image Protocol\n"
  let imageBiop ← orExit device.blockIo
    "Could not open Block IO Protocol for this loaded image.\n"
  let handles ← orExit boot.handleBuffer "Could not locate any Block IO Protocols.\n"
  match ← readHandles boot kernelMagic imageBiop.media.mediaId diskLba bytes handles with
  | some data => return data
  | none => throw (.message (text "Could not find Block IO protocol for disk with ID:" ++
      U64ToString (imageBiop.media.mediaId.setWidth 64) ++ text "\n"))

end Read

section Align

variable {bytes : U64} {blockSize : U32} {k : Nat}

/-- Numbers of bytes below 4 GiB are rounded up as they should be. -/
theorem toNat_alignUpToBlock (h : IsTwoPow blockSize k)
    (hlt : bytes.toNat + (2 ^ k - 1) < 2 ^ 32) :
    (alignUpToBlock bytes blockSize).toNat = roundUp bytes.toNat (2 ^ k) := by
  have hbytes : (bytes.setWidth 32 : U32).toNat = bytes.toNat := by
    rw [BitVec.toNat_setWidth]
    exact Nat.mod_eq_of_lt (by omega)
  have halign := toNat_alignUpValue (x := bytes.setWidth 32) h (by rwa [hbytes])
  rw [hbytes, h] at halign
  rw [← halign, alignUpToBlock, alignUpValue, BitVec.toNat_and, BitVec.toNat_and,
    BitVec.toNat_setWidth_of_le (by norm_num), BitVec.toNat_add, BitVec.toNat_add, hbytes,
    BitVec.toNat_setWidth_of_le (by norm_num), h.toNat_sub_one, Nat.mod_eq_of_lt hlt,
    Nat.mod_eq_of_lt (by omega)]

end Align

section Spec

variable {σ : Type} {boot : BootServices σ} {kernelMagic : List U8} {mediaId : U32}
  {diskLba bytes : U64} {t : σ}

/-- What is found is what the first handle has that does not turn the loader away. -/
theorem readHandles_spec {handles : List Device}
    (hopen : ∀ device ∈ handles, device.blockIo.isSome) :
    EndsIn (readHandles boot kernelMagic mediaId diskLba bytes handles t) Stop.OutOfPages
      fun found _ => found.map KernelContent.data = handles.findSome? fun device =>
        device.blockIo.bind (readHandle kernelMagic mediaId diskLba bytes) := by
  induction handles generalizing t with
  | nil => exact .pure rfl
  | cons device handles ih =>
    rw [List.forall_mem_cons] at hopen
    obtain ⟨biop, hbiop⟩ := Option.isSome_iff_exists.mp hopen.1
    rw [readHandles, hbiop, orExit_some, pure_bind, List.findSome?_cons, hbiop, Option.bind_some]
    refine (BootServices.endsIn_allocate (by decide) _ t).bind fun address t' _ _ => ?_
    cases readHandle kernelMagic mediaId diskLba bytes biop with
    | some data => exact .pure rfl
    | none => exact ih hopen.2

/-- A handle on another medium, or one from which no kernel is read, turns the loader away. -/
theorem readHandle_eq_none {biop : BlockIoProtocol}
    (h : biop.media.mediaId = mediaId → ∀ data, biop.readBlocks biop.media.mediaId diskLba
      (alignUpToBlock bytes biop.media.blockSize) = some data →
        data.take kernelMagic.length ≠ kernelMagic) :
    readHandle kernelMagic mediaId diskLba bytes biop = none := by
  rw [readHandle]
  split
  · rename_i hmedia
    rw [Option.filter_eq_none_iff]
    exact fun data hdata => by simpa using h hmedia data hdata
  · rfl

/-- Where one handle has the kernel, and no handle has anything else that begins as the kernel
does, the kernel is read. -/
theorem readDiskLbas_of_handles {device : Device} {imageBiop : BlockIoProtocol}
    {handles : List Device} {data : List U8} (himage : boot.loadedImage = some device)
    (hbiop : device.blockIo = some imageBiop) (hhandles : boot.handleBuffer = some handles)
    (honly : ∀ device ∈ handles, ∃ biop, device.blockIo = some biop ∧
      ∀ read, readHandle kernelMagic imageBiop.media.mediaId diskLba bytes biop = some read →
        read = data)
    (hsome : ∃ device ∈ handles, ∃ biop, device.blockIo = some biop ∧
      readHandle kernelMagic imageBiop.media.mediaId diskLba bytes biop = some data) :
    EndsIn (readDiskLbasFromCurrentGlobalImage boot kernelMagic diskLba bytes t) Stop.OutOfPages
      fun content _ => content.data = data := by
  have hspec := @readHandles_spec _ boot kernelMagic imageBiop.media.mediaId diskLba bytes t handles
    fun device hdevice => by
      obtain ⟨biop, hsome, -⟩ := honly device hdevice
      rw [hsome]
      rfl
  have hfirst : handles.findSome? (fun device => device.blockIo.bind
      (readHandle kernelMagic imageBiop.media.mediaId diskLba bytes)) = some data := by
    cases hcase : handles.findSome? fun device => device.blockIo.bind
        (readHandle kernelMagic imageBiop.media.mediaId diskLba bytes) with
    | none =>
      obtain ⟨d, hd, biop, hsome, hread⟩ := hsome
      have hnone := List.findSome?_eq_none_iff.mp hcase d hd
      rw [hsome, Option.bind_some, hread] at hnone
      cases hnone
    | some read =>
      obtain ⟨d, hd, hread⟩ := List.exists_of_findSome?_eq_some hcase
      obtain ⟨biop, hsome, heq⟩ := honly d hd
      rw [hsome, Option.bind_some] at hread
      rw [heq read hread]
  rw [readDiskLbasFromCurrentGlobalImage, himage, orExit_some, pure_bind, hbiop, orExit_some,
    pure_bind, hhandles, orExit_some, pure_bind]
  refine hspec.bind fun found t' _ hfound => ?_
  rw [hfirst] at hfound
  obtain ⟨content, rfl, hcontent⟩ := Option.map_eq_some_iff.mp hfound
  exact .pure hcontent

end Spec

end Homegrown.OsLoader
