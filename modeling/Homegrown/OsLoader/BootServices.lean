import Homegrown.Core.Outcome
import Homegrown.Shared.Maths
import Homegrown.Shared.Text.Converter

/-!
# The services of the loader

The loader runs on boot services, which are a parameter: what they return for a device, and how
they change their state by allocating pages. Where a service fails the loader stops with a
message, and only after a key goes on to a reset.
-/

namespace Homegrown.OsLoader

/-- How the loader stops, if not by the jump into the kernel. -/
inductive Stop where
  /-- `EXIT_WITH_MESSAGE`. -/
  | message (text : List U8)
  /-- An `ASSERT` failed. -/
  | assertion
  /-- A variable is read to which nothing was assigned. -/
  | unassigned
  deriving DecidableEq, Repr

/-- Programs of the loader. -/
abbrev Loader (σ : Type) := EStateM Stop σ

/-- `UEFI_PAGE_SIZE`. -/
def UEFIPageSize : U64 := 4096

/-- `BlockIoMedia`. -/
structure BlockIoMedia where
  mediaId : U32
  blockSize : U32

/-- `BlockIoProtocol`. A read is given the medium, a block and a number of bytes. -/
structure BlockIoProtocol where
  media : BlockIoMedia
  readBlocks : U32 → U64 → U64 → Option (List U8)

/-- `FileProtocol` of a file. A read is given the size of its buffer. -/
structure FileProtocol where
  fileSize : Option U64
  read : U64 → Option (List U8)

/-- `FileProtocol` of the root directory. -/
structure RootDirectory where
  openFile : String → Option FileProtocol

/-- `SimpleFileSystemProtocol`. -/
structure SimpleFileSystemProtocol where
  openVolume : Option RootDirectory

/-- The protocols of a handle. -/
structure Device where
  blockIo : Option BlockIoProtocol
  simpleFileSystem : Option SimpleFileSystemProtocol

/-- The boot services: the device the loader came from, the handles with `BlockIoProtocol`, and
`allocate_pages`. -/
structure BootServices (σ : Type) where
  loadedImage : Option Device
  handleBuffer : Option (List Device)
  allocatePages : U64 → σ → Option (U64 × σ)

section Exit

variable {σ α : Type}

/-- `EXIT_WITH_MESSAGE_IF`. -/
def orExit : Option α → String → Loader σ α
  | some a, _ => return a
  | none, message => throw (.message (text message))

/-- A call of `allocate_pages`, with the message for its failure. -/
def BootServices.allocate (boot : BootServices σ) (pages : U64) (message : String) :
    Loader σ U64 := do
  let (address, t) ← orExit (boot.allocatePages pages (← get)) message
  set t
  return address

@[simp] theorem orExit_some (a : α) (message : String) :
    (orExit (some a) message : Loader σ α) = pure a := rfl

@[simp] theorem orExit_eq_ok {o : Option α} {message : String} {a : α} {t t' : σ} :
    orExit o message t = .ok a t' ↔ o = some a ∧ t = t' := by
  cases o with
  | some b => simp only [orExit_some, pure_eq_ok, Option.some.injEq]
  | none => exact iff_of_false (fun h => by cases h) (fun h => by cases h.1)

/-- What a call of `allocate_pages` that returns has done. -/
theorem BootServices.allocate_eq_ok {boot : BootServices σ} {pages address : U64}
    {message : String} {t t' : σ} : boot.allocate pages message t = .ok address t' ↔
      boot.allocatePages pages t = some (address, t') := by
  rw [allocate, get_bind]
  cases boot.allocatePages pages t with
  | none => exact iff_of_false (fun h => by cases h) (fun h => by cases h)
  | some result =>
    rw [orExit_some, pure_bind]
    simp only [bind_eq_ok, set_eq_ok, pure_eq_ok, Option.some.injEq, Prod.ext_iff]
    constructor
    · rintro ⟨-, _, rfl, rfl, rfl⟩
      exact ⟨rfl, rfl⟩
    · rintro ⟨rfl, rfl⟩
      exact ⟨⟨⟩, _, rfl, rfl, rfl⟩

/-- The messages of the loader where `allocate_pages` fails. -/
def outOfPages : List String :=
  ["Could not allocate 4KiB page\n", "Could not allocate data for disk buffer\n",
    "Could not allocate memory for file\n", "Could not allocete data for disk buffer\n",
    "Could not allocate data for memory map buffer\n"]

/-- The loader stops because there are no more pages. -/
def Stop.OutOfPages (stop : Stop) : Prop := ∃ message ∈ outOfPages, stop = .message (text message)

/-- An allocation returns, or there are no more pages. -/
theorem BootServices.endsIn_allocate {boot : BootServices σ} {message : String}
    (hmessage : message ∈ outOfPages) (pages : U64) (t : σ) :
    EndsIn (boot.allocate pages message t) Stop.OutOfPages fun _ _ => True := by
  rw [allocate, get_bind]
  cases boot.allocatePages pages t with
  | none => exact .bind (m := fun _ _ => True) (.throw ⟨message, hmessage, rfl⟩) fun _ _ hrun _ =>
      (throw_eq_ok.mp hrun).elim
  | some result => exact .of_ok rfl trivial

end Exit

end Homegrown.OsLoader
