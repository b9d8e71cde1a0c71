import Homegrown.Core.Outcome
import Homegrown.Shared.Maths

/-!
# Page sizes, faults and the layout of the address space

The constants of `x86/memory/definitions.h` and `efi-to-kernel/memory/definitions.h`,
and the ways a call of the memory code can fail to return. The code runs in
`EStateM Fault`, so the state at a fault is kept, as it is in the machine.
-/

namespace Homegrown.Memory

/-- `PageTableFormat.ENTRIES`. -/
def PageTableFormat.entries : Nat := 512

/-- `PAGE_FRAME_SHIFT`. -/
def pageFrameShift : Nat := 12

/-- `PAGE_FRAME_SIZE`. -/
def pageFrameSize : Nat := 4096

/-- `JUMBO_PAGE_SIZE`, 512 GiB. -/
def jumboPageSize : U64 := 0x8000000000

/-- `WUMBO_PAGE_SIZE`, 256 TiB. -/
def wumboPageSize : U64 := 0x1000000000000

/-- `PageSize`. -/
inductive PageSize where
  | basePage
  | largePage
  | hugePage
  deriving DecidableEq, Repr

namespace PageSize

/-- The exponent of the page size. -/
def exponent : PageSize → Nat
  | basePage => 12
  | largePage => 21
  | hugePage => 30

/-- Bytes of a page. -/
def bytes (s : PageSize) : Nat := 2 ^ s.exponent

/-- The value of the enumerator. -/
def value (s : PageSize) : U64 := BitVec.ofNat 64 s.bytes

/-- `toLargerPageSize`, defined below `HUGE_PAGE`. -/
def larger? : PageSize → Option PageSize
  | basePage => some largePage
  | largePage => some hugePage
  | hugePage => none

@[simp] theorem bytes_basePage : basePage.bytes = 4096 := rfl
@[simp] theorem bytes_largePage : largePage.bytes = 2097152 := rfl
@[simp] theorem bytes_hugePage : hugePage.bytes = 1073741824 := rfl

theorem bytes_pos (s : PageSize) : 0 < s.bytes := by
  simp only [bytes]
  positivity

theorem bytes_le (s : PageSize) : s.bytes ≤ 2 ^ 30 := by
  cases s <;> simp

@[simp] theorem toNat_value (s : PageSize) : s.value.toNat = s.bytes := by
  cases s <;> rfl

/-- The page sizes are powers of two. -/
theorem isTwoPow_value (s : PageSize) : IsTwoPow s.value s.exponent := s.toNat_value

/-- A page of the next larger size is `PageTableFormat.ENTRIES` pages. -/
theorem larger?_bytes {s l : PageSize} (h : s.larger? = some l) : l.bytes = 512 * s.bytes := by
  cases s <;> simp [larger?] at h <;> subst h <;> rfl

/-- Every page consists of whole frames. -/
theorem pageFrameSize_dvd (s : PageSize) : pageFrameSize ∣ s.bytes := by
  cases s <;> decide

end PageSize

/-- Why a call does not return. -/
inductive Fault where
  /-- `interruptNoMorePhysicalMemory`. -/
  | noMorePhysicalMemory
  /-- `interruptTooLargeAllocation`. -/
  | tooLargeAllocation
  /-- An `ASSERT` failed. -/
  | assertion
  /-- A loop whose index cannot reach its bound. -/
  | endlessLoop
  /-- An index past the entries of a table. No loop of the managers gets there. -/
  | outOfBounds
  /-- The bound on nested calls given to the model ran out. -/
  | outOfFuel
  deriving DecidableEq, Repr

/-- There is no more physical memory. -/
def NoMoreFrames (fault : Fault) : Prop := fault = .noMorePhysicalMemory

/-- `ASSERT`. -/
def assert {σ : Type} (c : Prop) [Decidable c] : EStateM Fault σ Unit :=
  if c then pure () else throw .assertion

/-- An assertion that returns holds. -/
@[simp] theorem assert_eq_ok {σ : Type} {c : Prop} [Decidable c] {s t : σ} {u : Unit} :
    assert c s = .ok u t ↔ c ∧ s = t := by
  unfold assert
  by_cases h : c <;> simp [h]

/-- An assertion that does not hold stops the program. -/
theorem assert_of_not {σ : Type} {c : Prop} [Decidable c] (h : ¬ c) (s : σ) :
    assert c s = .error .assertion s := by
  rw [assert, if_neg h]
  rfl

/-- An assertion does nothing where it holds, and stops the program where it does not. -/
theorem endsClean_assert {σ : Type} {clean p : σ → Prop} {allowed : Fault → Prop} {c : Prop}
    [Decidable c] (h : ∀ s, p s → c ∨ allowed .assertion) :
    EndsClean clean p (assert c) allowed fun _ => p := by
  unfold assert
  split
  · exact .pure fun _ hs => hs
  · rename_i hc
    exact ⟨fun s hs _ => .throw ((h s hs).resolve_left hc), Keeps.throw _⟩

/-- `HIGHER_HALF_START`. -/
def higherHalfStart : U64 := 0xffff800000000000

/-- `KERNEL_SPACE_START`. -/
def kernelSpaceStart : U64 := 0xfffffffff8000000

end Homegrown.Memory
