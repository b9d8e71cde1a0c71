import Homegrown.Core.LittleEndian
import Homegrown.Core.Loop
import Homegrown.Core.Walk
import Homegrown.Shared.Memory.Arena

/-!
# The buddy allocator

Every block of the region starts with a header of sixteen bytes that holds its size and whether
it is free, and the size leads to the next block. The functions are modelled on the bytes of
memory.
-/

namespace Homegrown

/-- `BuddyBlock`. -/
structure BuddyBlock where
  size : U64
  isFree : Bool
  deriving DecidableEq, Repr

/-- `BuddyAllocator`, without `jmp_buf`. -/
structure BuddyAllocator where
  head : U64
  tail : U64
  deriving DecidableEq, Repr

/-- Why a call does not return. -/
inductive BuddyFault where
  /-- An assertion failed. -/
  | assertion
  /-- The bound on rounds given to the model ran out. -/
  | outOfFuel
  deriving DecidableEq, Repr

/-- Programs on the memory. -/
abbrev Buddy := EStateM BuddyFault (U64 → U8)

/-- `sizeof(BuddyBlock)`. -/
def buddyBlockBytes : U64 := 16

/-- The header at a place. -/
def readBuddy (m : U64 → U8) (block : U64) : BuddyBlock := ⟨load64 m block, m (block + 8) != 0⟩

/-- An assignment to `block->size`. -/
def putSize (m : U64 → U8) (block size : U64) : U64 → U8 := store64 m block size

/-- An assignment to `block->isFree`. -/
def putFree (m : U64 → U8) (block : U64) (isFree : Bool) : U64 → U8 :=
  storeBytes m (block + 8) [if isFree then 1 else 0]

/-- `nextBuddy`. -/
def nextBuddy (m : U64 → U8) (block : U64) : U64 := block + (readBuddy m block).size

/-- A round of the loop in `splitBuddy`. -/
def splitRound (size block : U64) : Buddy (U64 ⊕ U64) := do
  let m ← get
  if size * 2 < (readBuddy m block).size then
    let halfSize := (readBuddy m block).size >>> 1
    let m := putSize m block halfSize
    let buddy := nextBuddy m block
    set (putFree (putSize m buddy halfSize) buddy true)
    return .inl buddy
  else
    return .inr block

/-- `splitBuddy`; the null pointer is zero. -/
def splitBuddy (rounds : Nat) (block size : U64) : Buddy U64 := do
  if size = 0 then
    throw .assertion
  else if block = 0 then
    return 0
  else
    let block ← loop .outOfFuel (splitRound size) rounds block
    let m ← get
    if size ≤ (readBuddy m block).size then return block else return 0

/-- The variables of the loop in `findBestBuddy`. -/
structure BuddySearch where
  block : U64
  buddy : U64
  bestBlock : U64

/-- The pair that starts behind `buddy`; `buddy` stays when there is no block. -/
def nextPair (m : U64 → U8) (tail buddy : U64) : U64 × U64 :=
  let block := nextBuddy m buddy
  (block, if block < tail then nextBuddy m block else buddy)

/-- `bestBlock` after a look at a block. -/
def betterBlock (m : U64 → U8) (size block bestBlock : U64) : U64 :=
  let b := readBuddy m block
  if b.isFree ∧ size ≤ b.size ∧ (bestBlock = 0 ∨ b.size < (readBuddy m bestBlock).size) then block
  else bestBlock

/-- `bestBlock` after a pair was merged to a block. -/
def betterMerged (m : U64 → U8) (size block bestBlock : U64) : U64 :=
  let b := readBuddy m block
  if size ≤ b.size ∧ (bestBlock = 0 ∨ b.size ≤ (readBuddy m bestBlock).size) then block
  else bestBlock

/-- A round of the loop in `findBestBuddy`. -/
def searchRound (tail size : U64) (s : BuddySearch) : Buddy (BuddySearch ⊕ U64) := do
  let m ← get
  let block := readBuddy m s.block
  let buddy := readBuddy m s.buddy
  if s.block < tail ∧ s.buddy < tail then
    if block.isFree ∧ buddy.isFree ∧ block.size = buddy.size then
      let m := putSize m s.block (block.size <<< 1)
      set m
      let (block, buddy) := nextPair m tail s.buddy
      return .inl ⟨block, buddy, betterMerged m size s.block s.bestBlock⟩
    else
      let bestBlock := betterBlock m size s.buddy (betterBlock m size s.block s.bestBlock)
      if block.size < buddy.size then
        let (block, buddy) := nextPair m tail s.buddy
        return .inl ⟨block, buddy, bestBlock⟩
      else
        return .inl ⟨s.buddy, nextBuddy m s.buddy, bestBlock⟩
  else
    return .inr s.bestBlock

/-- `findBestBuddy`. -/
def findBestBuddy (rounds : Nat) (head tail size : U64) : Buddy U64 := do
  let m ← get
  let buddy := nextBuddy m head
  if size = 0 then
    throw .assertion
  else if buddy = tail ∧ (readBuddy m head).isFree then
    splitBuddy rounds head size
  else
    let bestBlock ← loop .outOfFuel (searchRound tail size) rounds ⟨head, buddy, 0⟩
    if bestBlock ≠ 0 then splitBuddy rounds bestBlock size else return 0

/-- The variables of the inner loop in `coalesceBuddies`. -/
structure BuddyPass where
  block : U64
  buddy : U64
  noCoalesce : Bool

/-- A round of the inner loop in `coalesceBuddies`. -/
def coalesceRound (tail : U64) (s : BuddyPass) : Buddy (BuddyPass ⊕ Bool) := do
  let m ← get
  let block := readBuddy m s.block
  let buddy := readBuddy m s.buddy
  if s.block < tail ∧ s.buddy < tail then
    if block.size < buddy.size then
      let (block, buddy) := nextPair m tail s.buddy
      return .inl ⟨block, buddy, s.noCoalesce⟩
    else if buddy.size < block.size then
      return .inl ⟨s.buddy, nextBuddy m s.buddy, s.noCoalesce⟩
    else if block.isFree ∧ buddy.isFree then
      let m := putSize m s.block (block.size <<< 1)
      set m
      let next := nextBuddy m s.block
      if next < tail then return .inl ⟨next, nextBuddy m next, false⟩
      else return .inl ⟨next, s.buddy, s.noCoalesce⟩
    else
      let (block, buddy) := nextPair m tail s.buddy
      return .inl ⟨block, buddy, s.noCoalesce⟩
  else
    return .inr s.noCoalesce

/-- A round of the outer loop in `coalesceBuddies`. -/
def coalescePass (rounds : Nat) (head tail : U64) : Buddy (Unit ⊕ Unit) := do
  let m ← get
  let noCoalesce ← loop .outOfFuel (coalesceRound tail) rounds ⟨head, nextBuddy m head, true⟩
  if noCoalesce then return .inr () else return .inl ()

/-- `coalesceBuddies`. -/
def coalesceBuddies (rounds : Nat) (head tail : U64) : Buddy Unit :=
  loop .outOfFuel (fun _ => coalescePass rounds head tail) rounds ()

/-- `createBuddyAllocator`, where a failed assertion ends the program. -/
def createBuddyAllocator (m : U64 → U8) (data size : U64) :
    Option ((U64 → U8) × BuddyAllocator) :=
  if 0 < size ∧ size &&& (size - 1) = 0 ∧ buddyBlockBytes < size then
    let m := putFree (putSize m data size) data true
    some (m, ⟨data, nextBuddy m data⟩)
  else none

/-- How a call of `buddyAlloc` ends. -/
inductive BuddyResult where
  /-- The null pointer was returned. -/
  | nullptr
  /-- Control went to `jmp_buf`. -/
  | longjmp
  /-- A payload was returned. -/
  | payload (p : U64)
  deriving DecidableEq, Repr

/-- The two searches of `buddyAlloc`. -/
def findBuddy (rounds : Nat) (a : BuddyAllocator) (totalSize : U64) : Buddy U64 := do
  let found ← findBestBuddy rounds a.head a.tail totalSize
  if found = 0 then
    coalesceBuddies rounds a.head a.tail
    findBestBuddy rounds a.head a.tail totalSize
  else
    return found

/-- `buddyAlloc`; its `ASSERT(false)` stops a debug build where the result is not a payload. -/
def buddyAlloc (rounds : Nat) (a : BuddyAllocator) (size count : I64) (flags : U8) :
    Buddy BuddyResult := do
  if (0 : I64).slt size then
    let total := size * count
    let found ← findBuddy rounds a (total + buddyBlockBytes)
    if found ≠ 0 then
      let result := found + buddyBlockBytes
      let zeros := if flags &&& zeroMemory ≠ 0 then List.replicate total.toNat 0 else []
      modify fun m => storeBytes (putFree m found false) result zeros
      return .payload result
    else if flags &&& nullptrOnFail ≠ 0 then return .nullptr
    else return .longjmp
  else
    throw .assertion

/-- `freeBuddy`. -/
def freeBuddy (rounds : Nat) (a : BuddyAllocator) (data : U64) : Buddy Unit := do
  if a.head ≤ data ∧ data < a.tail then
    modify fun m => putFree m (data - buddyBlockBytes) true
    coalesceBuddies rounds a.head a.tail
  else
    throw .assertion

end Homegrown
