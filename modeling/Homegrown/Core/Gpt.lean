import Homegrown.Core.Fat32

/-!
# Finding a partition of a disk

Firmware finds a partition by its type: the header in the second block of a disk says where the
table of the partitions is, and an entry of the table says which blocks a partition has
(`find_of_entry`).
-/

namespace Homegrown.Gpt

open Fat32

/-- A partition, by its type and its first and last block. -/
structure Partition where
  typeGUID : List (BitVec 8)
  firstBlock : Nat
  lastBlock : Nat
  deriving DecidableEq, Repr

/-- The partition of an entry. -/
def Partition.read (bytes : Nat → BitVec 8) (address : Nat) : Partition where
  typeGUID := slice bytes address 16
  firstBlock := number bytes (address + 32) 8
  lastBlock := number bytes (address + 40) 8

/-- `EFI PART`. -/
def signature : List (BitVec 8) := [0x45, 0x46, 0x49, 0x20, 0x50, 0x41, 0x52, 0x54]

section Table

variable (bytes : Nat → BitVec 8) (blockSize : Nat)

/-- Where the table is. -/
def tableAddress : Nat := number bytes (blockSize + 72) 8 * blockSize

/-- The number of entries. -/
def numberOfEntries : Nat := number bytes (blockSize + 80) 4

/-- The bytes of an entry. -/
def sizeOfEntry : Nat := number bytes (blockSize + 84) 4

/-- An entry of the table. -/
def entry (i : Nat) : Partition :=
  Partition.read bytes (tableAddress bytes blockSize + i * sizeOfEntry bytes blockSize)

/-- The first partition of a type. -/
def find (typeGUID : List (BitVec 8)) : Option Partition :=
  if slice bytes blockSize 8 = signature then
    ((List.range (numberOfEntries bytes blockSize)).map (entry bytes blockSize)).find?
      fun p => p.typeGUID = typeGUID
  else none

/-- The partitions: an entry whose type is zero has none. -/
def partitions : List Partition :=
  if slice bytes blockSize 8 = signature then
    ((List.range (numberOfEntries bytes blockSize)).map (entry bytes blockSize)).filter
      fun p => p.typeGUID ≠ List.replicate 16 0
  else []

end Table

section Find

variable {bytes : Nat → BitVec 8} {blockSize i : Nat} {typeGUID : List (BitVec 8)}

/-- The entry that is found is the first one of its type. -/
theorem find_of_entry (hsignature : slice bytes blockSize 8 = signature)
    (hi : i < numberOfEntries bytes blockSize)
    (htype : (entry bytes blockSize i).typeGUID = typeGUID)
    (hfirst : ∀ j < i, (entry bytes blockSize j).typeGUID ≠ typeGUID) :
    find bytes blockSize typeGUID = some (entry bytes blockSize i) := by
  have hindex : (List.range (numberOfEntries bytes blockSize)).find?
      ((fun p => decide (p.typeGUID = typeGUID)) ∘ entry bytes blockSize) = some i := by
    rw [List.find?_range_eq_some]
    exact ⟨decide_eq_true htype, List.mem_range.mpr hi, fun j hj => by simpa using hfirst j hj⟩
  rw [find, if_pos hsignature, List.find?_map, hindex]
  rfl

end Find

end Homegrown.Gpt
