import Homegrown.Shared.Maths

/-!
# Text

Strings are lists of bytes. `U64ToString` writes the decimal digits of a number from the
last to the first.
-/

namespace Homegrown

/-- `string`: bytes whose number is a 64-bit one. -/
structure ByteString where
  buf : List U8
  length_lt : buf.length < 2 ^ 64
  deriving DecidableEq

namespace ByteString

/-- The field `len`. -/
def len (s : ByteString) : U64 := BitVec.ofNat 64 s.buf.length

@[simp] theorem toNat_len (s : ByteString) : s.len.toNat = s.buf.length := by
  rw [len, BitVec.toNat_ofNat, Nat.mod_eq_of_lt s.length_lt]

theorem buf_injective : Function.Injective buf := by
  rintro ⟨a, _⟩ ⟨b, _⟩ (rfl : a = b)
  rfl

/-- Zero bytes. -/
def zeros (bytes : U64) : ByteString where
  buf := List.replicate bytes.toNat 0
  length_lt := by
    rw [List.length_replicate]
    exact bytes.isLt

end ByteString

/-- The bytes of a literal. -/
def text (s : String) : List U8 := s.toList.map fun c => BitVec.ofNat 8 c.toNat

/-- The loop of `U64ToString`, with the digits written so far. -/
def U64ToString.digits : Nat → U64 → List U8 → List U8
  | 0, _, beg => beg
  | rounds + 1, data, beg =>
    let beg := (0x30 + (data % 10).setWidth 8) :: beg
    if data / 10 = 0 then beg else digits rounds (data / 10) beg

/-- `U64ToString`. A 64-bit number has at most 20 digits. -/
def U64ToString (data : U64) : List U8 := U64ToString.digits 20 data []

theorem U64ToString.length_digits (rounds : Nat) (data : U64) (beg : List U8) :
    beg.length < (digits (rounds + 1) data beg).length ∧
      (digits (rounds + 1) data beg).length ≤ beg.length + (rounds + 1) := by
  induction rounds generalizing data beg with
  | zero =>
    rw [digits]
    split <;> simp [digits]
  | succ rounds ih =>
    rw [digits]
    split
    · simp
    · have hnext := ih (data / 10) ((0x30 + (data % 10).setWidth 8) :: beg)
      rw [List.length_cons] at hnext
      omega

/-- The loop that reads a decimal number, a byte at a time. -/
def decimalValue (bytes : List U8) : U64 :=
  bytes.foldl (fun value byte => value * 10 + (byte.setWidth 64 - 0x30)) 0

/-- The digit that is written is the digit that is read. -/
theorem U64ToString.digit_value (data : U64) :
    data / 10 * 10 + ((0x30 + (data % 10).setWidth 8 : U8).setWidth 64 - 0x30) = data := by
  have hmod := Nat.mod_lt data.toNat (show 0 < 10 by decide)
  have hdigit : ((0x30 + (data % 10).setWidth 8 : U8).setWidth 64 - 0x30 : U64) = data % 10 := by
    apply BitVec.eq_of_toNat_eq
    simp only [BitVec.toNat_sub, BitVec.toNat_setWidth, BitVec.toNat_add, BitVec.toNat_umod,
      BitVec.ofNat_eq_ofNat, BitVec.toNat_ofNat, Nat.reducePow, Nat.reduceMod]
    omega
  rw [hdigit]
  apply BitVec.eq_of_toNat_eq
  have hlt := data.isLt
  simp only [BitVec.toNat_add, BitVec.toNat_mul, BitVec.toNat_udiv, BitVec.toNat_umod,
    BitVec.ofNat_eq_ofNat, BitVec.toNat_ofNat, Nat.reducePow, Nat.reduceMod]
  omega

/-- Reading what the loop wrote, and what was there before. -/
theorem U64ToString.foldl_digits {rounds : Nat} {data : U64} (h : data.toNat < 10 ^ rounds)
    (hrounds : 1 ≤ rounds) (beg : List U8) :
    (digits rounds data beg).foldl (fun value byte => value * 10 + (byte.setWidth 64 - 0x30)) 0 =
      beg.foldl (fun value byte => value * 10 + (byte.setWidth 64 - 0x30)) data := by
  induction rounds generalizing data beg with
  | zero => omega
  | succ rounds ih =>
    rw [digits]
    split
    · rename_i hlast
      have hvalue := digit_value data
      rw [hlast] at hvalue
      rw [List.foldl_cons, hvalue]
    · rename_i hmore
      have hnext : (data / 10).toNat < 10 ^ rounds := by
        rw [BitVec.toNat_udiv, show (10 : U64).toNat = 10 from rfl]
        rw [pow_succ] at h
        omega
      have hrounds' : 1 ≤ rounds := by
        rw [Nat.one_le_iff_ne_zero]
        rintro rfl
        apply hmore
        apply BitVec.eq_of_toNat_eq
        rw [pow_zero] at hnext
        exact Nat.lt_one_iff.mp hnext
      rw [ih hnext hrounds', List.foldl_cons, digit_value]

/-- The loop writes digits only. -/
theorem U64ToString.mem_digits {rounds : Nat} {data : U64} {beg : List U8} {byte : U8}
    (h : byte ∈ digits rounds data beg) : byte ∈ beg ∨ 0x30 ≤ byte ∧ byte ≤ 0x39 := by
  induction rounds generalizing data beg with
  | zero => exact .inl h
  | succ rounds ih =>
    have hmod := Nat.mod_lt data.toNat (show 0 < 10 by decide)
    have hdigit : (0x30 : U8) ≤ 0x30 + (data % 10).setWidth 8 ∧
        (0x30 : U8) + (data % 10).setWidth 8 ≤ 0x39 := by
      simp only [BitVec.le_def, BitVec.toNat_setWidth, BitVec.toNat_add, BitVec.toNat_umod,
        BitVec.ofNat_eq_ofNat, BitVec.toNat_ofNat, Nat.reducePow, Nat.reduceMod]
      omega
    have hcons (h : byte ∈ (0x30 + (data % 10).setWidth 8 : U8) :: beg) :
        byte ∈ beg ∨ 0x30 ≤ byte ∧ byte ≤ 0x39 := by
      rcases List.mem_cons.mp h with rfl | h
      · exact .inr hdigit
      · exact .inl h
    rw [digits] at h
    split at h
    · exact hcons h
    · rcases ih h with h | h
      · exact hcons h
      · exact .inr h

/-- The bytes of a number are digits. -/
theorem mem_U64ToString {data : U64} {byte : U8} (h : byte ∈ U64ToString data) :
    0x30 ≤ byte ∧ byte ≤ 0x39 :=
  (U64ToString.mem_digits h).resolve_left List.not_mem_nil

/-- Reading the digits of a number gives the number. -/
theorem decimalValue_U64ToString (data : U64) : decimalValue (U64ToString data) = data := by
  rw [decimalValue, U64ToString, U64ToString.foldl_digits _ (by decide)]
  · rfl
  · exact data.isLt.trans (by norm_num)

/-- A number has between 1 and 20 digits. -/
theorem length_U64ToString (data : U64) :
    0 < (U64ToString data).length ∧ (U64ToString data).length ≤ 20 := by
  simpa [U64ToString] using U64ToString.length_digits 19 data []

end Homegrown
