import Homegrown.Core.Numeral
import Homegrown.Shared.Text.Converter

/-!
# Rendering numbers

`U64ToString` and `I64ToString` fill a buffer from its end, the latter with the remainders of
a number that is not positive, so that the least number needs no negation. `ptrToString`
fills a buffer from its start and returns it without the last digit it wrote. `parseU32` and
`parseU16` read what was rendered.
-/

namespace Homegrown

/-! ## The functions -/

/-- A buffer and the pointer `beg` into it. -/
structure FilledBack where
  buf : List U8
  beg : Nat
  deriving DecidableEq, Repr

/-- `*--beg = byte`. -/
def FilledBack.put (w : FilledBack) (byte : U8) : Option FilledBack :=
  if 0 < w.beg then some ⟨w.buf.set (w.beg - 1) byte, w.beg - 1⟩ else none

/-- `STRING_PTRS(beg, end)`, where `end` is the end of the buffer. -/
def FilledBack.text (w : FilledBack) : List U8 := w.buf.drop w.beg

/-- A pointer to the end of a buffer. -/
def FilledBack.atEnd (tmp : List U8) : FilledBack := ⟨tmp, tmp.length⟩

/-- The loop of `U64ToString`. -/
def putDigits (data : U64) (w : FilledBack) : Option FilledBack := do
  let w ← w.put (0x30 + (data % 10).setWidth 8)
  if h : data / 10 = 0 then return w else putDigits (data / 10) w
termination_by data.toNat
decreasing_by
  have hpos : 0 < (data / 10).toNat := BitVec.toNat_pos_of_ne_zero h
  rw [BitVec.toNat_udiv, show (10 : U64).toNat = 10 from rfl] at hpos ⊢
  exact Nat.div_lt_self (by omega) (by decide)

/-- `U64ToString`, with the buffer that it fills. -/
def U64ToStringIn (data : U64) (tmp : List U8) : Option (List U8) := do
  let w ← putDigits data (.atEnd tmp)
  return w.text

/-- A quotient that is not zero is closer to zero. -/
theorem natAbs_sdiv_lt {t : I64} (h : t.sdiv 10 ≠ 0) :
    (t.sdiv 10).toInt.natAbs < t.toInt.natAbs := by
  have hdiv : (t.sdiv 10).toInt = t.toInt.tdiv 10 := by
    rw [BitVec.toInt_sdiv_of_ne_or_ne _ _ (.inr (by decide))]
    rfl
  have hne : (t.sdiv 10).toInt ≠ (0 : I64).toInt := mt BitVec.eq_of_toInt_eq h
  rw [hdiv, Int.natAbs_tdiv]
  have hpos : 0 < t.toInt.natAbs := by
    rw [Int.natAbs_pos]
    intro h0
    rw [hdiv, h0] at hne
    exact hne (Int.zero_tdiv 10)
  exact Nat.div_lt_self hpos (by decide)

/-- The loop of `I64ToString`. -/
def putDigitsOfNegative (t : I64) (w : FilledBack) : Option FilledBack := do
  let w ← w.put (0x30 - (t.srem 10).setWidth 8)
  if h : t.sdiv 10 = 0 then return w else putDigitsOfNegative (t.sdiv 10) w
termination_by t.toInt.natAbs
decreasing_by exact natAbs_sdiv_lt h

/-- The negation of a number, which overflows for the least one. -/
def negI64 (data : I64) : Option I64 := if data = BitVec.intMin 64 then none else some (-data)

/-- The variable `t` of `I64ToString`. -/
def notPositive (data : I64) : Option I64 := if (0 : I64).slt data then negI64 data else some data

/-- `I64ToString`. -/
def I64ToString (data : I64) (tmp : List U8) : Option (List U8) := do
  let t ← notPositive data
  let w ← putDigitsOfNegative t (.atEnd tmp)
  if data.slt 0 then
    let w ← w.put 0x2D
    return w.text
  else
    return w.text

/-- `hexString`. -/
def hexString : List U8 := text "0123456789ABCDEF"

/-- A buffer and the variable `counter` of `ptrToString`. -/
structure FilledForth where
  buf : List U8
  counter : U64
  deriving DecidableEq, Repr

/-- `tmp.buf[counter++] = byte`. -/
def FilledForth.put (w : FilledForth) (byte : U8) : Option FilledForth :=
  if w.counter.toNat < w.buf.length then
    some ⟨w.buf.set w.counter.toNat byte, w.counter + 1⟩
  else none

/-- The loop of `ptrToString`, for the digits that are left. -/
def putHexDigits (u : U64) : Nat → FilledForth → Option FilledForth
  | 0, w => some w
  | i + 1, w => do
    let w ← w.put (hexString.getD ((u >>> (4 * i)) &&& 15).toNat 0)
    putHexDigits u i w

/-- `ptrToString`. -/
def ptrToString (data : U64) (tmp : List U8) : Option (List U8) := do
  let w ← (FilledForth.mk tmp 0).put 0x30
  let w ← w.put 0x78
  let w ← putHexDigits data 16 w
  return w.buf.take (w.counter - 1).toNat

/-- `parseU32` and `parseU16`, for numbers of any width. -/
def parseDigits {w : Nat} (value : List U8) (base : U8) : BitVec w :=
  value.foldl (fun result byte => result * base.setWidth w + (byte - 0x30).setWidth w) 0

/-- `parseU32`. -/
def parseU32 (value : List U8) (base : U8) : U32 := parseDigits value base

/-- `parseU16`. -/
def parseU16 (value : List U8) (base : U8) : U16 := parseDigits value base

/-! ## Digits -/

/-- The byte of a decimal digit. -/
def decimalDigit (d : Nat) : U8 := BitVec.ofNat 8 (0x30 + d)

/-- The text is the decimal numeral of the number. -/
def IsDecimal (s : List U8) (n : Nat) : Prop := ∃ ds, IsNumeral 10 ds n ∧ s = ds.map decimalDigit

/-- The decimal numeral of a number. -/
def decimal (n : Nat) : List U8 := (numeral 10 n).map decimalDigit

/-- The byte of a hexadecimal digit. -/
def hexDigit (d : Nat) : U8 := hexString.getD d 0

/-- The text is `0x` and the sixteen hexadecimal digits of the number. -/
def IsPointerText (s : List U8) (n : Nat) : Prop :=
  ∃ ds : List Nat, ds.length = 16 ∧ (∀ d ∈ ds, d < 16) ∧ numeralValue 16 ds = n ∧
    s = text "0x" ++ ds.map hexDigit

section Digits

variable {n : Nat} {s : List U8}

theorem isDecimal_decimal (n : Nat) : IsDecimal (decimal n) n :=
  ⟨numeral 10 n, isNumeral_numeral (by decide) n, rfl⟩

/-- The decimal numeral is unique. -/
theorem IsDecimal.eq_decimal (h : IsDecimal s n) : s = decimal n := by
  obtain ⟨ds, hds, rfl⟩ := h
  rw [decimal, hds.eq_numeral (by decide)]

theorem decimal_of_lt (h : n < 10) : decimal n = [decimalDigit n] := by
  rw [decimal, numeral_of_lt h]
  rfl

theorem decimal_of_le (h : 10 ≤ n) : decimal n = decimal (n / 10) ++ [decimalDigit (n % 10)] := by
  rw [decimal, numeral_of_le (by decide) h, List.map_append]
  rfl

/-- The byte that is written for the last digit. -/
theorem decimalDigit_eq (data : U64) :
    (0x30 + (data % 10).setWidth 8 : U8) = decimalDigit (data.toNat % 10) := by
  apply BitVec.eq_of_toNat_eq
  simp only [decimalDigit, BitVec.toNat_add, BitVec.toNat_setWidth, BitVec.toNat_umod,
    BitVec.toNat_ofNat, BitVec.ofNat_eq_ofNat, Nat.reducePow, Nat.reduceMod]
  omega

/-- A word is a digit, or has a quotient. -/
theorem div_ten_cases (data : U64) :
    data.toNat < 10 ∧ data / 10 = 0 ∨
      10 ≤ data.toNat ∧ data / 10 ≠ 0 ∧ (data / 10).toNat = data.toNat / 10 := by
  have hquot : (data / 10).toNat = data.toNat / 10 := BitVec.toNat_udiv
  by_cases hlast : data.toNat < 10
  · refine .inl ⟨hlast, BitVec.eq_of_toNat_eq ?_⟩
    rw [hquot]
    exact Nat.div_eq_of_lt hlast
  · refine .inr ⟨not_lt.mp hlast, fun h0 => ?_, hquot⟩
    rw [h0] at hquot
    exact (Nat.div_pos (not_lt.mp hlast) (by decide)).ne hquot

theorem length_decimal_le {k : Nat} (hk : 0 < k) (h : n < 10 ^ k) : (decimal n).length ≤ k := by
  rw [decimal, List.length_map]
  exact length_numeral_le (by decide) hk h

end Digits

/-! ## Filling from the end -/

section Back

variable {w w' : FilledBack} {byte : U8}

theorem FilledBack.text_atEnd (tmp : List U8) : (FilledBack.atEnd tmp).text = [] :=
  List.drop_length

/-- A byte before the text. -/
theorem FilledBack.put_of_pos (h : 0 < w.beg) (hle : w.beg ≤ w.buf.length) (byte : U8) :
    ∃ w', w.put byte = some w' ∧ w'.text = byte :: w.text ∧ w'.beg = w.beg - 1 ∧
      w'.beg ≤ w'.buf.length := by
  refine ⟨_, if_pos h, ?_, rfl, ?_⟩
  · have hlt : w.beg - 1 < (w.buf.set (w.beg - 1) byte).length := by
      rw [List.length_set]
      omega
    simp only [FilledBack.text]
    rw [List.drop_eq_getElem_cons hlt, List.getElem_set_self, Nat.sub_add_cancel h,
      List.drop_set_of_lt (by omega)]
  · dsimp only
    rw [List.length_set]
    omega

/-- The last round of a loop. -/
theorem putDigits_of_last {data : U64} (h : data / 10 = 0) :
    putDigits data w = w.put (0x30 + (data % 10).setWidth 8) := by
  rw [putDigits]
  simp only [dif_pos h]
  exact bind_pure _

theorem putDigits_of_more {data : U64} (h : data / 10 ≠ 0) :
    putDigits data w = (w.put (0x30 + (data % 10).setWidth 8)).bind (putDigits (data / 10)) := by
  rw [putDigits]
  simp only [dif_neg h]
  rfl

/-- The digits of a number, before the text. -/
theorem putDigits_returns (data : U64) (hroom : (decimal data.toNat).length ≤ w.beg)
    (hle : w.beg ≤ w.buf.length) :
    ∃ w', putDigits data w = some w' ∧ w'.text = decimal data.toNat ++ w.text ∧
      w'.beg = w.beg - (decimal data.toNat).length ∧ w'.beg ≤ w'.buf.length := by
  induction hn : data.toNat using Nat.strong_induction_on generalizing data w with
  | _ n ih =>
    subst hn
    have hdigit := decimalDigit_eq data
    rcases div_ten_cases data with ⟨hlast, hzero⟩ | ⟨hmore, hne, hquot⟩
    · rw [decimal_of_lt hlast] at hroom ⊢
      obtain ⟨w', hput, htext, hbeg, hle'⟩ := w.put_of_pos hroom hle (decimalDigit data.toNat)
      refine ⟨w', ?_, htext, hbeg, hle'⟩
      rw [putDigits_of_last hzero, hdigit, Nat.mod_eq_of_lt hlast, hput]
    · rw [decimal_of_le hmore, List.length_append, List.length_singleton] at hroom
      obtain ⟨w', hput, htext, hbeg, hle'⟩ :=
        w.put_of_pos (by omega) hle (decimalDigit (data.toNat % 10))
      obtain ⟨w'', hrest, htext', hbeg', hle''⟩ := ih _ (by omega) (data / 10) (w := w')
        (by rw [hquot, hbeg]; omega) hle' hquot
      refine ⟨w'', ?_, ?_, ?_, hle''⟩
      · rw [putDigits_of_more hne, hdigit, hput]
        exact hrest
      · rw [htext', htext, decimal_of_le hmore, List.append_assoc]
        rfl
      · rw [hbeg', hbeg, decimal_of_le hmore, List.length_append, List.length_singleton]
        omega

/-- The remainders and quotients of a number that is not positive. -/
theorem srem_sdiv_neg {u : U64} (h : u.toNat ≤ 2 ^ 63) :
    (-u).srem 10 = -(u % 10) ∧ (-u).sdiv 10 = -(u / 10) := by
  by_cases h0 : u = 0
  · subst h0
    decide
  · have hpos : 0 < u.toNat := BitVec.toNat_pos_of_ne_zero h0
    have hmsb : (-u).msb = true := by
      rw [BitVec.msb_eq_decide, decide_eq_true_iff, BitVec.toNat_neg]
      omega
    have hten : (10 : U64).msb = false := by decide
    rw [BitVec.srem_eq, BitVec.sdiv_eq, hmsb, hten, BitVec.neg_neg]
    exact ⟨rfl, rfl⟩

/-- The loop on a number that is not positive writes the digits of its absolute value. -/
theorem putDigitsOfNegative_eq (u : U64) (h : u.toNat ≤ 2 ^ 63) (w : FilledBack) :
    putDigitsOfNegative (-u) w = putDigits u w := by
  induction hn : u.toNat using Nat.strong_induction_on generalizing u w with
  | _ n ih =>
    subst hn
    obtain ⟨hrem, hdiv⟩ := srem_sdiv_neg h
    have hquot : (u / 10).toNat = u.toNat / 10 := BitVec.toNat_udiv
    have hdigit : (0x30 - (-(u % 10)).setWidth 8 : U8) = 0x30 + (u % 10).setWidth 8 := by
      rw [BitVec.setWidth_neg_of_le (by decide), BitVec.sub_eq_add_neg, BitVec.neg_neg]
    by_cases hzero : u / 10 = 0
    · have hlast : (-u).sdiv 10 = 0 := by
        rw [hdiv, hzero]
        rfl
      rw [putDigits_of_last hzero, putDigitsOfNegative, hrem, hdigit]
      simp only [dif_pos hlast]
      exact bind_pure _
    · have hmore : -(u / 10) ≠ 0 := fun h0 => hzero (BitVec.neg_eq_zero_iff.mp h0)
      have hpos : 0 < (u / 10).toNat := BitVec.toNat_pos_of_ne_zero hzero
      rw [putDigits_of_more hzero, putDigitsOfNegative, hrem, hdigit]
      simp only [hdiv, dif_neg hmore]
      congr 1
      ext1 w'
      exact ih _ (by omega) (u / 10) (by omega) w' rfl

/-- The whole text of a number. -/
theorem U64ToStringIn_eq (data : U64) {tmp : List U8} (hroom : 20 ≤ tmp.length) :
    U64ToStringIn data tmp = some (decimal data.toNat) := by
  have hlen : (decimal data.toNat).length ≤ 20 :=
    length_decimal_le (by decide) (data.isLt.trans (by norm_num))
  obtain ⟨w, hw, htext, -⟩ := putDigits_returns data (w := .atEnd tmp) (hlen.trans hroom) le_rfl
  rw [FilledBack.text_atEnd, List.append_nil] at htext
  rw [U64ToStringIn, hw, ← htext]
  rfl

/-- What the loop starts with is the negation of the absolute value. -/
theorem notPositive_eq (data : I64) :
    ∃ u : U64, u.toNat = data.toInt.natAbs ∧ notPositive data = some (-u) := by
  have htoInt := BitVec.toInt_eq_toNat_cond data
  have hlt := data.isLt
  have hzero : (0 : I64).toInt = 0 := rfl
  unfold notPositive
  by_cases hpos : (0 : I64).slt data = true
  · rw [if_pos hpos]
    rw [BitVec.slt_iff_toInt_lt, hzero] at hpos
    refine ⟨data, ?_, ?_⟩
    · split at htoInt <;> omega
    · rw [negI64, if_neg]
      rintro rfl
      revert hpos
      decide
  · rw [if_neg hpos]
    rw [BitVec.slt_iff_toInt_lt, hzero] at hpos
    refine ⟨-data, ?_, by rw [BitVec.neg_neg]⟩
    rw [BitVec.toNat_neg]
    split at htoInt <;> omega

/-- The sign, and the digits of the absolute value. -/
theorem I64ToString_eq (data : I64) {tmp : List U8} (hroom : 20 ≤ tmp.length) :
    I64ToString data tmp =
      some ((if data.toInt < 0 then [0x2D] else []) ++ decimal data.toInt.natAbs) := by
  have habs : data.toInt.natAbs ≤ 2 ^ 63 := by
    have hle := data.le_toInt
    have hlt := data.toInt_lt
    simp only [Nat.reduceSub] at hle hlt
    omega
  have hlen : (decimal data.toInt.natAbs).length ≤ 19 :=
    length_decimal_le (by decide) (habs.trans_lt (by norm_num))
  obtain ⟨u, hu, ht⟩ := notPositive_eq data
  obtain ⟨w, hw, htext, hbeg, hle⟩ := putDigits_returns u (w := .atEnd tmp)
    (by rw [hu]; exact hlen.trans ((show 19 ≤ 20 by decide).trans hroom)) le_rfl
  rw [FilledBack.text_atEnd, List.append_nil, hu] at htext
  rw [I64ToString, ht]
  have hloop := putDigitsOfNegative_eq u (by rw [hu]; exact habs) (.atEnd tmp)
  simp only [Option.bind_eq_bind, Option.bind_some, hloop, hw]
  rw [hu, show (FilledBack.atEnd tmp).beg = tmp.length from rfl] at hbeg
  by_cases hneg : data.slt 0 = true
  · obtain ⟨w', hput, htext', -⟩ := w.put_of_pos (by rw [hbeg]; omega) hle 0x2D
    have hlt : data.toInt < 0 := BitVec.slt_iff_toInt_lt.mp hneg
    rw [if_pos hneg, if_pos hlt, hput, ← htext, List.singleton_append, ← htext']
    rfl
  · have hge : ¬ data.toInt < 0 := fun hlt => hneg (BitVec.slt_iff_toInt_lt.mpr hlt)
    rw [if_neg hneg, if_neg hge, htext]
    rfl

end Back

/-! ## Reading -/

section Parse

variable {w : Nat}

/-- Reading digits gives the value of the numeral, as a word. -/
theorem parseDigits_map (ds : List Nat) (h : ∀ d ∈ ds, d < 10) :
    (parseDigits (ds.map decimalDigit) 10 : BitVec w) = BitVec.ofNat w (numeralValue 10 ds) := by
  induction ds using List.reverseRecOn with
  | nil => rfl
  | append_singleton ds d ih =>
    have hd : d < 10 := h d (by simp)
    have hdigit : decimalDigit d - 0x30 = BitVec.ofNat 8 d := by
      apply BitVec.eq_of_toNat_eq
      simp only [decimalDigit, BitVec.toNat_sub, BitVec.toNat_ofNat, BitVec.ofNat_eq_ofNat,
        Nat.reducePow, Nat.reduceMod]
      omega
    have hfold := ih fun d' hd' => h d' (List.mem_append_left _ hd')
    rw [parseDigits] at hfold ⊢
    rw [List.map_append, List.map_singleton, List.foldl_append, hfold, List.foldl_cons,
      List.foldl_nil, hdigit, numeralValue_concat]
    apply BitVec.eq_of_toNat_eq
    simp only [BitVec.toNat_add, BitVec.toNat_mul, BitVec.toNat_setWidth, BitVec.toNat_ofNat,
      BitVec.ofNat_eq_ofNat, Nat.reducePow, Nat.reduceMod, Nat.mod_eq_of_lt (show d < 256 by omega)]
    rw [← Nat.mul_mod, Nat.mul_comm, ← Nat.add_mod, Nat.add_comm]

/-- Reading a decimal numeral gives the number, if it is a word. -/
theorem parseDigits_decimal {n : Nat} (h : n < 2 ^ w) :
    (parseDigits (decimal n) 10 : BitVec w).toNat = n := by
  have hnumeral := isNumeral_numeral (b := 10) (by decide) n
  rw [decimal, parseDigits_map _ hnumeral.lt_base, hnumeral.value, BitVec.toNat_ofNat,
    Nat.mod_eq_of_lt h]

/-- The two loops over digits agree, so both models of `U64ToString` do. -/
theorem U64ToString.digits_eq {rounds : Nat} {data : U64} (h : data.toNat < 10 ^ rounds)
    (hrounds : 0 < rounds) (beg : List U8) :
    digits rounds data beg = decimal data.toNat ++ beg := by
  induction rounds generalizing data beg with
  | zero => omega
  | succ rounds ih =>
    rw [digits, decimalDigit_eq]
    rcases div_ten_cases data with ⟨hlast, hzero⟩ | ⟨hmore, hne, hquot⟩
    · rw [if_pos hzero, decimal_of_lt hlast, Nat.mod_eq_of_lt hlast]
      rfl
    · have hnext : (data / 10).toNat < 10 ^ rounds := by
        rw [hquot]
        rw [pow_succ] at h
        omega
      have hrounds' : 0 < rounds := by
        rw [Nat.pos_iff_ne_zero]
        rintro rfl
        rw [hquot, pow_zero] at hnext
        omega
      rw [if_neg hne, ih hnext hrounds', hquot, decimal_of_le hmore, List.append_assoc]
      rfl

/-- The text of a number. -/
theorem U64ToString_eq (data : U64) : U64ToString data = decimal data.toNat := by
  rw [U64ToString, U64ToString.digits_eq (data.isLt.trans (by norm_num)) (by decide),
    List.append_nil]

end Parse

/-- Decimal text is exact, and is read back. -/
theorem decimal_rendering_exact (tmp : List U8) (hroom : 20 ≤ tmp.length) :
    (∀ n : U64, ∃ s, U64ToStringIn n tmp = some s ∧ IsDecimal s n.toNat ∧
      ∀ s', IsDecimal s' n.toNat → s' = s) ∧
    (∀ d : I64, ∃ s, I64ToString d tmp = some ((if d.toInt < 0 then [0x2D] else []) ++ s) ∧
      IsDecimal s d.toInt.natAbs ∧ ∀ s', IsDecimal s' d.toInt.natAbs → s' = s) ∧
    (∀ n : U64, n.toNat < 2 ^ 32 → ∃ s, U64ToStringIn n tmp = some s ∧
      (parseU32 s 10).toNat = n.toNat) ∧
    (∀ n : U64, n.toNat < 2 ^ 16 → ∃ s, U64ToStringIn n tmp = some s ∧
      (parseU16 s 10).toNat = n.toNat) := by
  refine ⟨fun n => ?_, fun d => ?_, fun n h => ?_, fun n h => ?_⟩
  · exact ⟨decimal n.toNat, U64ToStringIn_eq n hroom, isDecimal_decimal _, fun s' h => h.eq_decimal⟩
  · exact ⟨decimal d.toInt.natAbs, I64ToString_eq d hroom, isDecimal_decimal _,
      fun s' h => h.eq_decimal⟩
  · exact ⟨decimal n.toNat, U64ToStringIn_eq n hroom, parseDigits_decimal h⟩
  · exact ⟨decimal n.toNat, U64ToStringIn_eq n hroom, parseDigits_decimal h⟩

/-- A buffer of 20 bytes. -/
theorem decimal_rendering_exact_twenty :
    ∃ s, I64ToString (BitVec.intMin 64) (List.replicate 20 0) = some ([0x2D] ++ s) ∧
      IsDecimal s (2 ^ 63) := by
  obtain ⟨s, hs, hdecimal, -⟩ :=
    (decimal_rendering_exact (List.replicate 20 0) (by decide)).2.1 (BitVec.intMin 64)
  exact ⟨s, hs, hdecimal⟩

/-! ## Pointers -/

section Pointer

variable {w : FilledForth} {u v : U64}

/-- The bytes that were written. -/
def FilledForth.text (w : FilledForth) : List U8 := w.buf.take w.counter.toNat

/-- A byte behind the text. -/
theorem FilledForth.put_of_lt (h : w.counter.toNat < w.buf.length)
    (hcounter : w.counter.toNat + 1 < 2 ^ 64) (byte : U8) :
    ∃ w', w.put byte = some w' ∧ w'.text = w.text ++ [byte] ∧
      w'.counter.toNat = w.counter.toNat + 1 ∧ w'.buf.length = w.buf.length := by
  have hnext : (w.counter + 1).toNat = w.counter.toNat + 1 := by
    rw [BitVec.toNat_add, show (1 : U64).toNat = 1 from rfl, Nat.mod_eq_of_lt hcounter]
  refine ⟨_, if_pos h, ?_, hnext, List.length_set⟩
  have hlt : w.counter.toNat < (w.buf.set w.counter.toNat byte).length := by
    rw [List.length_set]
    exact h
  simp only [FilledForth.text]
  rw [hnext, List.take_add_one, List.getElem?_eq_getElem hlt, List.getElem_set_self,
    List.take_set_of_le le_rfl]
  rfl

theorem toNat_nibble (u : U64) (i : Nat) :
    ((u >>> (4 * i)) &&& 15).toNat = u.toNat / 16 ^ i % 16 := by
  rw [BitVec.toNat_and, BitVec.toNat_ushiftRight, Nat.shiftRight_eq_div_pow, pow_mul,
    show (15 : U64).toNat = 2 ^ 4 - 1 from rfl, Nat.and_two_pow_sub_one_eq_mod]
  norm_num

/-- The loop writes the last digits. -/
theorem putHexDigits_returns (u : U64) (i : Nat) (hroom : w.counter.toNat + i ≤ w.buf.length)
    (hcounter : w.counter.toNat + i < 2 ^ 64) :
    ∃ w', putHexDigits u i w = some w' ∧
      w'.text = w.text ++ (padded 16 u.toNat i).map hexDigit ∧
      w'.counter.toNat = w.counter.toNat + i ∧ w'.buf.length = w.buf.length := by
  induction i generalizing w with
  | zero => exact ⟨w, rfl, (List.append_nil _).symm, rfl, rfl⟩
  | succ i ih =>
    obtain ⟨w₁, hput, htext, hcount, hlen⟩ := w.put_of_lt (by omega) (by omega)
      (hexDigit (u.toNat / 16 ^ i % 16))
    obtain ⟨w₂, hrest, htext', hcount', hlen'⟩ := ih (w := w₁) (by omega) (by omega)
    refine ⟨w₂, ?_, ?_, by omega, hlen'.trans hlen⟩
    · rw [putHexDigits, toNat_nibble]
      change (w.put (hexDigit _)).bind _ = _
      rw [hput]
      exact hrest
    · rw [htext', htext, padded_succ_eq, List.append_assoc]
      rfl

/-- The text that is returned lacks the last digit. -/
theorem ptrToString_eq (u : U64) {tmp : List U8} (hroom : 18 ≤ tmp.length) :
    ptrToString u tmp = some (text "0x" ++ (padded 16 (u.toNat / 16) 15).map hexDigit) := by
  obtain ⟨w₁, hput₁, htext₁, hcount₁, hlen₁⟩ := (FilledForth.mk tmp 0).put_of_lt
    (show 0 < tmp.length by omega) (show 0 + 1 < 2 ^ 64 by decide) 0x30
  change w₁.counter.toNat = 1 at hcount₁
  change w₁.buf.length = tmp.length at hlen₁
  obtain ⟨w₂, hput₂, htext₂, hcount₂, hlen₂⟩ := w₁.put_of_lt (by omega) (by omega) 0x78
  obtain ⟨w₃, hput₃, htext₃, hcount₃, hlen₃⟩ := putHexDigits_returns u 16 (w := w₂) (by omega)
    (by omega)
  rw [hcount₂, hcount₁] at hcount₃
  have hlast : (w₃.counter - 1).toNat = 17 := by
    have hcounter : w₃.counter = 18 := BitVec.eq_of_toNat_eq hcount₃
    rw [hcounter]
    rfl
  have htext : w₃.text = text "0x" ++ (padded 16 (u.toNat / 16) 15).map hexDigit ++
      [hexDigit (u.toNat % 16)] := by
    rw [htext₃, htext₂, htext₁, padded, List.map_append, ← List.append_assoc]
    rfl
  have hbuf : w₃.buf.take 17 = text "0x" ++ (padded 16 (u.toNat / 16) 15).map hexDigit := by
    have htake : w₃.text.take 17 = w₃.buf.take 17 := by
      rw [FilledForth.text, List.take_take, hcount₃, min_eq_left (by decide)]
    rw [← htake, htext]
    apply List.take_left'
    rw [List.length_append, List.length_map, length_padded]
    rfl
  rw [ptrToString, hput₁, Option.bind_eq_bind, Option.bind_some, hput₂, Option.bind_some, hput₃,
    Option.bind_some, hlast, hbuf]
  rfl

theorem idxOf_hexDigit : ∀ d < 16, hexString.idxOf (hexDigit d) = d := by decide

/-- The digits are read back from the bytes. -/
theorem map_hexDigit_inj {ds es : List Nat} (hds : ∀ d ∈ ds, d < 16) (hes : ∀ e ∈ es, e < 16)
    (h : ds.map hexDigit = es.map hexDigit) : ds = es := by
  have hread (l : List Nat) (hl : ∀ d ∈ l, d < 16) :
      (l.map hexDigit).map hexString.idxOf = l := by
    rw [List.map_map]
    exact (List.map_congr_left fun d hd => idxOf_hexDigit d (hl d hd)).trans (List.map_id l)
  rw [← hread ds hds, h, hread es hes]

/-- The same text, for numbers that differ in their last digit at most. -/
theorem ptrToString_eq_iff {tmp : List U8} (hroom : 18 ≤ tmp.length) :
    ptrToString u tmp = ptrToString v tmp ↔ u.toNat / 16 = v.toNat / 16 := by
  rw [ptrToString_eq u hroom, ptrToString_eq v hroom, Option.some.injEq, List.append_cancel_left_eq]
  constructor
  · intro h
    have hpadded := map_hexDigit_inj (fun d hd => lt_of_mem_padded (by decide) hd)
      (fun e he => lt_of_mem_padded (by decide) he) h
    rw [padded_eq_iff] at hpadded
    have hu := u.isLt
    have hv := v.isLt
    omega
  · intro h
    rw [h]

/-- A text of a pointer has eighteen bytes, so none is returned. -/
theorem not_isPointerText_ptrToString {s : List U8} {n : Nat} {tmp : List U8}
    (hroom : 18 ≤ tmp.length) (hs : ptrToString u tmp = some s) : ¬ IsPointerText s n := by
  rintro ⟨ds, hds, -, -, rfl⟩
  rw [ptrToString_eq u hroom, Option.some.injEq] at hs
  have hlength := congrArg List.length hs
  simp [hds] at hlength

/-- `ptrToString` never returns the text of its pointer, and tells two pointers apart when
they differ in more than their last digit. -/
theorem ptrToString_faithful_iff (tmp : List U8) (hroom : 18 ≤ tmp.length) (u v : U64) :
    (∃ s, ptrToString u tmp = some s) ∧
      (∀ s, ptrToString u tmp = some s → ¬ IsPointerText s u.toNat) ∧
      (ptrToString u tmp = ptrToString v tmp ↔ u.toNat / 16 = v.toNat / 16) :=
  ⟨⟨_, ptrToString_eq u hroom⟩, fun _ hs => not_isPointerText_ptrToString hroom hs,
    ptrToString_eq_iff hroom⟩

end Pointer

/-- Two pointers that differ in their last digit. -/
theorem ptrToString_faithful_iff_ten :
    ptrToString 0x10 (List.replicate 18 0) = ptrToString 0x1F (List.replicate 18 0) :=
  (ptrToString_faithful_iff (List.replicate 18 0) (by decide) 0x10 0x1F).2.2.mpr (by decide)

/-- The pointer `0x10` is rendered with fifteen digits, as `0x1F` is. -/
theorem ptrToString_drops_digit :
    ¬ ((∀ (tmp : List U8) (u : U64), 18 ≤ tmp.length →
        ∃ s, ptrToString u tmp = some s ∧ IsPointerText s u.toNat) ∧
      ∀ (tmp : List U8) (u v : U64), 18 ≤ tmp.length →
        ptrToString u tmp = ptrToString v tmp → u = v) := by
  rintro ⟨hfaithful, -⟩
  obtain ⟨s, hs, htext⟩ := hfaithful (List.replicate 18 0) 0x10 (by decide)
  exact not_isPointerText_ptrToString (by decide) hs htext

end Homegrown
