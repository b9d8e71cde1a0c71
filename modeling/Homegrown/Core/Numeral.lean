import Mathlib.Data.Nat.Digits.Lemmas

/-!
# Numerals

A numeral lists the digits of a number from the first to the last. `numeral` has no leading
zeros and is the only such list (`IsNumeral.eq_numeral`); it grows by a digit at its end
when the number is multiplied by the base (`numeral_of_le`). `padded` has a fixed width and
knows the number modulo a power of the base.
-/

namespace Homegrown

/-- The value of a list of digits. -/
def numeralValue (b : Nat) (ds : List Nat) : Nat := Nat.ofDigits b ds.reverse

/-- The digits of a number without leading zeros. -/
def numeral (b n : Nat) : List Nat := if n = 0 then [0] else (Nat.digits b n).reverse

/-- The last digits of a number. -/
def padded (b n : Nat) : Nat → List Nat
  | 0 => []
  | k + 1 => padded b (n / b) k ++ [n % b]

/-- The digits are those of the number, without leading zeros. -/
structure IsNumeral (b : Nat) (ds : List Nat) (n : Nat) : Prop where
  lt_base : ∀ d ∈ ds, d < b
  ne_nil : ds ≠ []
  leading : ds.head? = some 0 → ds = [0]
  value : numeralValue b ds = n

section Numeral

variable {b n k d : Nat} {ds : List Nat}

@[simp] theorem numeralValue_nil : numeralValue b [] = 0 := rfl

/-- The last digit counts once, those before it as often as the base says. -/
@[simp] theorem numeralValue_concat (ds : List Nat) (d : Nat) :
    numeralValue b (ds ++ [d]) = d + b * numeralValue b ds := by
  rw [numeralValue, List.reverse_concat, Nat.ofDigits_cons, numeralValue]

/-- A number below the base is a digit. -/
theorem numeral_of_lt (h : n < b) : numeral b n = [n] := by
  unfold numeral
  split
  · rename_i h0
    rw [h0]
  · rename_i hne
    rw [Nat.digits_of_lt b n hne h]
    rfl

/-- A number of several digits: its quotient, and its last digit. -/
theorem numeral_of_le (hb : 1 < b) (h : b ≤ n) : numeral b n = numeral b (n / b) ++ [n % b] := by
  have hquot : n / b ≠ 0 := (Nat.div_pos h (by omega)).ne'
  rw [numeral, if_neg (by omega), numeral, if_neg hquot, Nat.digits_def' hb (by omega),
    List.reverse_cons]

/-- The digits that division gives are a numeral of the number. -/
theorem isNumeral_numeral (hb : 1 < b) (n : Nat) : IsNumeral b (numeral b n) n := by
  unfold numeral
  split
  · rename_i h0
    refine ⟨?_, List.cons_ne_nil _ _, fun _ => rfl, ?_⟩
    · intro d hd
      rw [List.mem_singleton.mp hd]
      omega
    · rw [h0]
      simp [numeralValue]
  · rename_i hne
    refine ⟨fun d hd => Nat.digits_lt_base hb (List.mem_reverse.mp hd), ?_, ?_, ?_⟩
    · rw [Ne, List.reverse_eq_nil_iff]
      exact Nat.digits_ne_nil_iff_ne_zero.mpr hne
    · intro hhead
      rw [List.head?_reverse, List.getLast?_eq_some_getLast (Nat.digits_ne_nil_iff_ne_zero.mpr hne),
        Option.some.injEq] at hhead
      exact absurd hhead (Nat.getLast_digit_ne_zero b hne)
    · rw [numeralValue, List.reverse_reverse, Nat.ofDigits_digits]

/-- There is no other list of digits without leading zeros. -/
theorem IsNumeral.eq_numeral (hb : 1 < b) (h : IsNumeral b ds n) : ds = numeral b n := by
  by_cases h0 : ds.head? = some 0
  · have hds := h.leading h0
    have hvalue := h.value
    subst hds
    simp [numeralValue] at hvalue
    rw [← hvalue, numeral, if_pos rfl]
  · have hdigits : Nat.digits b n = ds.reverse := by
      rw [← h.value, numeralValue]
      apply Nat.digits_ofDigits b hb
      · exact fun d hd => h.lt_base d (List.mem_reverse.mp hd)
      · intro hne hlast
        apply h0
        rw [← List.getLast?_reverse, List.getLast?_eq_some_getLast hne, hlast]
    have hne : n ≠ 0 := by
      rintro rfl
      rw [Nat.digits_zero] at hdigits
      exact h.ne_nil (List.reverse_eq_nil_iff.mp hdigits.symm)
    rw [numeral, if_neg hne, hdigits, List.reverse_reverse]

/-- A number below a power of the base has no more digits than the exponent. -/
theorem length_numeral_le (hb : 1 < b) (hk : 0 < k) (h : n < b ^ k) :
    (numeral b n).length ≤ k := by
  unfold numeral
  split
  · exact hk
  · rw [List.length_reverse, Nat.digits_length_le_iff hb]
    exact h

/-- A padded numeral has the digits it was given. -/
@[simp] theorem length_padded (b n k : Nat) : (padded b n k).length = k := by
  induction k generalizing n with
  | zero => rfl
  | succ k ih => rw [padded, List.length_append, ih, List.length_singleton]

/-- The digits of a padded numeral are below the base. -/
theorem lt_of_mem_padded (hb : 0 < b) (h : d ∈ padded b n k) : d < b := by
  induction k generalizing n with
  | zero => simp [padded] at h
  | succ k ih =>
    rw [padded, List.mem_append, List.mem_singleton] at h
    rcases h with h | rfl
    · exact ih h
    · exact Nat.mod_lt n hb

/-- The last digits are the number modulo a power of the base. -/
theorem numeralValue_padded (b n k : Nat) : numeralValue b (padded b n k) = n % b ^ k := by
  induction k generalizing n with
  | zero => simp [padded, Nat.mod_one]
  | succ k ih => rw [padded, numeralValue_concat, ih, pow_succ', Nat.mod_mul]

/-- The digits by their places, from the first of them to the last. -/
theorem padded_succ_eq (b n k : Nat) : padded b n (k + 1) = n / b ^ k % b :: padded b n k := by
  induction k generalizing n with
  | zero => simp [padded]
  | succ k ih =>
    rw [padded, ih, List.cons_append, Nat.div_div_eq_div_mul, ← pow_succ']
    rfl

/-- Two numbers have the same digits exactly when they leave the same remainder. -/
theorem padded_eq_iff {m : Nat} : padded b n k = padded b m k ↔ n % b ^ k = m % b ^ k := by
  constructor
  · intro h
    rw [← numeralValue_padded, h, numeralValue_padded]
  · intro h
    induction k generalizing n m with
    | zero => rfl
    | succ k ih =>
      have hlast : n % b = m % b := by
        rw [← Nat.mod_mod_of_dvd n (Dvd.intro_left (b ^ k) rfl),
          ← Nat.mod_mod_of_dvd m (Dvd.intro_left (b ^ k) rfl), ← pow_succ, h]
      have hquot : n / b % b ^ k = m / b % b ^ k := by
        rw [pow_succ', Nat.mod_mul, Nat.mod_mul, hlast, Nat.add_left_cancel_iff] at h
        rcases Nat.eq_zero_or_pos b with rfl | hb
        · simp
        · exact Nat.eq_of_mul_eq_mul_left hb h
      rw [padded, padded, ih hquot, hlast]

end Numeral

end Homegrown
