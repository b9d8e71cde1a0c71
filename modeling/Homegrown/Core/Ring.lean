import Mathlib.Data.List.Basic
import Mathlib.Data.Nat.ModEq

/-!
# Rings

A ring of `n` places keeps the last `n` entries of a list that only grows at its end: entry `k`
lies at place `k % n`, until entry `k + n` takes that place.
-/

namespace Homegrown

section Ring

variable {α : Type} {n : Nat} {ring : Nat → α} {l : List α} {x : α}

/-- The ring holds the last entries of the list. -/
def RingHolds (n : Nat) (ring : Nat → α) (l : List α) : Prop :=
  ∀ k x, l[k]? = some x → l.length ≤ k + n → ring (k % n) = x

/-- Two of so many numbers in a row lie at different places. -/
theorem mod_ne_of_lt {k m : Nat} (hlt : k < m) (hm : m < k + n) : k % n ≠ m % n := by
  intro heq
  have hdvd : n ∣ m - k := (Nat.modEq_iff_dvd' hlt.le).mp heq
  have hle := Nat.le_of_dvd (by omega) hdvd
  omega

/-- A ring holds the empty list. -/
theorem RingHolds.nil : RingHolds n ring [] := by
  intro k x hx
  cases hx

/-- A new entry takes the place of the oldest one. -/
theorem RingHolds.push (h : RingHolds n ring l) :
    RingHolds n (Function.update ring (l.length % n) x) (l ++ [x]) := by
  intro k y hy hk
  rw [List.length_append, List.length_singleton] at hk
  rcases Nat.lt_or_ge k l.length with hlt | hge
  · rw [List.getElem?_append_left hlt] at hy
    rw [Function.update_of_ne (mod_ne_of_lt hlt (by omega))]
    exact h k y hy (by omega)
  · rw [List.getElem?_append_right hge] at hy
    have hk' := (List.getElem?_eq_some_iff.mp hy).1
    rw [List.length_singleton] at hk'
    obtain rfl : k = l.length := by omega
    rw [Nat.sub_self] at hy
    rw [Function.update_self]
    exact Option.some.inj hy

/-- The ring keeps what a longer ring would. -/
theorem RingHolds.get (h : RingHolds n ring l) {k : Nat} (hk : k < l.length)
    (hn : l.length ≤ k + n) : ring (k % n) = l[k] :=
  h k l[k] (List.getElem?_eq_getElem hk) hn

end Ring

end Homegrown
