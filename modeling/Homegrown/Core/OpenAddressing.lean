import Mathlib.Data.Fintype.EquivFin
import Mathlib.Data.Nat.ModEq
import Mathlib.Logic.Function.Basic

/-!
# Open addressing

A table of keys in which every key has a sequence of slots to look at. A search goes
through the slots of its key and ends at the first that is empty or holds the key. In a
`Probed` table no key is stored twice, and no slot before a key in its own sequence is
empty, so that the end of a search tells whether the key is stored (`Probed.zero_iff`) and
the place of a new key is where its search ends (`Probed.update`). `existsUnique_probe`
is the sequence of double hashing: steps of an odd length visit every slot of a table once.
-/

namespace Homegrown.OpenAddressing

variable {T I : Type} {zero : T} {slot : T → Nat → I} {table : I → T}

/-- A search ends at the slot: it is empty or holds the key. -/
def Ends (zero : T) (slot : T → Nat → I) (table : I → T) (key : T) (j : Nat) : Prop :=
  table (slot key j) = zero ∨ table (slot key j) = key

/-- A search ends at the slot, and no earlier. -/
structure EndsFirst (zero : T) (slot : T → Nat → I) (table : I → T) (key : T) (j : Nat) : Prop where
  ends : Ends zero slot table key j
  notBefore : ∀ j' < j, ¬ Ends zero slot table key j'

/-- No key is stored twice, and the slots before a key in its sequence are not empty. -/
structure Probed (zero : T) (slot : T → Nat → I) (table : I → T) : Prop where
  once : ∀ i i', table i ≠ zero → table i = table i' → i = i'
  reach : ∀ i, table i ≠ zero →
    ∃ j, slot (table i) j = i ∧ ∀ j' < j, table (slot (table i) j') ≠ zero

/-- An empty table. -/
theorem Probed.empty : Probed zero slot fun _ => zero :=
  ⟨fun _ _ h => (h rfl).elim, fun _ h => (h rfl).elim⟩

/-- A search that meets an empty slot ends. -/
theorem exists_endsFirst (slot : T → Nat → I) {key : T} {n : Nat}
    (h : ∃ j < n, table (slot key j) = zero) :
    ∃ j < n, EndsFirst zero slot table key j := by
  classical
  obtain ⟨j, hj, hzero⟩ := h
  have hends : ∃ j, Ends zero slot table key j := ⟨j, .inl hzero⟩
  exact ⟨Nat.find hends, (Nat.find_min' hends (.inl hzero)).trans_lt hj, Nat.find_spec hends,
    fun j' hj' => Nat.find_min hends hj'⟩

/-- A search ends at an empty slot when its key is not stored, and only then. -/
theorem Probed.zero_iff (h : Probed zero slot table) {key : T} (hkey : key ≠ zero) {j : Nat}
    (hj : EndsFirst zero slot table key j) :
    table (slot key j) = zero ↔ ∀ i, table i ≠ key := by
  constructor
  · rintro hzero i rfl
    obtain ⟨j₀, hslot, hbefore⟩ := h.reach i hkey
    rcases Nat.lt_trichotomy j j₀ with hlt | rfl | hlt
    · exact hbefore j hlt hzero
    · exact hkey (hslot ▸ hzero)
    · exact hj.notBefore j₀ hlt (.inr (congrArg table hslot))
  · intro hnone
    exact hj.ends.resolve_right (hnone _)

variable [DecidableEq I]

/-- A new key goes where its search ends. -/
theorem Probed.update (h : Probed zero slot table) {key : T} (hkey : key ≠ zero) {j : Nat}
    (hj : EndsFirst zero slot table key j) (hzero : table (slot key j) = zero) :
    Probed zero slot (Function.update table (slot key j) key) := by
  have hnew := (h.zero_iff hkey hj).mp hzero
  -- slots that are taken stay taken
  have htaken (i : I) (hi : table i ≠ zero) :
      Function.update table (slot key j) key i ≠ zero := by
    have hne : i ≠ slot key j := by
      rintro rfl
      exact hi hzero
    rwa [Function.update_of_ne hne]
  constructor
  · intro i i' hi heq
    by_cases hi₁ : i = slot key j <;> by_cases hi₂ : i' = slot key j
    · rw [hi₁, hi₂]
    · rw [hi₁, Function.update_self, Function.update_of_ne hi₂] at heq
      exact (hnew i' heq.symm).elim
    · rw [hi₂, Function.update_self, Function.update_of_ne hi₁] at heq
      exact (hnew i heq).elim
    · rw [Function.update_of_ne hi₁] at hi heq
      rw [Function.update_of_ne hi₂] at heq
      exact h.once i i' hi heq
  · intro i hi
    by_cases hslot : i = slot key j
    · rw [hslot, Function.update_self]
      refine ⟨j, rfl, fun j' hj' => htaken _ fun hzero' => ?_⟩
      exact hj.notBefore j' hj' (.inl hzero')
    · rw [Function.update_of_ne hslot] at hi ⊢
      obtain ⟨j₀, hj₀, hbefore⟩ := h.reach i hi
      exact ⟨j₀, hj₀, fun j' hj' => htaken _ (hbefore j' hj')⟩

/-! ## Steps of a fixed length -/

/-- Steps of a length that is coprime to the size of the table do not meet a slot again
before they have met them all. -/
theorem probe_injective {start step size : Nat} (hstep : Nat.Coprime step size) {j j' : Nat}
    (hj : j < size) (hj' : j' < size)
    (h : (start + (j + 1) * step) % size = (start + (j' + 1) * step) % size) : j = j' := by
  have hmul : (j + 1) * step ≡ (j' + 1) * step [MOD size] :=
    Nat.ModEq.add_left_cancel' start h
  have hsucc : j + 1 ≡ j' + 1 [MOD size] :=
    Nat.ModEq.cancel_right_of_coprime (Nat.coprime_comm.mp hstep) hmul
  exact Nat.ModEq.eq_of_lt_of_lt (Nat.ModEq.add_right_cancel' 1 hsucc) hj hj'

/-- Every slot is met once. -/
theorem existsUnique_probe (start : Nat) {step size : Nat} (hstep : Nat.Coprime step size) {i : Nat}
    (hi : i < size) : ∃! j, j < size ∧ (start + (j + 1) * step) % size = i := by
  let probe : Fin size → Fin size := fun j =>
    ⟨(start + (j.val + 1) * step) % size, Nat.mod_lt _ (Nat.zero_lt_of_lt hi)⟩
  have hinjective : Function.Injective probe := fun j j' h =>
    Fin.ext (probe_injective hstep j.isLt j'.isLt (congrArg Fin.val h))
  obtain ⟨j, hj⟩ := (Finite.injective_iff_surjective.mp hinjective) ⟨i, hi⟩
  have hval : (start + (j.val + 1) * step) % size = i := congrArg Fin.val hj
  refine ⟨j.val, ⟨j.isLt, hval⟩, ?_⟩
  rintro j' ⟨hj', hval'⟩
  exact probe_injective hstep hj' j.isLt (hval'.trans hval.symm)

end Homegrown.OpenAddressing
