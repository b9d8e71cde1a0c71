import Mathlib.Algebra.Group.Basic
import Mathlib.Data.Set.Basic
import Mathlib.Tactic.Abel

/-!
# Moving and filling a block of memory

Addresses form an additive group. A block is moved piece by piece: each piece is a move of its
own, and moves on as long as no piece is read from where an earlier one was written. A block is
filled piece by piece in any order.
-/

namespace Homegrown

variable {α β : Type} [AddCommGroup α] {dest src c : α} {I J : Set α} {m m₀ m₁ m₂ : α → β}

/-- At the offsets `I` from `dest` memory holds what it held at these offsets from `src`, and
elsewhere it is unchanged. -/
structure Moved (dest src : α) (I : Set α) (before after : α → β) : Prop where
  moved : ∀ a, a - dest ∈ I → after a = before (a - dest + src)
  kept : ∀ a, a - dest ∉ I → after a = before a

/-- Without a place nothing is moved. -/
theorem Moved.none : Moved dest src ∅ m m :=
  ⟨fun _ ha => ha.elim, fun _ _ => rfl⟩

/-- Moving a block onto itself changes nothing. -/
theorem Moved.self (I : Set α) : Moved dest dest I m m :=
  ⟨fun a _ => by rw [sub_add_cancel], fun _ _ => rfl⟩

/-- Only the set of places matters. -/
theorem Moved.congr (h : Moved dest src I m m₁) (hI : ∀ x, x ∈ I ↔ x ∈ J) :
    Moved dest src J m m₁ :=
  ⟨fun a ha => h.moved a ((hI _).mpr ha), fun a ha => h.kept a (mt (hI _).mp ha)⟩

/-- A piece that is read from where nothing was written yet is added to what was moved. -/
theorem Moved.trans (h : Moved dest src I m₀ m₁) (hpiece : Moved (c + dest) (c + src) J m₁ m₂)
    (hfresh : ∀ x ∈ J, x + c + (src - dest) ∉ I) :
    Moved dest src (I ∪ {x | x - c ∈ J}) m₀ m₂ := by
  have hoffset : ∀ a, a - (c + dest) = a - dest - c := fun a => by abel
  refine ⟨fun a ha => ?_, fun a ha => ?_⟩
  · by_cases hJ : a - dest - c ∈ J
    · have haddress : a - (c + dest) + (c + src) = a - dest + src := by abel
      have hread : a - dest + src - dest = a - dest - c + c + (src - dest) := by abel
      rw [hpiece.moved a (by rwa [hoffset]), haddress]
      exact h.kept _ (by rw [hread]; exact hfresh _ hJ)
    · rw [hpiece.kept a (by rwa [hoffset])]
      exact h.moved a (ha.resolve_right hJ)
  · rw [Set.mem_union, not_or] at ha
    rw [hpiece.kept a (by rw [hoffset]; exact ha.2)]
    exact h.kept a ha.1

/-- At the offsets `I` from `dest` memory holds one value, and elsewhere it is unchanged. -/
structure Filled (dest : α) (I : Set α) (x : β) (before after : α → β) : Prop where
  filled : ∀ a, a - dest ∈ I → after a = x
  kept : ∀ a, a - dest ∉ I → after a = before a

section Filled

variable {x : β}

/-- Without a place nothing is filled. -/
theorem Filled.none : Filled dest ∅ x m m :=
  ⟨fun _ ha => ha.elim, fun _ _ => rfl⟩

/-- Only the set of places matters. -/
theorem Filled.congr (h : Filled dest I x m m₁) (hI : ∀ y, y ∈ I ↔ y ∈ J) :
    Filled dest J x m m₁ :=
  ⟨fun a ha => h.filled a ((hI _).mpr ha), fun a ha => h.kept a (mt (hI _).mp ha)⟩

/-- A piece is added to what was filled. -/
theorem Filled.trans (h : Filled dest I x m₀ m₁) (hpiece : Filled (c + dest) J x m₁ m₂) :
    Filled dest (I ∪ {y | y - c ∈ J}) x m₀ m₂ := by
  have hoffset : ∀ a, a - (c + dest) = a - dest - c := fun a => by abel
  refine ⟨fun a ha => ?_, fun a ha => ?_⟩
  · by_cases hJ : a - dest - c ∈ J
    · exact hpiece.filled a (by rwa [hoffset])
    · rw [hpiece.kept a (by rwa [hoffset])]
      exact h.filled a (ha.resolve_right hJ)
  · rw [Set.mem_union, not_or] at ha
    rw [hpiece.kept a (by rw [hoffset]; exact ha.2)]
    exact h.kept a ha.1

end Filled

end Homegrown
