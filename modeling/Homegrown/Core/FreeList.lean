import Mathlib.Data.List.Nodup
import Mathlib.Data.List.Perm.Basic

/-!
# Free lists

A free list deals with a fixed collection of places: each of them is free or held, and not
both. A place is taken from the front of the list, and one that is held is put back there.
-/

namespace Homegrown

/-- The free places and those that are held are the places, each once. -/
structure FreeList {P : Type} (places free held : List P) : Prop where
  nodup : places.Nodup
  perm : (free ++ held).Perm places

namespace FreeList

variable {P : Type} {places free held : List P} {p : P}

/-- All places are free. -/
theorem all_free (h : places.Nodup) (hfree : free.Perm places) : FreeList places free [] :=
  ⟨h, by rwa [List.append_nil]⟩

/-- No place is in the list twice, or in it and in use. -/
theorem nodup_append (h : FreeList places free held) : (free ++ held).Nodup :=
  h.perm.nodup_iff.mpr h.nodup

/-- What is in use is a place. -/
theorem mem_of_held (h : FreeList places free held) (hp : p ∈ held) : p ∈ places :=
  h.perm.mem_iff.mp (List.mem_append_right free hp)

/-- What is free is a place. -/
theorem mem_of_free (h : FreeList places free held) (hp : p ∈ free) : p ∈ places :=
  h.perm.mem_iff.mp (List.mem_append_left held hp)

/-- What is in use is not free. -/
theorem notMem_free (h : FreeList places free held) (hp : p ∈ held) : p ∉ free :=
  fun hfree => List.disjoint_of_nodup_append h.nodup_append hfree hp

/-- Every place is free or in use. -/
theorem length_add (h : FreeList places free held) :
    free.length + held.length = places.length := by
  rw [← List.length_append]
  exact h.perm.length_eq

/-- The first free place is held from now on. -/
theorem pop (h : FreeList places (p :: free) held) : FreeList places free (p :: held) :=
  ⟨h.nodup, List.perm_middle.trans h.perm⟩

/-- The first free place is not held. -/
theorem notMem_held (h : FreeList places (p :: free) held) : p ∉ held :=
  fun hp => h.notMem_free hp List.mem_cons_self

/-- A place that was held is the first free one. -/
theorem push [DecidableEq P] (h : FreeList places free held) (hp : p ∈ held) :
    FreeList places (p :: free) (held.erase p) := by
  refine ⟨h.nodup, ?_⟩
  have hheld : (p :: (free ++ held.erase p)).Perm (free ++ held) :=
    List.perm_middle.symm.trans ((List.perm_cons_erase hp).symm.append_left free)
  exact hheld.trans h.perm

end FreeList

end Homegrown
