import Mathlib.Data.List.Basic
import Mathlib.Logic.Function.Basic

/-!
# Chains of nodes in memory

A chain leads from a pointer through nodes that each hold the next pointer, to the null pointer.
`Chain.congr` is its frame rule: a chain does not see what changes outside of it.
-/

namespace Homegrown

variable {P N X : Type}

/-- The nodes from a pointer on are at some places and hold some values. -/
def Chain (next : N → P) (holds : N → X → Prop) (null : P) (nodes : P → N) :
    P → List (P × X) → Prop
  | p, [] => p = null
  | p, (q, x) :: rest => q = p ∧ p ≠ null ∧ holds (nodes p) x ∧
      Chain next holds null nodes (next (nodes p)) rest

namespace Chain

variable {next : N → P} {holds : N → X → Prop} {null : P} {nodes : P → N} {p : P}
  {x : X} {chain : List (P × X)}

/-- A chain depends on its own nodes only. -/
theorem congr {nodes' : P → N} (h : Chain next holds null nodes p chain)
    (hsame : ∀ q ∈ chain.map Prod.fst, nodes' q = nodes q) :
    Chain next holds null nodes' p chain := by
  induction chain generalizing p with
  | nil => exact h
  | cons first rest ih =>
    obtain ⟨hfirst, hp, hholds, hrest⟩ := h
    rw [List.map_cons, List.forall_mem_cons, hfirst] at hsame
    exact ⟨hfirst, hp, hsame.1 ▸ hholds, hsame.1 ▸ ih hrest hsame.2⟩

variable [DecidableEq P] {q : P} {node : N}

/-- A change of a node outside a chain. -/
theorem update (h : Chain next holds null nodes p chain) (hq : q ∉ chain.map Prod.fst) :
    Chain next holds null (Function.update nodes q node) p chain := by
  apply h.congr
  intro q' hq'
  apply Function.update_of_ne
  rintro rfl
  exact hq hq'

/-- A node in front of a chain that it is not in. -/
theorem cons (h : Chain next holds null nodes p chain) (hq : q ∉ chain.map Prod.fst)
    (hnull : q ≠ null) (hnext : next node = p) (hholds : holds node x) :
    Chain next holds null (Function.update nodes q node) q ((q, x) :: chain) := by
  refine ⟨rfl, hnull, ?_, ?_⟩ <;> rw [Function.update_self]
  · exact hholds
  · exact hnext ▸ h.update hq

end Chain

end Homegrown
