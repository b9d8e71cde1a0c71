import Mathlib.Data.List.Induction
import Mathlib.Data.Set.Basic
import Mathlib.Logic.Function.Basic

/-!
# Cells that are lent out

A cell is lent out with contents, or not at all. Lending adds cells with whatever is in them, a
store changes the contents of one cell, and returning takes cells away. This is what a memory is
for whose parts are handed to callers: what is read in a cell is what was stored there last since
it was lent.
-/

namespace Homegrown

variable {α β : Type}

/-- The cells that are lent out, with their contents. -/
abbrev Cells (α β : Type) := α → Option β

/-- What happens to cells. -/
inductive CellEvent (α β : Type) where
  | lend (cells : Set α)
  | store (cell : α) (contents : β)
  | takeBack (cells : Set α)

/-- The event may change what is in a cell. -/
def CellEvent.Touches (cell : α) : CellEvent α β → Prop
  | lend cells => cell ∈ cells
  | store cell' _ => cell = cell'
  | takeBack cells => cell ∈ cells

/-- One event. -/
inductive Cells.Step : Cells α β → CellEvent α β → Cells α β → Prop where
  /-- Cells are lent that were not, whatever is in them. -/
  | lend {c c' : Cells α β} (cells : Set α) (unlent : ∀ a ∈ cells, c a = none)
      (lent : ∀ a ∈ cells, (c' a).isSome) (kept : ∀ a ∉ cells, c' a = c a) :
      Step c (.lend cells) c'
  /-- The contents of a cell that is lent are replaced. -/
  | store {c c' : Cells α β} (cell : α) (contents : β) (lent : (c cell).isSome)
      (stored : c' cell = some contents) (kept : ∀ a ≠ cell, c' a = c a) :
      Step c (.store cell contents) c'
  /-- Cells are not lent any longer. -/
  | takeBack {c c' : Cells α β} (cells : Set α) (gone : ∀ a ∈ cells, c' a = none)
      (kept : ∀ a ∉ cells, c' a = c a) : Step c (.takeBack cells) c'

/-- Events one after the other. -/
inductive Cells.Run : Cells α β → List (CellEvent α β) → Cells α β → Prop where
  | nil (c : Cells α β) : Run c [] c
  | snoc {c c' c'' : Cells α β} {events : List (CellEvent α β)} {e : CellEvent α β}
      (run : Run c events c') (step : Cells.Step c' e c'') : Run c (events ++ [e]) c''

section Run

variable {c c' c'' : Cells α β} {e : CellEvent α β} {events later : List (CellEvent α β)} {a : α}
  {b : β}

/-- A cell that an event does not touch keeps its contents. -/
theorem Cells.Step.kept_of_not_touches (h : Cells.Step c e c') (ha : ¬ e.Touches a) :
    c' a = c a := by
  cases h with
  | lend cells _ _ kept => exact kept a ha
  | store cell contents _ _ kept => exact kept a ha
  | takeBack cells _ kept => exact kept a ha

/-- A cell that no event touches keeps its contents. -/
theorem Cells.Run.kept_of_not_touches (h : Cells.Run c events c')
    (ha : ∀ e ∈ events, ¬ e.Touches a) : c' a = c a := by
  induction h with
  | nil => rfl
  | snoc run step ih =>
    rw [List.forall_mem_append, List.forall_mem_singleton] at ha
    rw [step.kept_of_not_touches ha.2, ih ha.1]

/-- A run can be cut between two events. -/
theorem Cells.Run.append_iff : Cells.Run c (events ++ later) c'' ↔
    ∃ c', Cells.Run c events c' ∧ Cells.Run c' later c'' := by
  constructor
  · induction later using List.reverseRecOn generalizing c'' with
    | nil =>
      intro h
      rw [List.append_nil] at h
      exact ⟨c'', h, .nil _⟩
    | append_singleton later e ih =>
      intro h
      rw [← List.append_assoc] at h
      generalize hall : events ++ later ++ [e] = all at h
      cases h with
      | nil => simp at hall
      | snoc run step =>
        obtain ⟨rfl, rfl⟩ := List.append_singleton_inj.mp hall
        obtain ⟨c', hfirst, hrest⟩ := ih run
        exact ⟨c', hfirst, hrest.snoc step⟩
  · rintro ⟨c', hfirst, hrest⟩
    induction hrest with
    | nil => rwa [List.append_nil]
    | snoc run step ih =>
      rw [← List.append_assoc]
      exact ih.snoc step

end Run

end Homegrown
