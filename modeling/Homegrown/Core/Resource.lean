import Mathlib.Logic.Relation
import Homegrown.Core.Outcome

/-!
# Programs that move resources

A program runs on a state `σ`, and while it runs it has resources in hand that
it took out of the state or that its caller gave it. Its effect is described by
single moves between a state with a hand and the next. `Conducts` says that a
run is a sequence of such moves: it consumes what the caller gave, leaves what
it returns in hand, and touches nothing else in hand. A run that fails is a
sequence of moves too, with something left in hand.
-/

namespace Homegrown

section Resource

variable {ε σ ρ α β : Type} {step : σ × List ρ → σ × List ρ → Prop}

/-- A run of the program from the state is a sequence of moves, from the resources
it is given to those it returns. -/
def Conducts (step : σ × List ρ → σ × List ρ → Prop) (x : EStateM ε σ α) (s : σ)
    (before : List ρ) (after : α → List ρ) : Prop :=
  ∀ hand, match x s with
    | .ok a t => Relation.ReflTransGen step (s, before ++ hand) (t, after a ++ hand)
    | .error _ t => ∃ left, Relation.ReflTransGen step (s, before ++ hand) (t, left)

variable {s : σ} {x : EStateM ε σ α} {f : α → EStateM ε σ β} {before : List ρ}

/-- A run that returns is made of steps. -/
theorem Conducts.ok {after : α → List ρ} (h : Conducts step x s before after) {a : α} {t : σ}
    (hx : x s = .ok a t) (hand : List ρ) :
    Relation.ReflTransGen step (s, before ++ hand) (t, after a ++ hand) := by
  have hh := h hand
  rw [hx] at hh
  exact hh

/-- Whichever way a run ends, it got there by moves. -/
theorem Conducts.final {after : α → List ρ} (h : Conducts step x s before after) :
    ∃ left, Relation.ReflTransGen step (s, before) (final (x s), left) := by
  have hh := h []
  rw [List.append_nil] at hh
  cases hx : x s with
  | ok a t =>
    rw [hx] at hh
    exact ⟨_, hh⟩
  | error e t =>
    rw [hx] at hh
    exact hh

/-- A returned value takes no step. -/
theorem Conducts.pure {a : α} (after : α → List ρ) :
    Conducts step (Pure.pure a : EStateM ε σ α) s (after a) after :=
  fun _ => .refl

/-- A fault takes no step. -/
theorem Conducts.throw {e : ε} {after : α → List ρ} :
    Conducts step (throw e : EStateM ε σ α) s before after :=
  fun hand => ⟨before ++ hand, .refl⟩

/-- A sequence conducts when its first part does and its second part does from where
the first returned. -/
theorem Conducts.bind {mid : α → List ρ} {after : β → List ρ}
    (hx : Conducts step x s before mid)
    (hf : ∀ a t, x s = .ok a t → Conducts step (f a) t (mid a) after) :
    Conducts step (x >>= f) s before after := by
  intro hand
  have hh := hx hand
  cases h : x s with
  | ok a t =>
    rw [h] at hh
    have hnext := hf a t h hand
    rw [bind_of_ok h]
    cases hfa : f a t with
    | ok b u =>
      rw [hfa] at hnext
      exact hh.trans hnext
    | error e u =>
      rw [hfa] at hnext
      obtain ⟨left, hleft⟩ := hnext
      exact ⟨left, hh.trans hleft⟩
  | error e t =>
    rw [h] at hh
    rw [bind_of_error h]
    exact hh

/-- Resources that a program does not ask for stay in hand. -/
theorem Conducts.frame {after : α → List ρ} (h : Conducts step x s before after)
    (kept : List ρ) : Conducts step x s (before ++ kept) (fun a => after a ++ kept) := by
  intro hand
  simpa only [List.append_assoc] using h (kept ++ hand)

/-- Moves that can be made before a program runs. -/
theorem Conducts.before_move {given : List ρ} {after : α → List ρ}
    (hmove : ∀ hand, Relation.ReflTransGen step (s, given ++ hand) (s, before ++ hand))
    (h : Conducts step x s before after) : Conducts step x s given after := by
  intro hand
  have hh := h hand
  cases hx : x s with
  | ok a t =>
    rw [hx] at hh
    exact (hmove hand).trans hh
  | error e t =>
    rw [hx] at hh
    obtain ⟨left, hleft⟩ := hh
    exact ⟨left, (hmove hand).trans hleft⟩

/-- A program that reads the state makes no move. -/
theorem Conducts.get : Conducts step (get : EStateM ε σ σ) s before (fun _ => before) :=
  fun _ => .refl

/-- A change of the state that is one move. -/
theorem Conducts.modify {g : σ → σ} {after : PUnit → List ρ}
    (h : ∀ hand, step (s, before ++ hand) (g s, after ⟨⟩ ++ hand)) :
    Conducts step (modify g : EStateM ε σ PUnit) s before after :=
  fun hand => .single (h hand)

/-- What every move keeps, under a condition that holds all along once it holds at the
end, every sequence of moves keeps. -/
theorem kept_of_moves {p q : σ × List ρ → Prop} {c d : σ × List ρ}
    (hback : ∀ c d, step c d → q d → q c) (hstep : ∀ c d, step c d → q d → p c → p d)
    (h : Relation.ReflTransGen step c d) (hd : q d) (hc : p c) : p d := by
  induction h with
  | refl => exact hc
  | tail _ hlast ih => exact hstep _ _ hlast hd (ih (hback _ _ hlast hd))

end Resource

end Homegrown
