import Homegrown.Core.Outcome

/-!
# Loops without a bound of their own

`loop` repeats a body until it ends, and fails when the rounds it is given run out.
`loop_returns` is the rule for a loop that ends by itself: an invariant that every round
keeps, and a measure that every round but the last decreases. `Ensures.loop` is the rule for
a loop that may not end, and `loop_exhausts` the one for a loop that never does.
-/

namespace Homegrown

section Loop

variable {ε σ α β : Type} {outOfFuel : ε} {body : α → EStateM ε σ (α ⊕ β)}

/-- Rounds of a loop: the body returns the values it goes on with, or the result. -/
def loop (outOfFuel : ε) (body : α → EStateM ε σ (α ⊕ β)) : Nat → α → EStateM ε σ β
  | 0, _ => throw outOfFuel
  | rounds + 1, a => do
    match ← body a with
    | .inl next => loop outOfFuel body rounds next
    | .inr b => return b

/-- A round that goes on leaves the loop with one round less. -/
theorem loop_succ_of_inl {a next : α} {s t : σ} (h : body a s = .ok (.inl next) t) (rounds : Nat) :
    loop outOfFuel body (rounds + 1) a s = loop outOfFuel body rounds next t := by
  rw [loop, bind_of_ok h]

/-- A round that ends the loop returns its result. -/
theorem loop_succ_of_inr {a : α} {b : β} {s t : σ} (h : body a s = .ok (.inr b) t) (rounds : Nat) :
    loop outOfFuel body (rounds + 1) a s = .ok b t := by
  rw [loop, bind_of_ok h]
  rfl

/-- A loop whose rounds keep an invariant and decrease a measure ends. -/
theorem loop_returns (inv : α → σ → Prop) (measure : α → σ → Nat) {post : β → σ → Prop}
    (hround : ∀ a s, inv a s → ReturnsWith (body a s) fun r t => match r with
      | .inl next => inv next t ∧ measure next t < measure a s
      | .inr b => post b t)
    {rounds : Nat} {a : α} {s : σ} (ha : inv a s) (hrounds : measure a s < rounds) :
    ReturnsWith (loop outOfFuel body rounds a s) post := by
  induction rounds generalizing a s with
  | zero => exact absurd hrounds (Nat.not_lt_zero _)
  | succ rounds ih =>
    obtain ⟨r, t, hbody, hr⟩ := hround a s ha
    cases r with
    | inl next =>
      rw [loop_succ_of_inl hbody]
      exact ih hr.1 (by omega)
    | inr b => exact ⟨b, t, loop_succ_of_inr hbody rounds, hr⟩

/-- A loop whose rounds all go on runs out of any number of rounds. -/
theorem loop_exhausts (inv : α → σ → Prop)
    (hround : ∀ a s, inv a s → ReturnsWith (body a s) fun r t => ∃ next, r = .inl next ∧ inv next t)
    {a : α} {s : σ} (ha : inv a s) (rounds : Nat) :
    ∃ t, loop outOfFuel body rounds a s = .error outOfFuel t := by
  induction rounds generalizing a s with
  | zero => exact ⟨s, rfl⟩
  | succ rounds ih =>
    obtain ⟨_, t, hbody, next, rfl, hnext⟩ := hround a s ha
    rw [loop_succ_of_inl hbody]
    exact ih hnext

/-- What every round ensures, a loop that returns ensures. -/
theorem Ensures.loop {inv : α → σ → Prop} {post : β → σ → Prop}
    (hround : ∀ a, Ensures (inv a) (body a) fun r t => match r with
      | .inl next => inv next t
      | .inr b => post b t) (rounds : Nat) (a : α) :
    Ensures (inv a) (Homegrown.loop outOfFuel body rounds a) post := by
  induction rounds generalizing a with
  | zero => exact Ensures.throw
  | succ rounds ih =>
    refine (hround a).bind fun r => ?_
    cases r with
    | inl next => exact ih next
    | inr b => exact Ensures.pure fun _ hpost => hpost

end Loop

end Homegrown
