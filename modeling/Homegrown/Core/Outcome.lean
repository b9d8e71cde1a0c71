import Mathlib.Logic.Basic

/-!
# Outcomes of stateful programs that can fail

A program of type `EStateM ε σ α` takes a state to `ok` with a value, or to
`error`, in either case with the state it has reached. The lemmas here take a
run apart at its binds: `bind_eq_ok` and its companions for a run that returns,
and `final_bind` for the state a run ends in, whichever way it ends. `zoom` runs a
program on a part of a larger state.
-/

namespace Homegrown

section Outcome

variable {ε σ α β : Type}

/-- A sequence goes on where its first part returned. -/
theorem bind_of_ok {x : EStateM ε σ α} {f : α → EStateM ε σ β} {s t : σ} {a : α}
    (h : x s = .ok a t) : (x >>= f) s = f a t := by
  change EStateM.bind x f s = _
  unfold EStateM.bind
  rw [h]

/-- A sequence fails where its first part failed. -/
theorem bind_of_error {x : EStateM ε σ α} {f : α → EStateM ε σ β} {s t : σ} {e : ε}
    (h : x s = .error e t) : (x >>= f) s = .error e t := by
  change EStateM.bind x f s = _
  unfold EStateM.bind
  rw [h]

/-- A sequence goes on with the state that was read. -/
theorem get_bind {f : σ → EStateM ε σ β} {s : σ} :
    ((get : EStateM ε σ σ) >>= f) s = f s s := rfl

/-- A sequence goes on in the state that was set. -/
theorem set_bind {u : σ} {f : PUnit → EStateM ε σ β} {s : σ} :
    ((set u : EStateM ε σ PUnit) >>= f) s = f ⟨⟩ u := rfl

/-- A sequence goes on in the changed state. -/
theorem modify_bind {g : σ → σ} {f : PUnit → EStateM ε σ β} {s : σ} :
    ((modify g : EStateM ε σ PUnit) >>= f) s = f ⟨⟩ (g s) := rfl

/-- A run of a sequence that returns is a returning run of each part. -/
@[simp] theorem bind_eq_ok {x : EStateM ε σ α} {f : α → EStateM ε σ β} {s t : σ} {b : β} :
    (x >>= f) s = .ok b t ↔ ∃ a u, x s = .ok a u ∧ f a u = .ok b t := by
  cases h : x s with
  | ok a u =>
    rw [bind_of_ok h]
    simp only [EStateM.Result.ok.injEq]
    constructor
    · exact fun hf => ⟨a, u, ⟨rfl, rfl⟩, hf⟩
    · rintro ⟨_, _, ⟨rfl, rfl⟩, hf⟩
      exact hf
  | error e u =>
    rw [bind_of_error h]
    simp

/-- A value is returned in the state it was reached in. -/
@[simp] theorem pure_eq_ok {a b : α} {s t : σ} :
    (pure a : EStateM ε σ α) s = .ok b t ↔ a = b ∧ s = t := by
  change EStateM.Result.ok a s = _ ↔ _
  simp

/-- Reading the state returns it and leaves it as it is. -/
@[simp] theorem get_eq_ok {s t u : σ} :
    (get : EStateM ε σ σ) s = .ok u t ↔ s = u ∧ s = t := by
  change EStateM.Result.ok s s = _ ↔ _
  simp

/-- Setting the state returns in the state that was set. -/
@[simp] theorem set_eq_ok {s t u : σ} {v : PUnit} :
    (set u : EStateM ε σ PUnit) s = .ok v t ↔ u = t := by
  change EStateM.Result.ok PUnit.unit u = _ ↔ _
  simp

/-- Changing the state returns in the changed state. -/
@[simp] theorem modify_eq_ok {f : σ → σ} {s t : σ} {v : PUnit} :
    (modify f : EStateM ε σ PUnit) s = .ok v t ↔ f s = t := by
  change EStateM.Result.ok PUnit.unit (f s) = _ ↔ _
  simp

/-- A fault is no run that returns. -/
@[simp] theorem throw_eq_ok {e : ε} {s t : σ} {a : α} :
    (throw e : EStateM ε σ α) s = .ok a t ↔ False := by
  change EStateM.Result.error e s = _ ↔ _
  simp

/-- A program on a part of the state. -/
def zoom {τ : Type} (view : τ → σ) (update : τ → σ → τ) (x : EStateM ε σ α) : EStateM ε τ α :=
  fun t => match x (view t) with
    | .ok a s => .ok a (update t s)
    | .error e s => .error e (update t s)

/-- A program on a part of the state returns exactly when it does so on the part alone. -/
@[simp] theorem zoom_eq_ok {τ : Type} {view : τ → σ} {update : τ → σ → τ} {x : EStateM ε σ α}
    {t t' : τ} {a : α} :
    zoom view update x t = .ok a t' ↔ ∃ s, x (view t) = .ok a s ∧ update t s = t' := by
  unfold zoom
  cases x (view t) with
  | ok b s =>
    simp only [EStateM.Result.ok.injEq]
    constructor
    · rintro ⟨rfl, rfl⟩
      exact ⟨s, ⟨rfl, rfl⟩, rfl⟩
    · rintro ⟨_, ⟨rfl, rfl⟩, rfl⟩
      exact ⟨rfl, rfl⟩
  | error e s => simp

/-- A program on a part of the state fails where it does so on the part alone. -/
theorem zoom_of_error {τ : Type} {view : τ → σ} {update : τ → σ → τ} {x : EStateM ε σ α} {t : τ}
    {e : ε} {s : σ} (h : x (view t) = .error e s) :
    zoom view update x t = .error e (update t s) := by
  unfold zoom
  rw [h]

/-- The run returns, with a value and in a state of which the property holds. -/
def ReturnsWith (r : EStateM.Result ε σ α) (p : α → σ → Prop) : Prop :=
  ∃ a s, r = .ok a s ∧ p a s

instance (r : EStateM.Result ε σ α) (p : α → σ → Prop) [∀ a s, Decidable (p a s)] :
    Decidable (ReturnsWith r p) :=
  match r with
  | .ok a s => decidable_of_iff (p a s) ⟨fun h => ⟨a, s, rfl, h⟩, fun ⟨_, _, he, h⟩ => by
      injection he with ha hs
      exact ha ▸ hs ▸ h⟩
  | .error _ _ => isFalse fun ⟨_, _, he, _⟩ => by cases he

/-- The same for a run of a program, from a state that may itself be the end of a run. -/
instance (x : EStateM ε σ α) (s : σ) (p : α → σ → Prop) [∀ a s, Decidable (p a s)] :
    Decidable (ReturnsWith (x s) p) :=
  instDecidableReturnsWith (x s) p

/-- If the run returns, the property holds of the value and the state. -/
def IfReturns (r : EStateM.Result ε σ α) (p : α → σ → Prop) : Prop :=
  ∀ a s, r = .ok a s → p a s

instance (r : EStateM.Result ε σ α) (p : α → σ → Prop) [∀ a s, Decidable (p a s)] :
    Decidable (IfReturns r p) :=
  match r with
  | .ok a s => decidable_of_iff (p a s) ⟨fun h b t he => by
      injection he with ha hs
      exact ha ▸ hs ▸ h, fun h => h a s rfl⟩
  | .error _ _ => isTrue fun _ _ he => by cases he

/-- A sequence returns when both parts do. -/
theorem ReturnsWith.bind {x : EStateM ε σ α} {f : α → EStateM ε σ β} {s : σ} {p : α → σ → Prop}
    {q : β → σ → Prop} (hx : ReturnsWith (x s) p) (hf : ∀ a t, p a t → ReturnsWith (f a t) q) :
    ReturnsWith ((x >>= f) s) q := by
  obtain ⟨a, t, hx, hp⟩ := hx
  rw [bind_of_ok hx]
  exact hf a t hp

/-- A value is returned in every state. -/
theorem ReturnsWith.pure {a : α} {s : σ} {p : α → σ → Prop} (h : p a s) :
    ReturnsWith ((Pure.pure a : EStateM ε σ α) s) p := ⟨a, s, rfl, h⟩

/-- The state is returned. -/
theorem ReturnsWith.get {s : σ} {p : σ → σ → Prop} (h : p s s) :
    ReturnsWith ((get : EStateM ε σ σ) s) p := ⟨s, s, rfl, h⟩

/-- A change of the state returns in the changed state. -/
theorem ReturnsWith.modify {f : σ → σ} {s : σ} {p : PUnit → σ → Prop} (h : p ⟨⟩ (f s)) :
    ReturnsWith ((modify f : EStateM ε σ PUnit) s) p := ⟨⟨⟩, f s, rfl, h⟩

/-- What follows from the property holds too where the run returns. -/
theorem ReturnsWith.weaken {r : EStateM.Result ε σ α} {p q : α → σ → Prop} (h : ReturnsWith r p)
    (hpq : ∀ a s, p a s → q a s) : ReturnsWith r q := by
  obtain ⟨a, s, hr, hp⟩ := h
  exact ⟨a, s, hr, hpq a s hp⟩

/-- Outcomes can be compared when their parts can. -/
instance instDecidableEqOutcome [DecidableEq ε] [DecidableEq σ] [DecidableEq α] :
    DecidableEq (EStateM.Result ε σ α)
  | .ok a s, .ok b t => decidable_of_iff (a = b ∧ s = t) (by simp)
  | .error e s, .error f t => decidable_of_iff (e = f ∧ s = t) (by simp)
  | .ok _ _, .error _ _ => isFalse (by simp)
  | .error _ _, .ok _ _ => isFalse (by simp)

/-- The state a run ends in, also when it fails. -/
def final : EStateM.Result ε σ α → σ
  | .ok _ s => s
  | .error _ s => s

/-- A run that returned is in its last state. -/
@[simp] theorem final_ok (a : α) (s : σ) : final (.ok a s : EStateM.Result ε σ α) = s := rfl

/-- A run that failed is in the state it failed in. -/
@[simp] theorem final_error (e : ε) (s : σ) : final (.error e s : EStateM.Result ε σ α) = s := rfl

/-- A run that returns a value ends in its final state. -/
theorem ReturnsWith.eq_ok {r : EStateM.Result ε σ α} {b : α} (h : ReturnsWith r fun a _ => a = b) :
    r = .ok b (final r) := by
  obtain ⟨_, s, rfl, rfl⟩ := h
  rfl

/-- Returning a value leaves the state as it is. -/
@[simp] theorem final_pure (a : α) (s : σ) : final ((pure a : EStateM ε σ α) s) = s := rfl

/-- A fault leaves the state as it is. -/
@[simp] theorem final_throw (e : ε) (s : σ) : final ((throw e : EStateM ε σ α) s) = s := rfl

/-- A property holds where a sequence ends, if it holds where the first part fails
and where the second part ends after the first returned. -/
theorem final_bind {p : σ → Prop} {x : EStateM ε σ α} {f : α → EStateM ε σ β} {s : σ}
    (herror : ∀ e u, x s = .error e u → p u)
    (hok : ∀ a u, x s = .ok a u → p (final (f a u))) : p (final ((x >>= f) s)) := by
  cases h : x s with
  | ok a u =>
    rw [bind_of_ok h]
    exact hok a u h
  | error e u =>
    rw [bind_of_error h]
    exact herror e u h

/-- A program on a part of the state ends with the part as the program left it. -/
theorem final_zoom {τ : Type} (view : τ → σ) (update : τ → σ → τ) (x : EStateM ε σ α) (t : τ) :
    final (zoom view update x t) = update t (final (x (view t))) := by
  unfold zoom
  cases x (view t) <;> rfl

/-- The program keeps a property of the state, whichever way it ends. -/
def Keeps (p : σ → Prop) (x : EStateM ε σ α) : Prop := ∀ s, p s → p (final (x s))

/-- Returning a value keeps everything. -/
theorem Keeps.pure {p : σ → Prop} (a : α) : Keeps p (Pure.pure a : EStateM ε σ α) := fun _ => id

/-- A fault keeps everything. -/
theorem Keeps.throw {p : σ → Prop} (e : ε) : Keeps p (throw e : EStateM ε σ α) := fun _ => id

/-- A change keeps what its function keeps. -/
theorem Keeps.modify {p : σ → Prop} {f : σ → σ} (h : ∀ s, p s → p (f s)) :
    Keeps p (modify f : EStateM ε σ PUnit) := h

/-- A sequence keeps what both parts keep. -/
theorem Keeps.bind {p : σ → Prop} {x : EStateM ε σ β} {f : β → EStateM ε σ α} (hx : Keeps p x)
    (hf : ∀ b, Keeps p (f b)) : Keeps p (x >>= f) := by
  intro s hs
  have hmid := hx s hs
  refine final_bind (fun e u hu => ?_) fun b u hu => ?_
  · rwa [hu] at hmid
  · rw [hu] at hmid
    exact hf b u hmid

/-- What the second part of a sequence cannot bring about holds after the first one, if it holds
in the end. -/
theorem final_of_keeps_not {p : σ → Prop} {x : EStateM ε σ β} {f : β → EStateM ε σ α}
    (hf : ∀ b, Keeps (fun s => ¬ p s) (f b)) {s : σ} (h : p (final ((x >>= f) s))) :
    p (final (x s)) := by
  by_cases hfirst : p (final (x s))
  · exact hfirst
  · refine absurd h (final_bind (p := fun t => ¬ p t) (fun e u hu => ?_) fun b u hu => hf b u ?_)
    · rwa [hu] at hfirst
    · rwa [hu] at hfirst

/-- The property holds where a run returns. -/
theorem Keeps.of_ok {p : σ → Prop} {x : EStateM ε σ α} (hx : Keeps p x) {s t : σ} {a : α}
    (hs : p s) (hrun : x s = .ok a t) : p t := by
  have ht := hx s hs
  rwa [hrun] at ht

/-! ## Runs that return -/

/-- Whenever the program returns from a state with the first property, the second one holds
of the value and the state. -/
def Ensures (p : σ → Prop) (x : EStateM ε σ α) (q : α → σ → Prop) : Prop :=
  ∀ s a t, p s → x s = .ok a t → q a t

variable {p : σ → Prop} {q : α → σ → Prop}

/-- A returned value has what holds of it in every state with the first property. -/
theorem Ensures.pure {a : α} (h : ∀ s, p s → q a s) :
    Ensures p (Pure.pure a : EStateM ε σ α) q := by
  intro s b t hs hrun
  obtain ⟨rfl, rfl⟩ := pure_eq_ok.mp hrun
  exact h s hs

/-- A fault ensures everything. -/
theorem Ensures.throw {e : ε} : Ensures p (throw e : EStateM ε σ α) q :=
  fun _ _ _ _ hrun => (throw_eq_ok.mp hrun).elim

/-- The state that is read is the one the program is in. -/
theorem Ensures.get {q : σ → σ → Prop} (h : ∀ s, p s → q s s) :
    Ensures p (get : EStateM ε σ σ) q := by
  intro s u t hs hrun
  obtain ⟨rfl, rfl⟩ := get_eq_ok.mp hrun
  exact h s hs

/-- A change ensures what holds of the changed states. -/
theorem Ensures.modify {f : σ → σ} {q : PUnit → σ → Prop} (h : ∀ s, p s → q ⟨⟩ (f s)) :
    Ensures p (modify f : EStateM ε σ PUnit) q := by
  intro s _ t hs hrun
  rw [← modify_eq_ok.mp hrun]
  exact h s hs

/-- What the first part ensures, the second part may assume. -/
theorem Ensures.bind {x : EStateM ε σ β} {f : β → EStateM ε σ α} {m : β → σ → Prop}
    (hx : Ensures p x m) (hf : ∀ b, Ensures (m b) (f b) q) : Ensures p (x >>= f) q := by
  intro s a t hs hrun
  obtain ⟨b, u, hb, ha⟩ := bind_eq_ok.mp hrun
  exact hf b u a t (hx s b u hs hb) ha

/-- What follows from the second property is ensured too. -/
theorem Ensures.weaken {x : EStateM ε σ α} {q' : α → σ → Prop} (hx : Ensures p x q')
    (h : ∀ a s, q' a s → q a s) : Ensures p x q :=
  fun s a t hs hrun => h a t (hx s a t hs hrun)

/-! ## Changes that a program does not see -/

/-- If the program returns from a state, it returns the same from the changed state, and what it
makes of that one is changed in the same way. -/
def Commutes (g : σ → σ) (x : EStateM ε σ α) (s : σ) : Prop :=
  ∀ a t, x s = .ok a t → x (g s) = .ok a (g t)

section Commutes

variable {g : σ → σ} {s : σ}

/-- Returning a value does not see the change. -/
theorem Commutes.pure (a : α) : Commutes g (Pure.pure a : EStateM ε σ α) s := by
  intro b t hrun
  obtain ⟨rfl, rfl⟩ := pure_eq_ok.mp hrun
  rfl

/-- A fault does not see the change. -/
theorem Commutes.throw (e : ε) : Commutes g (throw e : EStateM ε σ α) s :=
  fun _ _ hrun => (throw_eq_ok.mp hrun).elim

/-- A change of the state that commutes with the change does not see it. -/
theorem Commutes.modify {f : σ → σ} (h : f (g s) = g (f s)) :
    Commutes g (modify f : EStateM ε σ PUnit) s := by
  intro _ t hrun
  obtain rfl := modify_eq_ok.mp hrun
  exact modify_eq_ok.mpr h

/-- A sequence does not see the change if neither of its parts does. -/
theorem Commutes.bind {x : EStateM ε σ β} {f : β → EStateM ε σ α} (hx : Commutes g x s)
    (hf : ∀ b t, x s = .ok b t → Commutes g (f b) t) : Commutes g (x >>= f) s := by
  intro a t hrun
  obtain ⟨b, u, hb, ha⟩ := bind_eq_ok.mp hrun
  rw [bind_of_ok (hx b u hb)]
  exact hf b u hb a t ha

/-- What is used of the state is not changed. -/
theorem Commutes.get_bind {f : σ → EStateM ε σ α} (hsame : f (g s) = f s)
    (hf : Commutes g (f s) s) : Commutes g (get >>= f) s := by
  intro a t hrun
  rw [Homegrown.get_bind] at hrun ⊢
  rw [hsame]
  exact hf a t hrun

end Commutes

/-! ## Runs that may fail -/

/-- The property holds where the run returns, and where it fails the fault is an allowed one. -/
structure EndsIn (r : EStateM.Result ε σ α) (allowed : ε → Prop) (p : α → σ → Prop) : Prop where
  ok : ∀ {a s}, r = .ok a s → p a s
  error : ∀ {e s}, r = .error e s → allowed e

section EndsIn

variable {allowed : ε → Prop} {post : α → σ → Prop} {s : σ}

/-- A run that returns ends well when the property holds there. -/
theorem EndsIn.of_ok {r : EStateM.Result ε σ α} {a : α} (hr : r = .ok a s) (h : post a s) :
    EndsIn r allowed post := by
  subst hr
  refine ⟨fun heq => ?_, fun heq => by cases heq⟩
  simp only [EStateM.Result.ok.injEq] at heq
  obtain ⟨rfl, rfl⟩ := heq
  exact h

/-- A value is returned. -/
theorem EndsIn.pure {a : α} (h : post a s) :
    EndsIn ((Pure.pure a : EStateM ε σ α) s) allowed post := .of_ok rfl h

/-- An allowed fault is raised. -/
theorem EndsIn.throw {e : ε} (h : allowed e) :
    EndsIn ((throw e : EStateM ε σ α) s) allowed post := by
  refine ⟨fun heq => (throw_eq_ok.mp heq).elim, fun heq => ?_⟩
  change EStateM.Result.error e s = _ at heq
  simp only [EStateM.Result.error.injEq] at heq
  exact heq.1 ▸ h

/-- A sequence ends well when its second part does wherever the first one returned. -/
theorem EndsIn.bind {x : EStateM ε σ β} {f : β → EStateM ε σ α} {m : β → σ → Prop}
    (hx : EndsIn (x s) allowed m)
    (hf : ∀ b t, x s = .ok b t → m b t → EndsIn (f b t) allowed post) :
    EndsIn ((x >>= f) s) allowed post := by
  cases hrun : x s with
  | ok b t =>
    rw [bind_of_ok hrun]
    exact hf b t hrun (hx.ok hrun)
  | error e t =>
    rw [bind_of_error hrun]
    refine ⟨fun heq => (by cases heq), fun heq => ?_⟩
    simp only [EStateM.Result.error.injEq] at heq
    exact heq.1 ▸ hx.error hrun

/-- What follows from the property where the run returned holds there too. -/
theorem EndsIn.weaken {r : EStateM.Result ε σ α} {post' : α → σ → Prop} (h : EndsIn r allowed post')
    (hpost : ∀ a s, r = .ok a s → post' a s → post a s) : EndsIn r allowed post :=
  ⟨fun hr => hpost _ _ hr (h.ok hr), h.error⟩

/-- A program on a part of the state ends as it does alone. -/
theorem EndsIn.zoom {τ : Type} {view : τ → σ} {update : τ → σ → τ} {x : EStateM ε σ α} {t : τ}
    {post : α → τ → Prop} (h : EndsIn (x (view t)) allowed fun a s => post a (update t s)) :
    EndsIn (Homegrown.zoom view update x t) allowed post := by
  refine ⟨fun hrun => ?_, fun hrun => ?_⟩
  · obtain ⟨s, hx, rfl⟩ := zoom_eq_ok.mp hrun
    exact h.ok hx
  · unfold Homegrown.zoom at hrun
    cases hx : x (view t) with
    | ok a s =>
      rw [hx] at hrun
      cases hrun
    | error e s =>
      rw [hx] at hrun
      simp only [EStateM.Result.error.injEq] at hrun
      exact hrun.1 ▸ h.error hx

end EndsIn

/-! ## Runs that end clean -/

/-- From a state with the first property, a run that ends in a clean state ends in an allowed fault
or with the second property. A state that is not clean stays so. -/
structure EndsClean (clean : σ → Prop) (p : σ → Prop) (x : EStateM ε σ α) (allowed : ε → Prop)
    (q : α → σ → Prop) : Prop where
  ends : ∀ s, p s → clean (final (x s)) → EndsIn (x s) allowed q
  stays : Keeps (fun s => ¬ clean s) x

namespace EndsClean

variable {clean p p' : σ → Prop} {allowed : ε → Prop} {q q' : α → σ → Prop} {x : EStateM ε σ α}

/-- A value is returned. -/
theorem pure {a : α} (h : ∀ s, p s → q a s) :
    EndsClean clean p (Pure.pure a : EStateM ε σ α) allowed q :=
  ⟨fun s hs _ => .pure (h s hs), Keeps.pure a⟩

/-- An allowed fault is raised. -/
theorem throw {e : ε} (h : allowed e) :
    EndsClean clean p (throw e : EStateM ε σ α) allowed q :=
  ⟨fun _ _ _ => .throw h, Keeps.throw e⟩

/-- The state that is read is the one the program is in. -/
theorem get {q : σ → σ → Prop} (h : ∀ s, p s → q s s) :
    EndsClean clean p (get : EStateM ε σ σ) allowed q :=
  ⟨fun s hs _ => .of_ok rfl (h s hs), fun _ => id⟩

/-- A change of the state cleans nothing. -/
theorem modify {f : σ → σ} {q : PUnit → σ → Prop} (h : ∀ s, p s → q ⟨⟩ (f s))
    (hclean : ∀ s, clean (f s) → clean s) :
    EndsClean clean p (modify f : EStateM ε σ PUnit) allowed q :=
  ⟨fun s hs _ => .of_ok rfl (h s hs), Keeps.modify fun s hs hfs => hs (hclean s hfs)⟩

/-- What holds where the first part returned, the second part may assume. -/
theorem bind {y : EStateM ε σ β} {f : β → EStateM ε σ α} {m : β → σ → Prop}
    (hy : EndsClean clean p y allowed m) (hf : ∀ b, EndsClean clean (m b) (f b) allowed q) :
    EndsClean clean p (y >>= f) allowed q := by
  refine ⟨fun s hs hclean => ?_, hy.stays.bind fun b => (hf b).stays⟩
  have hmid := final_of_keeps_not (fun b => (hf b).stays) hclean
  refine (hy.ends s hs hmid).bind fun b t hrun hm => (hf b).ends t hm ?_
  rwa [bind_of_ok hrun] at hclean

/-- A stronger first property and a weaker second one. -/
theorem weaken (h : EndsClean clean p x allowed q) (hp : ∀ s, p' s → p s)
    (hq : ∀ a s, q a s → q' a s) : EndsClean clean p' x allowed q' :=
  ⟨fun s hs hclean => (h.ends s (hp s hs) hclean).weaken fun a t _ => hq a t, h.stays⟩

/-- A program on a part of the state ends as it does alone. -/
theorem zoom {τ : Type} {view : τ → σ} {update : τ → σ → τ}
    (h : EndsClean clean p x allowed q) (hview : ∀ t s, view (update t s) = s)
    {r : τ → Prop} {r' : α → τ → Prop} (hr : ∀ t, r t → p (view t))
    (hr' : ∀ t a s, r t → q a s → r' a (update t s)) :
    EndsClean (fun t => clean (view t)) r (Homegrown.zoom view update x) allowed r' := by
  refine ⟨fun t ht hclean => .zoom ?_, fun t ht => ?_⟩
  · rw [final_zoom, hview] at hclean
    exact (h.ends _ (hr t ht) hclean).weaken fun a s _ => hr' t a s ht
  · rw [final_zoom]
    change ¬ clean (view (update t _))
    rw [hview]
    exact h.stays _ ht

end EndsClean

end Outcome

/-- What is known of a part of a result. -/
theorem exists_ok_of_map {ε α β : Type} {e : Except ε α} {f : α → β} {y : β}
    (h : e.map f = .ok y) : ∃ x, e = .ok x ∧ f x = y := by
  cases e with
  | error e => cases h
  | ok x => exact ⟨x, rfl, Except.ok.inj h⟩

end Homegrown
