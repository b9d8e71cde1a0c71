import Mathlib.Data.List.Nodup
import Mathlib.Tactic.Tauto

/-!
# Keys in the order of their first insertion

What a collection of keys is for: a list that an insertion extends by a key it does not
have. `registerAll` is the list after a sequence of calls.
-/

namespace Homegrown

/-- A call of a collection of keys. -/
inductive KeyCall (K : Type) where
  | insert (key : K)
  | contains (key : K)

/-- The key of a call. -/
def KeyCall.key {K : Type} : KeyCall K → K
  | insert key => key
  | contains key => key

section Registry

variable {K : Type} [DecidableEq K] {seen : List K} {calls : List (KeyCall K)} {key : K}

/-- The keys after a call. -/
def KeyCall.register (seen : List K) : KeyCall K → List K
  | insert key => if key ∈ seen then seen else seen ++ [key]
  | contains _ => seen

/-- The keys after calls. -/
def registerAll (seen : List K) (calls : List (KeyCall K)) : List K :=
  calls.foldl KeyCall.register seen

/-- The calls are registered from the first one on. -/
theorem registerAll_cons (call : KeyCall K) :
    registerAll seen (call :: calls) = registerAll (call.register seen) calls := rfl

/-- A call registers the key it inserts. -/
theorem KeyCall.mem_register (call : KeyCall K) :
    key ∈ call.register seen ↔ key ∈ seen ∨ .insert key = call := by
  cases call with
  | insert key' =>
    rw [register, KeyCall.insert.injEq]
    split
    · constructor
      · exact Or.inl
      · rintro (h | rfl) <;> assumption
    · rw [List.mem_append, List.mem_singleton]
  | contains key' => simp [register]

/-- The keys after calls are those before, and those that were inserted. -/
theorem mem_registerAll : key ∈ registerAll seen calls ↔ key ∈ seen ∨ .insert key ∈ calls := by
  induction calls generalizing seen with
  | nil => simp [registerAll]
  | cons call calls ih =>
    rw [registerAll_cons, ih, call.mem_register, List.mem_cons, or_assoc]

/-- No key is registered twice. -/
theorem KeyCall.nodup_register (h : seen.Nodup) (call : KeyCall K) :
    (call.register seen).Nodup := by
  cases call with
  | insert key =>
    rw [register]
    split
    · exact h
    · rename_i hkey
      exact List.nodup_append_comm.mp (List.nodup_cons.mpr ⟨hkey, h⟩)
  | contains key => exact h

/-- No key is there twice. -/
theorem nodup_registerAll (h : seen.Nodup) (calls : List (KeyCall K)) :
    (registerAll seen calls).Nodup := by
  induction calls generalizing seen with
  | nil => exact h
  | cons call calls ih => exact ih (call.nodup_register h)

end Registry

end Homegrown
