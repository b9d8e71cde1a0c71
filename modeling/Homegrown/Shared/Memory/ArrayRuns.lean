import Homegrown.Shared.Memory.DynamicArray

/-!
# Sequences of calls on growable arrays

`Promise` says what a call owes: with room, the bytes it had and those it appends, in memory that
belongs to its array alone; without room, an array as it was. `along_promise` gives the calls that
keep it over every sequence. A `grow` that returns never leaves its array as it was
(`grow_changes`), so an exhausted arena always costs it the capacity it should have kept.
-/

namespace Homegrown.DynamicArray

/-- `U8`. -/
def ElementType.u8 : ElementType := ⟨1, 1, Nat.one_pos, by decide, 0, rfl⟩

/-- A call on arenas and arrays. -/
inductive ArrayCall (A R : Type) where
  /-- `alloc`, by a caller that is no array. -/
  | alloc (a : A) (request : AllocRequest)
  | grow (r : R) (a : A) (flags : U8)
  | push (r : R) (a : A) (flags : U8) (value : List U8)
  | append (r : R) (a : A) (data : ByteString)

namespace ArrayCall

variable {A R : Type}

/-- The arguments are of the types of the source. -/
def WellTyped (types : R → ElementType) : ArrayCall A R → Prop
  | alloc _ request => request.Valid
  | grow .. => True
  | push r _ _ value => value.length = (types r).size.toNat
  | append r _ _ => (types r).size = 1

/-- The arena has room for what the call asks it for. -/
def Room (types : R → ElementType) (s : ArrayState A R) : ArrayCall A R → Prop
  | alloc a request => HasRoom (s.arenas a) request.align request.bytes
  | grow r a flags => GrowRoom (types r) (s.arrays r) (s.arenas a) flags
  | push r a flags _ => (s.arrays r).cap ≤ (s.arrays r).len →
      GrowRoom (types r) (s.arrays r) (s.arenas a) flags
  | append r a data => AppendRoom (s.arrays r) data (s.arenas a)

/-- Where a comparison of pointers makes the call extend an array in place, the arena goes on
from there. -/
def InPlaceFits (types : R → ElementType) (s : ArrayState A R) : ArrayCall A R → Prop
  | alloc .. => True
  | grow r a _ => GrowsOn (types r) (s.arrays r) (s.arenas a)
  | push r a _ _ => (s.arrays r).cap ≤ (s.arrays r).len →
      GrowsOn (types r) (s.arrays r) (s.arenas a)
  | append r a data => AppendsElsewhere (s.arrays r) data (s.arenas a)

/-- `grow` is called with `NULLPTR_ON_FAIL` on an arena without room. -/
def Exhausted (types : R → ElementType) (s : ArrayState A R) : ArrayCall A R → Prop
  | grow r a flags => flags &&& nullptrOnFail ≠ 0 ∧
      ¬ GrowRoom (types r) (s.arrays r) (s.arenas a) flags
  | _ => False

variable {types : R → ElementType} {s s' : ArrayState A R} {call : ArrayCall A R}

/-- A call with room is not on an exhausted arena. -/
theorem Room.not_exhausted (h : call.Room types s) : ¬ call.Exhausted types s := by
  cases call with
  | grow r a flags => exact fun hex => hex.2 h
  | _ => exact id

variable [DecidableEq R]

/-- The bytes a call appends to an array. -/
def added (r : R) : ArrayCall A R → List U8
  | push r' _ _ value => if r = r' then value else []
  | append r' _ data => if r = r' then data.buf else []
  | alloc .. => []
  | grow .. => []

/-- What a call that finds room leaves: the bytes of every array, with those the call appends
behind them, and every capacity handed out to its array and to no other caller. -/
structure Served (types : R → ElementType) (s : ArrayState A R) (call : ArrayCall A R)
    (s' : ArrayState A R) : Prop where
  contents : ∀ r, (s'.arrays r).contents (types r) s'.memory =
    (s.arrays r).contents (types r) s.memory ++ call.added r
  handed : ∀ r, ∀ x ∈ (s'.arrays r).span (types r), ∃ b ∈ s'.handed, x ∈ b.2
  owner : ∀ r, ∀ x ∈ (s'.arrays r).span (types r), ∀ b ∈ s'.handed, x ∈ b.2 → b.1 = some r

/-- Where the invariant holds, a call only has to get the bytes right. -/
theorem Served.of_owned (hs : Owned types s') (h : ∀ r, (s'.arrays r).contents (types r) s'.memory =
    (s.arrays r).contents (types r) s.memory ++ call.added r) : call.Served types s s' := by
  have hholds : ∀ r, ∀ x ∈ (s'.arrays r).span (types r),
      Holds (types r) s'.handed r (s'.arrays r) := by
    intro r x hx
    rcases hs.arrays r with hzero | hr
    · rw [hzero] at hx
      simp [DASlice.span, DASlice.zero, Span.mem_mk] at hx
    · exact hr
  refine ⟨h, fun r x hx => ?_, fun r x hx b hb hxb => hs.owner_eq (hholds r x hx) hx hb hxb⟩
  obtain ⟨b, hb, -, hxb⟩ := (hholds r x hx).covered x hx
  exact ⟨b, hb, hxb⟩

/-- An appending call serves. -/
theorem Served.of_appended {r : R} (h : Appended types s r (call.added r) s')
    (hothers : ∀ r', r' ≠ r → call.added r' = []) : call.Served types s s' := by
  refine Served.of_owned h.owned fun r' => ?_
  by_cases hr : r' = r
  · rw [hr]
    exact h.contents
  · rw [(h.others r' hr).2, hothers r' hr, List.append_nil]

variable [DecidableEq A]

/-- A call, on arrays whose elements are of the types. -/
def run (posix : Bool) (types : R → ElementType) : ArrayCall A R → ArrayProgram A R Unit
  | alloc a request => do
    let _ ← allocFor posix none a request
  | grow r a flags => DynamicArray.grow posix (types r) r a flags
  | push r a flags value => PUSH posix (types r) r a flags value
  | append r a data => appendToSimpleBuffer posix data r a

/-- The call returns, and its array is as it was. -/
def Survives (posix : Bool) (types : R → ElementType) (s : ArrayState A R) :
    ArrayCall A R → Prop
  | grow r a flags => ∃ s', DynamicArray.grow posix (types r) r a flags s = .ok () s' ∧
      s'.arrays r = s.arrays r
  | _ => True

/-- A call with room serves, and a `grow` without room that may fail leaves its array alone. -/
structure Promise (posix : Bool) (types : R → ElementType) (s : ArrayState A R)
    (call : ArrayCall A R) : Prop where
  served : call.Room types s →
    ∃ s', call.run posix types s = .ok () s' ∧ call.Served types s s'
  survives : call.Exhausted types s → call.Survives posix types s

/-- Every call of a sequence meets the property, in the state the calls before it left. -/
def Along (posix : Bool) (types : R → ElementType)
    (p : ArrayState A R → ArrayCall A R → Prop) : ArrayState A R → List (ArrayCall A R) → Prop
  | _, [] => True
  | s, call :: calls =>
    p s call ∧ ∀ s', call.run posix types s = .ok () s' → Along posix types p s' calls

/-- A call that finds room, and extends in place only where it can, serves and keeps the
invariant. -/
theorem returns (posix : Bool) (hs : Owned types s) (htyped : call.WellTyped types)
    (hroom : call.Room types s) (hfits : call.InPlaceFits types s) :
    ∃ s', call.run posix types s = .ok () s' ∧ Owned types s' ∧ call.Served types s s' := by
  cases call with
  | alloc a request =>
    obtain ⟨p, after, memory, halloc, hfresh, -⟩ :=
      allocFor_returns posix none (hs.wellFormed a) htyped hroom
    have howned := hs.hand hfresh none
    refine ⟨_, ?_, howned, Served.of_owned howned fun r => ?_⟩
    · rw [run, bind_of_ok halloc]
      rfl
    · rw [added, List.append_nil]
      exact hs.contents_fresh hfresh r
  | grow r a flags =>
    obtain ⟨s', hrun, hbig, -⟩ := grow_returns posix hs hroom hfits
    refine ⟨s', hrun, hbig.owned, Served.of_owned hbig.owned fun r' => ?_⟩
    rw [added, List.append_nil]
    exact hbig.contents r'
  | push r a flags value =>
    obtain ⟨s', hrun, happended⟩ :=
      PUSH_returns posix hs htyped fun hfull => ⟨hroom hfull, hfits hfull⟩
    refine ⟨s', hrun, happended.owned, Served.of_appended (r := r) ?_ fun r' hr => if_neg hr⟩
    rw [added, if_pos rfl]
    exact happended
  | append r a data =>
    obtain ⟨s', hrun, happended⟩ := append_returns posix hs htyped hroom hfits
    refine ⟨s', hrun, happended.owned, Served.of_appended (r := r) ?_ fun r' hr => if_neg hr⟩
    rw [added, if_pos rfl]
    exact happended

/-- A sequence goes on from where its first call ends. -/
theorem Along.cons {posix : Bool} {p : ArrayState A R → ArrayCall A R → Prop}
    {calls : List (ArrayCall A R)} (h : p s call)
    (hrest : Along posix types p (final (call.run posix types s)) calls) :
    Along posix types p s (call :: calls) := by
  refine ⟨h, fun s' hrun => ?_⟩
  rw [hrun] at hrest
  exact hrest

/-- Calls that all find room, and extend an array in place only where its arena goes on from
there, all keep their promise. -/
theorem along_promise (posix : Bool) {calls : List (ArrayCall A R)} (hs : Owned types s)
    (h : Along posix types (fun s call => call.WellTyped types ∧ call.Room types s ∧
      call.InPlaceFits types s) s calls) :
    Along posix types (fun s call => call.Promise posix types s) s calls := by
  induction calls generalizing s with
  | nil => trivial
  | cons call calls ih =>
    obtain ⟨⟨htyped, hroom, hfits⟩, hrest⟩ := h
    obtain ⟨s', hrun, hs', hserved⟩ := returns posix hs htyped hroom hfits
    refine ⟨⟨fun _ => ⟨s', hrun, hserved⟩, fun hex => (hroom.not_exhausted hex).elim⟩, ?_⟩
    intro s'' hrun'
    rw [hrun, EStateM.Result.ok.injEq] at hrun'
    rw [← hrun'.2]
    exact ih hs' (hrest s' hrun)

/-- One arena, and an array that has nothing yet. -/
def unused (arena : Arena) : ArrayState Unit Unit where
  arenas := fun _ => arena
  arrays := fun _ => .zero
  memory := fun _ => 0
  handed := []

theorem unused_owned {arena : Arena} (h : arena.WellFormed) (hpos : 0 < arena.curFree.toNat) :
    Owned (fun _ => .u8) (unused arena) where
  wellFormed := fun _ => h
  curFree_pos := fun _ => hpos
  free_disjoint := fun a b hne => absurd (Subsingleton.elim a b) hne
  handed_disjoint := List.Pairwise.nil
  handed_free := fun _ hb => absurd hb List.not_mem_nil
  arrays := fun _ => Or.inl rfl

/-- Two bytes, one more in the capacity they left, and a move to twice the capacity. -/
theorem along_promise_three : Along true (fun _ => .u8)
    (fun s call => call.Promise true (fun _ => .u8) s) (unused ⟨16, 16, 64⟩)
    [.append () () ⟨[1, 2], by decide⟩, .push () () 0 [3], .grow () () 0] :=
  along_promise true (unused_owned ⟨by decide, by decide⟩ (by decide))
    (.cons ⟨rfl, show AppendRoom _ _ _ by decide, show AppendsElsewhere _ _ _ by decide⟩
      (.cons ⟨rfl, show _ → GrowRoom _ _ _ _ by decide +kernel,
          show _ → GrowsOn _ _ _ by decide +kernel⟩
        (.cons ⟨trivial, show GrowRoom _ _ _ _ by decide +kernel,
          show GrowsOn _ _ _ by decide +kernel⟩ trivial)))

/-! ## Arenas without room -/

/-- Only a call with room keeps its promise, where `grow` may fail. -/
theorem Promise.not_exhausted {posix : Bool} (hs : Owned types s)
    (h : call.Promise posix types s) : ¬ call.Exhausted types s := by
  intro hex
  have hsurvives := h.survives hex
  cases call with
  | grow r a flags =>
    obtain ⟨s', hrun, hsame⟩ := hsurvives
    exact grow_changes hs hrun (congrArg DASlice.cap hsame)
  | _ => exact hex.elim

/-- An array that cannot grow is left with a capacity it does not have. -/
theorem calls_break_promise :
    ¬ ∀ (posix : Bool) (types : Unit → ElementType) (s : ArrayState Unit Unit), Owned types s →
      ∀ calls, Along posix types (fun s call => call.WellTyped types ∧
        (call.Room types s ∨ call.Exhausted types s)) s calls →
      Along posix types (fun s call => call.Promise posix types s) s calls := by
  intro h
  have howned : Owned (fun _ => .u8) (unused ⟨1, 1, 2⟩) :=
    unused_owned ⟨by decide, by decide⟩ (by decide)
  have hex : (ArrayCall.grow () () nullptrOnFail).Exhausted (fun _ => .u8) (unused ⟨1, 1, 2⟩) :=
    ⟨by decide, by decide⟩
  exact Promise.not_exhausted howned
    (h true _ _ howned [.grow () () nullptrOnFail]
      ⟨⟨trivial, Or.inr hex⟩, fun _ _ => trivial⟩).1 hex

end ArrayCall

end Homegrown.DynamicArray
