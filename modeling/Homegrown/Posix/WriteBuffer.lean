import Homegrown.Core.Loop
import Homegrown.Freestanding.Log

/-!
# The log buffers of POSIX programs

Bytes are collected in a buffer and handed to `write`, which may accept a part of them or
fail. A flush empties the buffer also when it fails, so the bytes that were not accepted are
lost: what was accepted and what is in the buffer make up what was appended as long as no
call of `write` has failed, and never again after one has (`runCalls_accounts_iff`).
-/

namespace Homegrown.Posix

open Freestanding (newlineFlag flushFlag)

/-- A file descriptor, by what `write` does with it: how many of the bytes it is given the
call with a number accepts, or that it fails. -/
structure Descriptor where
  write : Nat → List U8 → Option Nat
  pos : ∀ {call data n}, data ≠ [] → write call data = some n → 0 < n
  le_length : ∀ {call data n}, write call data = some n → n ≤ data.length

/-- `WriteBuffer`, with what has happened so far: the calls of `write`, how many of them
failed, the bytes they accepted, and the bytes that were copied into the buffer. -/
structure WriteBuffer where
  content : List U8
  cap : Nat
  calls : Nat
  errors : Nat
  accepted : List U8
  appended : List U8
  deriving DecidableEq, Repr

/-- Why a call does not return. -/
inductive WriteFault where
  /-- A store past the capacity of the buffer. -/
  | outOfBounds
  /-- The bound on rounds given to the model ran out. -/
  | outOfFuel
  deriving DecidableEq, Repr

/-- Programs on a buffer. -/
abbrev Writer := EStateM WriteFault WriteBuffer

section Programs

variable (d : Descriptor)

/-- `flushBufferWithFileDescriptor`, for the bytes that are left. -/
def flushBufferWithFileDescriptor (data : List U8) (b : WriteBuffer) : Bool × WriteBuffer :=
  if hdata : data = [] then (true, b)
  else
    match hwrite : d.write b.calls data with
    | none => (false, { b with calls := b.calls + 1, errors := b.errors + 1 })
    | some n =>
      flushBufferWithFileDescriptor (data.drop n)
        { b with calls := b.calls + 1, accepted := b.accepted ++ data.take n }
termination_by data.length
decreasing_by
  have hpos := d.pos hdata hwrite
  have hlength := List.length_pos_iff.mpr hdata
  rw [List.length_drop]
  omega

/-- `flushBufferWithWriter`. -/
def flushBufferWithWriter : Writer Bool := do
  let b ← get
  let (result, b) := flushBufferWithFileDescriptor d b.content b
  set { b with content := [] }
  return result

/-- Bytes are copied behind the content. -/
def store (data : List U8) : Writer Unit := do
  let b ← get
  if b.content.length + data.length ≤ b.cap then
    set { b with content := b.content ++ data, appended := b.appended ++ data }
  else
    throw .outOfBounds

/-- `if (!x) { return false; }`, and then the rest. -/
def andThen (x y : Writer Bool) : Writer Bool := do
  if ← x then y else return false

/-- A flush of a buffer for which the test says that it is full. -/
def flushWhen (full : WriteBuffer → Bool) : Writer Bool := do
  let b ← get
  if full b then flushBufferWithWriter d else return true

/-- The newline in `handleFlags`. -/
def putNewline : Writer Bool :=
  andThen (flushWhen d fun b => b.cap ≤ b.content.length) do
    store [0x0A]
    return true

/-- `handleFlags`. -/
def handleFlags (flags : U8) : Writer Bool :=
  andThen (if flags &&& newlineFlag ≠ 0 then putNewline d else return true)
    (if flags &&& flushFlag ≠ 0 then flushBufferWithWriter d else return true)

/-- A round of the loop in `appendToFlushBufferWithWriter`, for the bytes that are left. -/
def appendRound (data : List U8) : Writer (List U8 ⊕ Bool) := do
  if data = [] then
    return .inr true
  else
    let b ← get
    let bytesToWrite := min (b.cap - b.content.length) data.length
    store (data.take bytesToWrite)
    if ← flushWhen d fun b => b.cap = b.content.length then
      return .inl (data.drop bytesToWrite)
    else
      return .inr false

/-- `appendToFlushBufferWithWriter`. -/
def appendToFlushBufferWithWriter (rounds : Nat) (data : ByteString) (flags : U8) : Writer Bool :=
  andThen (loop .outOfFuel (appendRound d) rounds data.buf) (handleFlags d flags)

/-- `appendZeroToFlushBufferWithWriter`: its loop is that of
`appendToFlushBufferWithWriter`, on zero bytes. -/
def appendZeroToFlushBufferWithWriter (rounds : Nat) (bytes : U64) (flags : U8) : Writer Bool :=
  appendToFlushBufferWithWriter d rounds (.zeros bytes) flags

/-- A call of the three functions. -/
inductive WriteCall where
  | append (data : ByteString) (flags : U8)
  | appendZero (bytes : U64) (flags : U8)
  | flush

/-- The call. -/
def WriteCall.run (rounds : Nat) : WriteCall → Writer Bool
  | append data flags => appendToFlushBufferWithWriter d rounds data flags
  | appendZero bytes flags => appendZeroToFlushBufferWithWriter d rounds bytes flags
  | flush => flushBufferWithWriter d

/-- The newline that the flags ask for. -/
def newline (flags : U8) : List U8 := if flags &&& newlineFlag ≠ 0 then [0x0A] else []

/-- What the call appends when it returns true. -/
def WriteCall.output : WriteCall → List U8
  | append data flags => data.buf ++ newline flags
  | appendZero bytes flags => List.replicate bytes.toNat 0 ++ newline flags
  | flush => []

/-- A call that was made: its result, and the buffer before and after it. -/
structure WriteStep where
  call : WriteCall
  before : WriteBuffer
  result : Bool
  after : WriteBuffer

/-- Calls one after the other. -/
def runCalls (rounds : Nat) : List WriteCall → Writer (List WriteStep)
  | [] => return []
  | call :: calls => do
    let before ← get
    let result ← call.run d rounds
    let after ← get
    let steps ← runCalls rounds calls
    return ⟨call, before, result, after⟩ :: steps

end Programs

/-! ## What a program does to the account -/

namespace WriteBuffer

/-- What was accepted and what is in the buffer make up what was appended. -/
def Accounts (b : WriteBuffer) : Prop := b.accepted ++ b.content = b.appended

instance (b : WriteBuffer) : Decidable b.Accounts :=
  inferInstanceAs (Decidable (b.accepted ++ b.content = b.appended))

/-- The content fits, nothing is missing without an error, and an error costs a byte. -/
structure Valid (b : WriteBuffer) : Prop where
  cap_pos : 0 < b.cap
  length_le : b.content.length ≤ b.cap
  accounts : b.errors = 0 → b.Accounts
  missing : b.accepted.length + b.content.length + b.errors ≤ b.appended.length

/-- The account is kept exactly without an error. -/
theorem Valid.accounts_iff {b : WriteBuffer} (h : b.Valid) : b.Accounts ↔ b.errors = 0 := by
  constructor
  · intro haccounts
    have hlength := congrArg List.length haccounts
    rw [List.length_append] at hlength
    have hmissing := h.missing
    omega
  · exact h.accounts

/-- From `b` to `b'` the bytes `out` were appended, or a part of them and then a call of
`write` failed. -/
structure Appends (out : List U8) (b : WriteBuffer) (ok : Bool) (b' : WriteBuffer) : Prop where
  valid : b'.Valid
  cap_eq : b'.cap = b.cap
  whole : ok = true → b'.appended = b.appended ++ out ∧ b'.errors = b.errors
  part : ok = false → (∃ copied, copied <+: out ∧ b'.appended = b.appended ++ copied) ∧
    b'.errors = b.errors + 1

section Steps

variable {d : Descriptor} {b b' b'' : WriteBuffer} {data out out' : List U8} {ok ok' : Bool}

theorem Valid.appends_nil (h : b.Valid) : Appends [] b true b :=
  ⟨h, rfl, fun _ => ⟨(List.append_nil _).symm, rfl⟩, fun hfalse => by cases hfalse⟩

/-- A program that succeeds is continued. -/
theorem Appends.trans (h : Appends out b true b') (h' : Appends out' b' ok b'') :
    Appends (out ++ out') b ok b'' := by
  obtain ⟨happended, herrors⟩ := h.whole rfl
  refine ⟨h'.valid, h'.cap_eq.trans h.cap_eq, fun hok => ?_, fun hfalse => ?_⟩
  · obtain ⟨happended', herrors'⟩ := h'.whole hok
    rw [happended', happended, List.append_assoc]
    exact ⟨rfl, herrors'.trans herrors⟩
  · obtain ⟨⟨copied, hprefix, happended'⟩, herrors'⟩ := h'.part hfalse
    refine ⟨⟨out ++ copied, List.prefix_append_right_inj out |>.mpr hprefix, ?_⟩, ?_⟩
    · rw [happended', happended, List.append_assoc]
    · rw [herrors', herrors]

/-- A program that fails is not. -/
theorem Appends.weaken (h : Appends out b false b') (out' : List U8) :
    Appends (out ++ out') b false b' := by
  obtain ⟨⟨copied, hprefix, happended⟩, herrors⟩ := h.part rfl
  exact ⟨h.valid, h.cap_eq, fun hok => (by cases hok),
    fun _ => ⟨⟨copied, hprefix.trans (List.prefix_append _ _), happended⟩, herrors⟩⟩

end Steps

end WriteBuffer

/-! ## The steps -/

section Steps

open WriteBuffer

variable {d : Descriptor} {b : WriteBuffer} {data out out' : List U8}

/-- The loop of a flush: all bytes are accepted, or a part of them before an error. -/
theorem flushBufferWithFileDescriptor_spec (data : List U8) (b : WriteBuffer) :
    ∃ r b', flushBufferWithFileDescriptor d data b = (r, b') ∧ b'.content = b.content ∧
      b'.cap = b.cap ∧ b'.appended = b.appended ∧
      (r = true → b'.errors = b.errors ∧ b'.accepted = b.accepted ++ data) ∧
      (r = false → b'.errors = b.errors + 1 ∧
        b'.accepted.length < b.accepted.length + data.length) := by
  induction hn : data.length using Nat.strong_induction_on generalizing data b with
  | _ n ih =>
    subst hn
    rw [flushBufferWithFileDescriptor]
    split
    · rename_i hdata
      subst hdata
      exact ⟨true, b, rfl, rfl, rfl, rfl, fun _ => ⟨rfl, (List.append_nil _).symm⟩,
        fun hfalse => by cases hfalse⟩
    · rename_i hdata
      have hlength := List.length_pos_iff.mpr hdata
      split
      · exact ⟨false, _, rfl, rfl, rfl, rfl, fun htrue => (by cases htrue),
          fun _ => ⟨rfl, by dsimp only; omega⟩⟩
      · rename_i n hwrite
        have hpos := d.pos hdata hwrite
        have hle := d.le_length hwrite
        obtain ⟨r, b', hrun, hcontent, hcap, happended, htrue, hfalse⟩ :=
          ih (data.drop n).length (by rw [List.length_drop]; omega) (data.drop n)
            { b with calls := b.calls + 1, accepted := b.accepted ++ data.take n } rfl
        refine ⟨r, b', hrun, hcontent, hcap, happended, fun hr => ?_, fun hr => ?_⟩
        · obtain ⟨herrors, haccepted⟩ := htrue hr
          refine ⟨herrors, ?_⟩
          rw [haccepted, List.append_assoc, List.take_append_drop]
        · obtain ⟨herrors, haccepted⟩ := hfalse hr
          refine ⟨herrors, ?_⟩
          rw [List.length_append, List.length_take, List.length_drop] at haccepted
          omega

/-- A flush appends nothing, and empties the buffer. -/
theorem flushBufferWithWriter_returns (d : Descriptor) (h : b.Valid) :
    ReturnsWith (flushBufferWithWriter d b) fun ok b' => Appends [] b ok b' ∧ b'.content = [] := by
  obtain ⟨r, b', hrun, hcontent, hcap, happended, htrue, hfalse⟩ :=
    flushBufferWithFileDescriptor_spec (d := d) b.content b
  refine ⟨r, { b' with content := [] }, ?_, ?_, rfl⟩
  · rw [flushBufferWithWriter, get_bind, hrun]
    rfl
  · have hmissing := h.missing
    have haccounts := h.accounts
    cases r with
    | true =>
      obtain ⟨herrors, haccepted⟩ := htrue rfl
      refine ⟨⟨?_, Nat.zero_le _, fun hnone => ?_, ?_⟩, hcap, fun _ => ⟨?_, herrors⟩,
        fun hfalse => by cases hfalse⟩
      · exact hcap ▸ h.cap_pos
      · change b'.accepted ++ [] = b'.appended
        rw [List.append_nil, haccepted, happended]
        exact haccounts (herrors ▸ hnone)
      · change b'.accepted.length + 0 + b'.errors ≤ b'.appended.length
        rw [haccepted, happended, herrors, List.length_append]
        omega
      · exact happended.trans (List.append_nil _).symm
    | false =>
      obtain ⟨herrors, haccepted⟩ := hfalse rfl
      refine ⟨⟨?_, Nat.zero_le _, fun hnone => ?_, ?_⟩, hcap, fun htrue => (by cases htrue),
        fun _ => ⟨⟨[], List.prefix_rfl, ?_⟩, herrors⟩⟩
      · exact hcap ▸ h.cap_pos
      · change b'.errors = 0 at hnone
        omega
      · change b'.accepted.length + 0 + b'.errors ≤ b'.appended.length
        rw [happended, herrors]
        omega
      · exact happended.trans (List.append_nil _).symm

/-- A store of bytes for which there is room. -/
theorem store_returns (h : b.Valid) (hroom : b.content.length + data.length ≤ b.cap) :
    ReturnsWith (store data b) fun _ b' =>
      Appends data b true b' ∧ b'.content = b.content ++ data := by
  refine ⟨⟨⟩, { b with content := b.content ++ data, appended := b.appended ++ data }, ?_, ?_, rfl⟩
  · rw [store, get_bind, if_pos hroom]
    rfl
  · refine ⟨⟨h.cap_pos, ?_, fun hnone => ?_, ?_⟩, rfl, fun _ => ⟨rfl, rfl⟩,
      fun hfalse => by cases hfalse⟩
    · dsimp only
      rw [List.length_append]
      exact hroom
    · change b.accepted ++ (b.content ++ data) = b.appended ++ data
      rw [← h.accounts hnone, List.append_assoc]
    · have hmissing := h.missing
      dsimp only
      rw [List.length_append, List.length_append]
      omega

theorem andThen_returns {x y : Writer Bool}
    (hx : ReturnsWith (x b) fun ok b' => Appends out b ok b')
    (hy : ∀ b', Appends out b true b' → ReturnsWith (y b') fun ok b'' => Appends out' b' ok b'') :
    ReturnsWith (andThen x y b) fun ok b' => Appends (out ++ out') b ok b' := by
  refine hx.bind fun ok b' hb' => ?_
  cases ok with
  | true => exact (hy b' hb').weaken fun ok b'' hb'' => hb'.trans hb''
  | false => exact ReturnsWith.pure (hb'.weaken out')

/-- A flush, if the test says so. -/
theorem flushWhen_returns (d : Descriptor) (h : b.Valid) (full : WriteBuffer → Bool) :
    ReturnsWith (flushWhen d full b) fun ok b' =>
      Appends [] b ok b' ∧ b'.content = if full b then [] else b.content := by
  unfold flushWhen
  rw [get_bind]
  split
  · exact flushBufferWithWriter_returns d h
  · exact ReturnsWith.pure ⟨h.appends_nil, rfl⟩

theorem putNewline_returns (d : Descriptor) (h : b.Valid) :
    ReturnsWith (putNewline d b) fun ok b' => Appends [0x0A] b ok b' := by
  unfold putNewline
  refine (flushWhen_returns d h _).bind fun ok b₁ ⟨hb₁, hcontent⟩ => ?_
  cases ok with
  | false => exact ReturnsWith.pure (hb₁.weaken [0x0A])
  | true =>
    have hroom : b₁.content.length + [(0x0A : U8)].length ≤ b₁.cap := by
      have hpos := h.cap_pos
      rw [hcontent, hb₁.cap_eq, List.length_singleton]
      split
      · exact hpos
      · rename_i hfull
        rw [decide_eq_true_iff] at hfull
        omega
    refine (store_returns hb₁.valid hroom).bind fun _ b₂ ⟨hb₂, _⟩ => ?_
    exact ReturnsWith.pure (hb₁.trans hb₂)

/-- `handleFlags` appends the newline that the flags ask for. -/
theorem handleFlags_returns (d : Descriptor) (h : b.Valid) (flags : U8) :
    ReturnsWith (handleFlags d flags b) fun ok b' => Appends (newline flags) b ok b' := by
  have hreturns : ReturnsWith (handleFlags d flags b) fun ok b' =>
      Appends (newline flags ++ []) b ok b' := by
    refine andThen_returns ?_ fun b' hb' => ?_
    · unfold newline
      split
      · exact putNewline_returns d h
      · exact ReturnsWith.pure h.appends_nil
    · split
      · exact (flushBufferWithWriter_returns d hb'.valid).weaken fun ok b'' hb'' => hb''.1
      · exact ReturnsWith.pure hb'.valid.appends_nil
  rwa [List.append_nil] at hreturns

/-- What a round of the loop leaves to do. A full buffer costs a round more. -/
def pending (data : List U8) (b : WriteBuffer) : Nat :=
  2 * data.length + if b.content.length = b.cap then 1 else 0

/-- A round appends the next bytes, or finds a full buffer and empties it. -/
theorem appendRound_returns (d : Descriptor) (h : b.Valid) (data : List U8) :
    ReturnsWith (appendRound d data b) fun r b' => match r with
      | .inl left => (∃ copied, data = copied ++ left ∧ Appends copied b true b') ∧
          pending left b' < pending data b
      | .inr ok => Appends data b ok b' := by
  unfold appendRound
  split
  · rename_i hdata
    rw [hdata]
    exact ReturnsWith.pure h.appends_nil
  · rename_i hdata
    have hdata' := List.length_pos_iff.mpr hdata
    have hcap := h.cap_pos
    have hle := h.length_le
    rw [get_bind]
    generalize hn : min (b.cap - b.content.length) data.length = n
    have htake : (data.take n).length = n := by
      rw [List.length_take]
      omega
    refine (store_returns h (by rw [htake]; omega)).bind fun _ b₁ ⟨hb₁, hcontent⟩ => ?_
    have hlength := congrArg List.length hcontent
    rw [List.length_append, htake] at hlength
    refine (flushWhen_returns d hb₁.valid _).bind fun ok b₂ ⟨hb₂, hcontent₂⟩ => ?_
    have hsplit := List.take_append_drop n data
    cases ok with
    | false =>
      apply ReturnsWith.pure
      have hpart := (hb₁.trans hb₂).weaken (data.drop n)
      rwa [List.append_nil, hsplit] at hpart
    | true =>
      apply ReturnsWith.pure
      refine ⟨⟨data.take n, hsplit.symm, ?_⟩, ?_⟩
      · simpa using hb₁.trans hb₂
      · have hcapEq := hb₂.cap_eq.trans hb₁.cap_eq
        have hne : b₂.content.length ≠ b₂.cap := by
          rw [hcontent₂, hcapEq]
          split
          · exact hcap.ne
          · rename_i hfull
            rw [decide_eq_true_iff, hb₁.cap_eq] at hfull
            exact fun heq => hfull heq.symm
        rw [pending, pending, if_neg hne, List.length_drop]
        split <;> omega

/-- The loop appends the data. -/
theorem loop_appendRound_returns (d : Descriptor) (h : b.Valid) (data : List U8) {rounds : Nat}
    (hrounds : 2 * data.length + 1 < rounds) :
    ReturnsWith (loop .outOfFuel (appendRound d) rounds data b) fun ok b' =>
      Appends data b ok b' := by
  apply loop_returns (fun left b' => ∃ copied, data = copied ++ left ∧ Appends copied b true b')
    pending
  · rintro left b₁ ⟨copied, rfl, hb₁⟩
    apply (appendRound_returns d hb₁.valid left).weaken
    rintro (next | ok) b₂ hround
    · obtain ⟨⟨more, rfl, hb₂⟩, hpending⟩ := hround
      exact ⟨⟨copied ++ more, (List.append_assoc _ _ _).symm, hb₁.trans hb₂⟩, hpending⟩
    · exact hb₁.trans hround
  · exact ⟨[], rfl, h.appends_nil⟩
  · unfold pending
    split <;> omega

/-- A call appends its output, or a part of it and then a call of `write` failed. -/
theorem WriteCall.run_returns (d : Descriptor) (h : b.Valid) (call : WriteCall) {rounds : Nat}
    (hrounds : 2 ^ 65 < rounds) :
    ReturnsWith (call.run d rounds b) fun ok b' => Appends call.output b ok b' := by
  have happend (data : ByteString) (flags : U8) :
      ReturnsWith (appendToFlushBufferWithWriter d rounds data flags b) fun ok b' =>
        Appends (data.buf ++ newline flags) b ok b' := by
    have hlen := data.length_lt
    exact andThen_returns (loop_appendRound_returns d h data.buf (by omega)) fun b' hb' =>
      handleFlags_returns d hb'.valid flags
  cases call with
  | append data flags => exact happend data flags
  | appendZero bytes flags => exact happend (.zeros bytes) flags
  | flush => exact (flushBufferWithWriter_returns d h).weaken fun _ _ hb' => hb'.1

end Steps

/-! ## Runs -/

/-- A buffer that nothing was written to. -/
def WriteBuffer.fresh (cap : Nat) : WriteBuffer := ⟨[], cap, 0, 0, [], []⟩

/-- The call appended its output, or a part of it and then returned false because a call of
`write` failed during it. -/
structure WriteStep.Reports (step : WriteStep) : Prop where
  whole : step.result = true → step.after.appended = step.before.appended ++ step.call.output
  part : step.result = false → ∃ copied, copied <+: step.call.output ∧
    step.after.appended = step.before.appended ++ copied
  failed : step.result = false → step.before.errors < step.after.errors

section Runs

open WriteBuffer

variable {b : WriteBuffer}

theorem WriteBuffer.Appends.reports {step : WriteStep}
    (h : Appends step.call.output step.before step.result step.after) : step.Reports :=
  ⟨fun hr => (h.whole hr).1, fun hr => (h.part hr).1, fun hr => by
    rw [(h.part hr).2]
    exact Nat.lt_succ_self _⟩

theorem fresh_valid {cap : Nat} (hcap : 0 < cap) : (fresh cap).Valid :=
  ⟨hcap, Nat.zero_le _, fun _ => rfl, le_rfl⟩

/-- Every call of a run keeps the buffer valid and reports what it did. -/
theorem runCalls_returns (d : Descriptor) (h : b.Valid) (calls : List WriteCall) {rounds : Nat}
    (hrounds : 2 ^ 65 < rounds) :
    ReturnsWith (runCalls d rounds calls b) fun steps _ =>
      ∀ step ∈ steps, step.after.Valid ∧ step.Reports := by
  induction calls generalizing b with
  | nil => exact ReturnsWith.pure (by simp)
  | cons call calls ih =>
    rw [runCalls, get_bind]
    refine (call.run_returns d h hrounds).bind fun result b₁ hb₁ => ?_
    rw [get_bind]
    refine (ih hb₁.valid).bind fun steps b₂ hsteps => ?_
    apply ReturnsWith.pure
    intro step hstep
    rcases List.mem_cons.mp hstep with rfl | hstep
    · refine ⟨hb₁.valid, ?_⟩
      apply Appends.reports
      exact hb₁
    · exact hsteps step hstep

/-- In every state of a run the accepted bytes and the content make up what was appended
exactly when no call of `write` has failed so far, and a call returns false only if one
failed during it. -/
theorem runCalls_accounts_iff (d : Descriptor) {cap : Nat} (hcap : 0 < cap)
    (calls : List WriteCall) {rounds : Nat} (hrounds : 2 ^ 65 < rounds) :
    ReturnsWith (runCalls d rounds calls (fresh cap)) fun steps _ =>
      ∀ step ∈ steps, (step.after.Accounts ↔ step.after.errors = 0) ∧ step.Reports :=
  (runCalls_returns d (fresh_valid hcap) calls hrounds).weaken fun _ _ hsteps step hstep =>
    ⟨(hsteps step hstep).1.accounts_iff, (hsteps step hstep).2⟩

end Runs

/-- A descriptor that fails once and accepts one byte at a time otherwise. -/
def Descriptor.failsAt (k : Nat) : Descriptor where
  write call data := if call = k then none else some (min 1 data.length)
  pos hdata hwrite := by
    have hlength := List.length_pos_iff.mpr hdata
    split at hwrite
    · cases hwrite
    · rw [← Option.some.inj hwrite]
      omega
  le_length hwrite := by
    split at hwrite
    · cases hwrite
    · rw [← Option.some.inj hwrite]
      exact min_le_right _ _

/-- A buffer of four bytes, and an error in the middle of the second flush. -/
theorem runCalls_accounts_iff_four :
    ReturnsWith (runCalls (.failsAt 3) (2 ^ 65 + 1)
      [.append ⟨text "hello", by decide⟩ newlineFlag, .appendZero 2 flushFlag, .flush]
      (.fresh 4)) fun steps _ =>
        ∀ step ∈ steps, (step.after.Accounts ↔ step.after.errors = 0) ∧ step.Reports :=
  runCalls_accounts_iff (.failsAt 3) (by decide) _ (Nat.lt_succ_self _)

/-- When the first call of `write` fails, the byte that was to be written is gone. -/
theorem flush_loses_bytes :
    ¬ ∀ (d : Descriptor) (cap : Nat) (calls : List WriteCall) (rounds : Nat), 0 < cap →
      2 ^ 65 < rounds → ReturnsWith (runCalls d rounds calls (.fresh cap)) fun steps _ =>
        ∀ step ∈ steps, step.after.Accounts ∧ step.Reports := by
  intro hclaim
  let data : ByteString := ⟨[97], by decide⟩
  let lost : WriteBuffer := ⟨[], 1, 1, 1, [], [97]⟩
  have hflush : flushBufferWithFileDescriptor (.failsAt 0) [97] ⟨[97], 1, 0, 0, [], [97]⟩ =
      (false, ⟨[97], 1, 1, 1, [], [97]⟩) := by
    rw [flushBufferWithFileDescriptor]
    rfl
  have hround : appendRound (.failsAt 0) [97] (.fresh 1) = .ok (.inr false) lost := by
    have hfull : flushWhen (.failsAt 0) (fun b => b.cap = b.content.length)
        ⟨[97], 1, 0, 0, [], [97]⟩ = .ok false lost := by
      change flushBufferWithWriter (.failsAt 0) ⟨[97], 1, 0, 0, [], [97]⟩ = .ok false lost
      rw [flushBufferWithWriter, get_bind, hflush]
      rfl
    have hstore : store [97] (.fresh 1) = .ok ⟨⟩ ⟨[97], 1, 0, 0, [], [97]⟩ := rfl
    rw [appendRound, if_neg (by decide), get_bind]
    change (store [97] >>= _) _ = _
    rw [bind_of_ok hstore, bind_of_ok hfull]
    rfl
  have hcall : (WriteCall.append data 0).run (.failsAt 0) (2 ^ 65 + 1) (.fresh 1) =
      .ok false lost := by
    change andThen _ _ _ = _
    rw [andThen, bind_of_ok (loop_succ_of_inr hround _)]
    rfl
  obtain ⟨steps, _, hrun, hsteps⟩ := hclaim (.failsAt 0) 1 [.append data 0] (2 ^ 65 + 1)
    (by decide) (Nat.lt_succ_self _)
  rw [runCalls, get_bind, bind_of_ok hcall] at hrun
  obtain ⟨rfl, -⟩ := pure_eq_ok.mp hrun
  exact absurd (hsteps _ List.mem_cons_self).1 (by decide)

end Homegrown.Posix
