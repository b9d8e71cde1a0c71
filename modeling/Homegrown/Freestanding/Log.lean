import Homegrown.Core.Loop
import Homegrown.Shared.Text.Converter

/-!
# The log stream

Text is collected in `flushBuf` and handed to `flushBuffer` in chunks: when the buffer is
full, when a call asks for it, and when there is no room for a newline. The freestanding
logger and the one of the loader have this code in common and differ in what they do with
a chunk. `flushed` is no part of the source: it records the chunks.
-/

namespace Homegrown.Freestanding

/-- `U8_max_a`, with the chunks that were flushed. -/
structure FlushBuffer where
  buf : U64 → U8
  len : U64
  cap : U64
  flushed : List (List U8)

/-- Why a call of the logger does not return. -/
inductive LogFault where
  /-- A store past the capacity of the buffer. -/
  | outOfBounds
  /-- The bound on rounds given to the model ran out. -/
  | outOfFuel
  deriving DecidableEq, Repr

/-- Programs on the buffer. -/
abbrev Logger := EStateM LogFault FlushBuffer

/-- `NEWLINE`. -/
def newlineFlag : U8 := 0x01

/-- `FLUSH`. -/
def flushFlag : U8 := 0x02

/-- The bytes in the buffer. -/
def FlushBuffer.content (b : FlushBuffer) : List U8 :=
  (List.range b.len.toNat).map fun i => b.buf (BitVec.ofNat 64 i)

/-- The bytes of a buffer after some were stored. -/
def storeBytes (buf : U64 → U8) (start : Nat) (data : List U8) : U64 → U8 := fun i =>
  if start ≤ i.toNat ∧ i.toNat < start + data.length then data.getD (i.toNat - start) 0 else buf i

/-- A store of bytes after the content, which does not move `len`. -/
def storeAtEnd (data : List U8) : Logger Unit := do
  let b ← get
  if b.len.toNat + data.length ≤ b.cap.toNat then
    set { b with buf := storeBytes b.buf b.len.toNat data }
  else
    throw .outOfBounds

/-- The bytes are stored, and then counted. -/
def store (data : List U8) (count : U64) : Logger Unit := do
  storeAtEnd data
  modify fun b => { b with len := b.len + count }

/-- `flushBuffer`. -/
def flushBuffer : Logger Unit :=
  modify fun b => { b with len := 0, flushed := b.flushed ++ [b.content] }

/-- `flushStandardBuffer`. -/
def flushStandardBuffer : Logger Unit := flushBuffer

/-- The newline in `handleFlags`. -/
def putNewline : Logger Unit := do
  let b ← get
  if b.cap ≤ b.len then
    flushBuffer
  store (text "\n") 1

/-- `handleFlags`. -/
def handleFlags (flags : U8) : Logger Unit := do
  if flags &&& newlineFlag ≠ 0 then
    putNewline
  if flags &&& flushFlag ≠ 0 then
    flushBuffer

/-- A round of the loop in `appendToFlushBuffer`. -/
def appendRound (data : ByteString) (bytesWritten : U64) : Logger (U64 ⊕ Unit) := do
  if bytesWritten < data.len then
    let b ← get
    let spaceInBuffer := b.cap - b.len
    let dataToWrite := data.len - bytesWritten
    let bytesToWrite := minValue spaceInBuffer dataToWrite
    store ((data.buf.drop bytesWritten.toNat).take bytesToWrite.toNat) bytesToWrite
    let b ← get
    if b.cap = b.len then
      flushBuffer
    return .inl (bytesWritten + bytesToWrite)
  else
    return .inr ()

/-- `appendToFlushBuffer`. -/
def appendToFlushBuffer (rounds : Nat) (data : ByteString) (flags : U8) : Logger Unit := do
  loop .outOfFuel (appendRound data) rounds 0
  handleFlags flags

/-- `appendZeroToFlushBuffer`: its loop is that of `appendToFlushBuffer`, on zero bytes. -/
def appendZeroToFlushBuffer (rounds : Nat) (bytes : U64) (flags : U8) : Logger Unit :=
  appendToFlushBuffer rounds (.zeros bytes) flags

/-! ## The stream -/

/-- A call of the logger. -/
inductive LogCall where
  | append (data : ByteString) (flags : U8)
  | appendZero (bytes : U64) (flags : U8)
  | flush

namespace LogCall

/-- The call. -/
def run (rounds : Nat) : LogCall → Logger Unit
  | append data flags => appendToFlushBuffer rounds data flags
  | appendZero bytes flags => appendZeroToFlushBuffer rounds bytes flags
  | flush => flushStandardBuffer

/-- The newline that the flags ask for. -/
def newline (flags : U8) : List U8 := if flags &&& newlineFlag ≠ 0 then text "\n" else []

/-- What the call adds to the stream. -/
def output : LogCall → List U8
  | append data flags => data.buf ++ newline flags
  | appendZero bytes flags => List.replicate bytes.toNat 0 ++ newline flags
  | flush => []

/-- The call flushes the buffer at its end. -/
def Flushes : LogCall → Prop
  | append _ flags => flags &&& flushFlag ≠ 0
  | appendZero _ flags => flags &&& flushFlag ≠ 0
  | flush => True

end LogCall

/-- Calls one after the other. -/
def runCalls (rounds : Nat) : List LogCall → Logger Unit
  | [] => return ()
  | call :: calls => do
    call.run rounds
    runCalls rounds calls

namespace FlushBuffer

/-- All chunks, and what is still in the buffer. -/
def stream (b : FlushBuffer) : List U8 := b.flushed.flatten ++ b.content

/-- The content is as long as `len` says. -/
@[simp] theorem length_content (b : FlushBuffer) : b.content.length = b.len.toNat := by
  rw [content, List.length_map, List.length_range]

/-- After bytes were stored and counted, the content has them at its end. -/
theorem content_store {b : FlushBuffer} {data : List U8} {n : U64} (hn : n.toNat = data.length)
    (hfits : b.len.toNat + data.length < 2 ^ 64) :
    content { b with buf := storeBytes b.buf b.len.toNat data, len := b.len + n } =
      b.content ++ data := by
  have hlen : (b.len + n).toNat = b.len.toNat + data.length := by
    rw [BitVec.toNat_add, hn, Nat.mod_eq_of_lt hfits]
  apply List.ext_getElem
  · simp [content, hlen]
  · intro i hi hi'
    have hilt : i < b.len.toNat + data.length := by
      rwa [length_content, hlen] at hi
    have htoNat : (BitVec.ofNat 64 i).toNat = i := by
      rw [BitVec.toNat_ofNat, Nat.mod_eq_of_lt (by omega)]
    simp only [content, List.getElem_map, List.getElem_range, storeBytes, htoNat]
    by_cases hin : i < b.len.toNat
    · rw [if_neg (by omega), List.getElem_append_left (by simpa using hin)]
      simp
    · rw [if_pos (by omega), List.getElem_append_right (by simpa using hin)]
      have hdata : i - b.len.toNat < data.length := by omega
      rw [List.getD_eq_getElem?_getD]
      rw [List.getElem?_eq_getElem hdata, Option.getD_some]
      congr 2
      exact (length_content b).symm

/-- The buffer has room for a byte at least, and is not overfull. -/
structure Valid (b : FlushBuffer) : Prop where
  cap_pos : 1 ≤ b.cap.toNat
  len_le : b.len.toNat ≤ b.cap.toNat

/-- The buffer after text was added to its stream. -/
structure Extends (b b' : FlushBuffer) (added : List U8) : Prop where
  valid : b'.Valid
  cap_eq : b'.cap = b.cap
  stream_eq : b'.stream = b.stream ++ added

/-- What two steps have added, one after the other. -/
theorem Extends.trans {b b' b'' : FlushBuffer} {added added' : List U8}
    (h : b.Extends b' added) (h' : b'.Extends b'' added') :
    b.Extends b'' (added ++ added') :=
  ⟨h'.valid, h'.cap_eq.trans h.cap_eq, by rw [h'.stream_eq, h.stream_eq, List.append_assoc]⟩

/-- A buffer extends itself by nothing. -/
theorem Valid.refl {b : FlushBuffer} (h : b.Valid) : b.Extends b [] :=
  ⟨h, rfl, (List.append_nil _).symm⟩

end FlushBuffer

section Steps

variable {b : FlushBuffer}

/-- Flushing moves the content to the chunks. -/
theorem flushBuffer_returns (h : b.Valid) :
    ReturnsWith (flushBuffer b) fun _ b' => b.Extends b' [] ∧ b'.len = 0 := by
  refine ReturnsWith.modify ⟨⟨⟨h.cap_pos, Nat.zero_le _⟩, rfl, ?_⟩, rfl⟩
  simp [FlushBuffer.stream, FlushBuffer.content]

/-- Bytes that fit are stored and counted. -/
theorem store_returns (h : b.Valid) {data : List U8} {n : U64} (hn : n.toNat = data.length)
    (hfits : b.len.toNat + data.length ≤ b.cap.toNat) :
    ReturnsWith (store data n b) fun _ b' =>
      b.Extends b' data ∧ b'.len.toNat = b.len.toNat + data.length := by
  have hcap := b.cap.isLt
  have hlen : (b.len + n).toNat = b.len.toNat + data.length := by
    rw [BitVec.toNat_add, hn, Nat.mod_eq_of_lt (by omega)]
  refine ⟨(), _, bind_eq_ok.mpr ⟨(), { b with buf := storeBytes b.buf b.len.toNat data }, ?_,
    modify_eq_ok.mpr rfl⟩, ⟨⟨h.cap_pos, by rw [hlen]; exact hfits⟩, rfl, ?_⟩, hlen⟩
  · rw [storeAtEnd, bind_eq_ok]
    exact ⟨b, b, get_eq_ok.mpr ⟨rfl, rfl⟩, by rw [if_pos hfits]; exact set_eq_ok.mpr rfl⟩
  · rw [FlushBuffer.stream, FlushBuffer.content_store hn (by omega), ← List.append_assoc]
    rfl

/-- A newline finds room, after a flush if there is none. -/
theorem newline_returns (h : b.Valid) :
    ReturnsWith (putNewline b) fun _ b' => b.Extends b' (text "\n") := by
  have hstore {b : FlushBuffer} (h : b.Valid) (hroom : b.len.toNat < b.cap.toNat) :=
    store_returns h (show (1 : U64).toNat = (text "\n").length from rfl) hroom
  rw [putNewline, get_bind]
  by_cases hfull : b.cap ≤ b.len
  · rw [if_pos hfull]
    refine ReturnsWith.bind (flushBuffer_returns h) fun _ b' hb' => ?_
    have hroom : b'.len.toNat < b'.cap.toNat := by
      rw [hb'.2]
      exact hb'.1.valid.cap_pos
    exact (hstore hb'.1.valid hroom).weaken fun _ _ hc => hb'.1.trans hc.1
  · rw [if_neg hfull]
    exact (hstore h (by rw [BitVec.le_def] at hfull; omega)).weaken fun _ _ hc => hc.1

/-- The flags add the newline they ask for, and empty the buffer if they ask for that. -/
theorem handleFlags_returns (h : b.Valid) (flags : U8) :
    ReturnsWith (handleFlags flags b) fun _ b' =>
      b.Extends b' (LogCall.newline flags) ∧ (flags &&& flushFlag ≠ 0 → b'.len = 0) := by
  have hnewline : ReturnsWith ((if flags &&& newlineFlag ≠ 0 then putNewline else pure ()) b)
      fun _ b' => b.Extends b' (LogCall.newline flags) := by
    by_cases hflag : flags &&& newlineFlag ≠ 0
    · rw [LogCall.newline, if_pos hflag, if_pos hflag]
      exact newline_returns h
    · rw [LogCall.newline, if_neg hflag, if_neg hflag]
      exact ReturnsWith.pure h.refl
  obtain ⟨_, b₁, hrun, hb₁⟩ := hnewline
  have hflush : ReturnsWith ((if flags &&& flushFlag ≠ 0 then flushBuffer else pure ()) b₁)
      fun _ b' => b.Extends b' (LogCall.newline flags) ∧
        (flags &&& flushFlag ≠ 0 → b'.len = 0) := by
    by_cases hflag : flags &&& flushFlag ≠ 0
    · rw [if_pos hflag]
      refine (flushBuffer_returns hb₁.valid).weaken fun _ _ hc => ⟨?_, fun _ => hc.2⟩
      simpa using hb₁.trans hc.1
    · rw [if_neg hflag]
      exact ReturnsWith.pure ⟨hb₁, fun hc => (hflag hc).elim⟩
  unfold handleFlags
  by_cases hflag : flags &&& newlineFlag ≠ 0
  · rw [if_pos hflag] at hrun ⊢
    rw [bind_of_ok hrun]
    exact hflush
  · rw [if_neg hflag] at hrun ⊢
    obtain ⟨-, rfl⟩ := pure_eq_ok.mp hrun
    exact hflush

/-- What a round of the loop leaves to write. A full buffer costs a round more. -/
def pending (data : ByteString) (bytesWritten : U64) (b : FlushBuffer) : Nat :=
  2 * (data.buf.length - bytesWritten.toNat) + if b.len = b.cap then 1 else 0

/-- A round adds the next bytes to the stream, or finds a full buffer and empties it. -/
theorem appendRound_returns (h : b.Valid) {data : ByteString} {bytesWritten : U64}
    (hle : bytesWritten.toNat ≤ data.buf.length) :
    ReturnsWith (appendRound data bytesWritten b) fun r b' => match r with
      | .inl next => bytesWritten.toNat ≤ next.toNat ∧ next.toNat ≤ data.buf.length ∧
          b.Extends b' ((data.buf.drop bytesWritten.toNat).take
            (next.toNat - bytesWritten.toNat)) ∧
          pending data next b' < pending data bytesWritten b
      | .inr () => b' = b ∧ bytesWritten.toNat = data.buf.length := by
  unfold appendRound
  by_cases hmore : bytesWritten < data.len
  · rw [if_pos hmore, get_bind]
    have hlt : bytesWritten.toNat < data.buf.length := by
      rwa [BitVec.lt_def, ByteString.toNat_len] at hmore
    have hspace : (b.cap - b.len).toNat = b.cap.toNat - b.len.toNat :=
      BitVec.toNat_sub_of_le h.len_le
    have hrest : (data.len - bytesWritten).toNat = data.buf.length - bytesWritten.toNat := by
      rw [BitVec.toNat_sub_of_le (BitVec.le_of_lt hmore), ByteString.toNat_len]
    generalize hcount : minValue (b.cap - b.len) (data.len - bytesWritten) = count
    have hmin : count.toNat = min (b.cap.toNat - b.len.toNat)
        (data.buf.length - bytesWritten.toNat) := by
      rw [← hcount, toNat_minValue, hspace, hrest]
    have hlen := data.length_lt
    have hle' := h.len_le
    have hnext : (bytesWritten + count).toNat = bytesWritten.toNat + count.toNat := by
      rw [BitVec.toNat_add, Nat.mod_eq_of_lt (by omega)]
    have hpiece : count.toNat =
        ((data.buf.drop bytesWritten.toNat).take count.toNat).length := by
      rw [List.length_take, List.length_drop]
      omega
    have hwritten : (bytesWritten + count).toNat - bytesWritten.toNat = count.toNat := by omega
    refine ReturnsWith.bind (store_returns h hpiece (by omega)) fun _ b₁ ⟨hb₁, hlen₁⟩ => ?_
    have hcap := h.cap_pos
    have hcapEq := hb₁.cap_eq
    rw [get_bind]
    by_cases hfull : b₁.cap = b₁.len
    · rw [if_pos hfull]
      refine ReturnsWith.bind (flushBuffer_returns hb₁.valid) fun _ b₂ ⟨hb₂, hlen₂⟩ => ?_
      refine ReturnsWith.pure ⟨by omega, by omega, ?_, ?_⟩
      · rw [hwritten]
        simpa using hb₁.trans hb₂
      · have hne : b₂.len ≠ b₂.cap := by
          intro heq
          rw [hlen₂, hb₂.cap_eq, hcapEq] at heq
          rw [← heq] at hcap
          exact absurd hcap (by decide)
        rw [pending, pending, if_neg hne, hnext]
        by_cases hbefore : b.len = b.cap
        · rw [if_pos hbefore]
          omega
        · have hroom : b.len.toNat ≠ b.cap.toNat := fun heq => hbefore (BitVec.eq_of_toNat_eq heq)
          rw [if_neg hbefore]
          omega
    · rw [if_neg hfull]
      refine ReturnsWith.pure ⟨by omega, by omega, by rwa [hwritten], ?_⟩
      have hfull' : b₁.cap.toNat ≠ b₁.len.toNat := fun heq => hfull (BitVec.eq_of_toNat_eq heq)
      rw [hcapEq] at hfull'
      rw [pending, pending, if_neg (Ne.symm hfull), hnext]
      omega
  · rw [if_neg hmore]
    refine ReturnsWith.pure ⟨rfl, ?_⟩
    rw [BitVec.lt_def, ByteString.toNat_len] at hmore
    omega

/-- The loop adds the data to the stream. -/
theorem loop_appendRound_returns (h : b.Valid) (data : ByteString) {rounds : Nat}
    (hrounds : 2 * data.buf.length + 1 < rounds) :
    ReturnsWith (loop .outOfFuel (appendRound data) rounds 0 b) fun _ b' =>
      b.Extends b' data.buf := by
  refine loop_returns (fun bytesWritten b' => bytesWritten.toNat ≤ data.buf.length ∧
    b.Extends b' (data.buf.take bytesWritten.toNat)) (pending data) ?_
    ⟨Nat.zero_le _, by simpa using h.refl⟩ ?_
  · rintro bytesWritten b' ⟨hle, hb'⟩
    refine (appendRound_returns hb'.valid hle).weaken fun r b'' hr => ?_
    cases r with
    | inl next =>
      obtain ⟨hmono, hnext, hb'', hpending⟩ := hr
      refine ⟨⟨hnext, ?_⟩, hpending⟩
      have hsplit := List.take_add (l := data.buf) (i := bytesWritten.toNat)
        (j := next.toNat - bytesWritten.toNat)
      rw [Nat.add_sub_cancel' hmono] at hsplit
      rw [hsplit]
      exact hb'.trans hb''
    | inr =>
      obtain ⟨rfl, hall⟩ := hr
      rwa [hall, List.take_length] at hb'
  · unfold pending
    split <;> simp <;> omega

end Steps

/-- A call adds its output to the stream, and leaves nothing in the buffer if it flushes. -/
theorem LogCall.run_returns {b : FlushBuffer} (h : b.Valid) (call : LogCall) {rounds : Nat}
    (hrounds : 2 ^ 65 < rounds) :
    ReturnsWith (call.run rounds b) fun _ b' =>
      b.Extends b' call.output ∧ (call.Flushes → b'.len = 0) := by
  have happend (data : ByteString) (flags : U8) :
      ReturnsWith (appendToFlushBuffer rounds data flags b) fun _ b' =>
        b.Extends b' (data.buf ++ newline flags) ∧ (flags &&& flushFlag ≠ 0 → b'.len = 0) := by
    have hlen := data.length_lt
    refine ReturnsWith.bind (loop_appendRound_returns h data (by omega)) fun _ b₁ hb₁ => ?_
    refine (handleFlags_returns hb₁.valid flags).weaken fun _ b₂ hb₂ => ?_
    exact ⟨hb₁.trans hb₂.1, hb₂.2⟩
  cases call with
  | append data flags => exact happend data flags
  | appendZero bytes flags => exact happend (.zeros bytes) flags
  | flush => exact (flushBuffer_returns h).weaken fun _ _ hb' => ⟨hb'.1, fun _ => hb'.2⟩

/-- Any sequence of calls ends, keeps the buffer within its capacity, and puts the output
of the calls on the stream, in their order. After a call that flushes, the buffer is empty. -/
theorem runCalls_stream {b : FlushBuffer} (h : b.Valid) (calls : List LogCall) :
    ∃ enough, ∀ rounds ≥ enough, ReturnsWith (runCalls rounds calls b) fun _ b' =>
      b.Extends b' (calls.flatMap LogCall.output) ∧
        ∀ call, calls.getLast? = some call → call.Flushes → b'.len = 0 := by
  refine ⟨2 ^ 65 + 1, fun rounds hrounds => ?_⟩
  induction calls generalizing b with
  | nil => exact ReturnsWith.pure ⟨h.refl, fun call hlast => by cases hlast⟩
  | cons call calls ih =>
    refine ReturnsWith.bind (call.run_returns h (by omega)) fun _ b₁ ⟨hb₁, hflush⟩ => ?_
    cases calls with
    | nil =>
      refine ReturnsWith.pure ⟨by simpa using hb₁, fun last hlast => ?_⟩
      rw [List.getLast?_singleton, Option.some.injEq] at hlast
      exact hlast ▸ hflush
    | cons next calls =>
      refine (ih hb₁.valid).weaken fun _ b₂ ⟨hb₂, hlast⟩ => ⟨hb₁.trans hb₂, fun last heq => ?_⟩
      rw [List.getLast?_cons_cons] at heq
      exact hlast last heq

/-- Three calls on a buffer of two bytes. -/
theorem runCalls_stream_two :
    (FlushBuffer.mk (fun _ => 0) 0 2 []).Valid ∧
      ∃ enough, ∀ rounds ≥ enough,
        ReturnsWith (runCalls rounds [.append ⟨text "hello", by decide⟩ newlineFlag,
          .appendZero 1 0, .flush] ⟨fun _ => 0, 0, 2, []⟩) fun _ b' =>
          b'.stream = text "hello\n" ++ [0] ∧ b'.len = 0 := by
  have hvalid : (FlushBuffer.mk (fun _ => 0) 0 2 []).Valid := ⟨by decide, by decide⟩
  refine ⟨hvalid, ?_⟩
  obtain ⟨enough, h⟩ := runCalls_stream hvalid [.append ⟨text "hello", by decide⟩ newlineFlag,
    .appendZero 1 0, .flush]
  refine ⟨enough, fun rounds hrounds => (h rounds hrounds).weaken fun _ b' hb' => ?_⟩
  exact ⟨hb'.1.stream_eq.trans (by decide), hb'.2 _ rfl trivial⟩

end Homegrown.Freestanding
