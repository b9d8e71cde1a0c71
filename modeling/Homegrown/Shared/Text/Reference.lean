import Homegrown.Core.Bytes
import Homegrown.Core.Loop
import Homegrown.Core.Pieces
import Homegrown.Shared.Text.Converter

/-!
# Strings in memory

A string is the address of its bytes and their number. Nothing keeps a program from reading
beside a string, so a run notes the addresses it reads. `findFrom_returns` is what the functions
that go forward through a string have in common.
-/

namespace Homegrown

/-- `string`. -/
structure StringRef where
  buf : U64
  len : U64
  deriving DecidableEq, Repr

/-- What makes a run on a string fail. -/
inductive StringFault where
  | assertion
  | outOfFuel
  deriving DecidableEq, Repr

/-- A program that reads memory, with the addresses it has read. -/
abbrev Reader := EStateM StringFault (List U64)

/-- A byte of memory. -/
def readByte (memory : U64 → U8) (address : U64) : Reader U8 := do
  modify fun reads => reads ++ [address]
  return memory address

/-- The first place of a byte from a place on, if there is one. -/
def FirstFrom (l : List U8) (ch : U8) (start : Nat) : Option U64 → Prop
  | some i => start ≤ i.toNat ∧ l[i.toNat]? = some ch ∧
      ∀ j, start ≤ j → j < i.toNat → l[j]? ≠ some ch
  | none => ∀ j, start ≤ j → l[j]? ≠ some ch

/-- The first place of a byte is determined. -/
theorem FirstFrom.unique {l : List U8} {n : Nat} {found found' : Option U64}
    (h : FirstFrom l ch n found) (h' : FirstFrom l ch n found') : found = found' := by
  cases found with
  | none =>
    cases found' with
    | none => rfl
    | some j => exact absurd h'.2.1 (h _ h'.1)
  | some i =>
    cases found' with
    | none => exact absurd h.2.1 (h' _ h.1)
    | some j =>
      rcases Nat.lt_trichotomy i.toNat j.toNat with hij | hij | hij
      · exact absurd h.2.1 (h'.2.2 _ h.1 hij)
      · rw [BitVec.eq_of_toNat_eq hij]
      · exact absurd h'.2.1 (h.2.2 _ h'.1 hij)

namespace StringRef

variable (memory : U64 → U8) (s : StringRef)

/-- `getCharPtr`. -/
def getCharPtr (index : U64) : Reader U64 :=
  if index < s.len then return s.buf + index else throw .assertion

/-- A round of the loop of `splitString` and of `firstOccurenceOfFrom`. -/
def findRound (ch : U8) (i : U64) : Reader (U64 ⊕ Option U64) := do
  if i < s.len then
    let byte ← readByte memory (s.buf + i)
    if byte = ch then return .inr (some i) else return .inl (i + 1)
  else return .inr none

/-- The loop of `splitString` and of `firstOccurenceOfFrom`: the place it is left at. -/
def findFrom (rounds : Nat) (ch : U8) (start : U64) : Reader (Option U64) :=
  loop .outOfFuel (findRound memory s ch) rounds start

/-! ## The bytes of a string -/

/-- The addresses of the bytes. -/
def span : Span := ⟨s.buf.toNat, s.len.toNat⟩

/-- The bytes. -/
def bytes : List U8 := loadBytes memory s.buf s.len.toNat

/-- The string does not contain the null pointer, and there is an address behind it. -/
structure Valid (s : StringRef) : Prop where
  nonnull : s.len ≠ 0 → s.buf ≠ 0
  fits : s.buf.toNat + s.len.toNat < 2 ^ 64

/-- Only bytes of the string were read. -/
def ReadsInside (reads : List U64) : Prop := ∀ a ∈ reads, a.toNat ∈ s.span

variable {memory s} {ch : U8} {start i : U64} {reads : List U64}

theorem Valid.len_lt (h : s.Valid) : s.len.toNat + 1 < 2 ^ 64 := by
  have hfits := h.fits
  by_cases hlen : s.len = 0
  · rw [hlen]
    decide
  · have hbuf : s.buf.toNat ≠ 0 := fun h0 => h.nonnull hlen (BitVec.eq_of_toNat_eq h0)
    omega

@[simp] theorem length_bytes : (s.bytes memory).length = s.len.toNat := length_loadBytes

/-- The string as the list of its bytes. -/
def content (memory : U64 → U8) (s : StringRef) : ByteString where
  buf := s.bytes memory
  length_lt := length_bytes.trans_lt s.len.isLt

theorem getElem?_bytes (n : Nat) :
    (s.bytes memory)[n]? =
      if n < s.len.toNat then some (memory (s.buf + BitVec.ofNat 64 n)) else none := by
  rw [bytes, loadBytes, List.getElem?_map]
  split
  · rename_i hlt
    rw [List.getElem?_range hlt, Option.map_some]
  · rename_i hge
    rw [List.getElem?_eq_none (by simpa using hge), Option.map_none]

/-- The byte at an index. -/
theorem getElem?_bytes_toNat (h : i < s.len) :
    (s.bytes memory)[i.toNat]? = some (memory (s.buf + i)) := by
  rw [BitVec.lt_def] at h
  rw [getElem?_bytes, if_pos h, BitVec.ofNat_toNat, BitVec.setWidth_eq]

/-- The bytes of a part. -/
theorem loadBytes_eq_slice {n : Nat} (h : start.toNat + n ≤ s.len.toNat) :
    loadBytes memory (s.buf + start) n = ((s.bytes memory).drop start.toNat).take n := by
  obtain ⟨k, hk⟩ := Nat.exists_eq_add_of_le h
  rw [bytes, hk, Nat.add_assoc, loadBytes_add, List.drop_left' length_loadBytes, loadBytes_add,
    List.take_left' length_loadBytes, BitVec.ofNat_toNat, BitVec.setWidth_eq]

/-- The address of an index. -/
theorem Valid.toNat_add (hs : s.Valid) (h : i ≤ s.len) :
    (s.buf + i).toNat = s.buf.toNat + i.toNat := by
  have hfits := hs.fits
  rw [BitVec.le_def] at h
  rw [BitVec.toNat_add, Nat.mod_eq_of_lt (by omega)]

theorem readByte_returns (memory : U64 → U8) (reads : List U64) (address : U64) :
    readByte memory address reads = .ok (memory address) (reads ++ [address]) := rfl

/-- A read at an index is one inside the string. -/
theorem ReadsInside.append (h : s.ReadsInside reads) (hs : s.Valid) (hi : i < s.len) :
    s.ReadsInside (reads ++ [s.buf + i]) := by
  intro a ha
  rcases List.mem_append.mp ha with ha | ha
  · exact h a ha
  · rw [List.mem_singleton] at ha
    subst ha
    rw [BitVec.lt_def] at hi
    rw [hs.toNat_add (BitVec.le_of_lt hi), span, Span.mem_mk]
    omega

/-! ## Going forward -/

/-- A round finds the byte, or moves on, or is at the end. -/
theorem findRound_returns (hs : s.Valid) (hreads : s.ReadsInside reads)
    (hbefore : ∀ j, start.toNat ≤ j → j < i.toNat → (s.bytes memory)[j]? ≠ some ch)
    (hstart : start.toNat ≤ i.toNat) :
    ReturnsWith (findRound memory s ch i reads) fun r reads' => s.ReadsInside reads' ∧ match r with
      | .inl next => next.toNat = i.toNat + 1 ∧ i < s.len ∧
          ∀ j, start.toNat ≤ j → j < next.toNat → (s.bytes memory)[j]? ≠ some ch
      | .inr found => FirstFrom (s.bytes memory) ch start.toNat found := by
  unfold findRound
  by_cases hi : i < s.len
  · have hhere : (s.bytes memory)[i.toNat]? = some (memory (s.buf + i)) := getElem?_bytes_toNat hi
    have hinside := hreads.append hs hi
    rw [if_pos hi, bind_of_ok (readByte_returns ..)]
    by_cases heq : memory (s.buf + i) = ch
    · rw [if_pos heq]
      exact ReturnsWith.pure ⟨hinside, hstart, by rw [hhere, heq], hbefore⟩
    · have hlen := hs.len_lt
      have hnext : (i + 1).toNat = i.toNat + 1 := by
        rw [BitVec.lt_def] at hi
        rw [BitVec.toNat_add, show (1 : U64).toNat = 1 from rfl, Nat.mod_eq_of_lt (by omega)]
      rw [if_neg heq]
      refine ReturnsWith.pure ⟨hinside, hnext, hi, fun j hj hlt => ?_⟩
      rcases Nat.lt_or_ge j i.toNat with hji | hji
      · exact hbefore j hj hji
      · obtain rfl : j = i.toNat := by omega
        rw [hhere]
        exact fun h => heq (Option.some.inj h)
  · rw [if_neg hi]
    refine ReturnsWith.pure ⟨hreads, fun j hj => ?_⟩
    rcases Nat.lt_or_ge j i.toNat with hji | hji
    · exact hbefore j hj hji
    · rw [BitVec.lt_def] at hi
      rw [getElem?_bytes, if_neg (by omega)]
      exact (Option.some_ne_none _).symm

/-- The loop ends, and is left at the first place. -/
theorem findFrom_returns (hs : s.Valid) (hreads : s.ReadsInside reads) {rounds : Nat}
    (hrounds : s.len.toNat - start.toNat < rounds) :
    ReturnsWith (findFrom memory s rounds ch start reads) fun found reads' =>
      s.ReadsInside reads' ∧ FirstFrom (s.bytes memory) ch start.toNat found := by
  apply loop_returns
    (fun i reads => s.ReadsInside reads ∧ start.toNat ≤ i.toNat ∧
      ∀ j, start.toNat ≤ j → j < i.toNat → (s.bytes memory)[j]? ≠ some ch)
    (fun i _ => s.len.toNat - i.toNat) ?_ ⟨hreads, le_rfl, fun j hj hlt => by omega⟩ hrounds
  rintro i reads ⟨hreads, hstart, hbefore⟩
  refine (findRound_returns hs hreads hbefore hstart).weaken fun r reads' hround => ?_
  cases r with
  | inl next =>
    obtain ⟨hreads', hnext, hi, hbefore'⟩ := hround
    rw [BitVec.lt_def] at hi
    exact ⟨⟨hreads', by omega, hbefore'⟩, by omega⟩
  | inr found => exact hround

end StringRef

end Homegrown
