import Homegrown.Shared.Text.Reference
import Homegrown.Shared.Text.Split

/-!
# Tokens of a string in memory

`TOKENIZE_STRING` gives its iterator the slices of a string that `splitString` finds, and goes on
behind the token that ended the last one. The bytes of the slices are the pieces of the string
(`tokenizeRound_returns` is the step), as they are for the strings of `tokenizeString`.
-/

namespace Homegrown

/-- `StringIter`, with all strings it has held. -/
structure StringIter where
  strings : List StringRef
  pos : U64

namespace StringRef

section Definitions

variable (memory : U64 → U8) (s : StringRef)

/-- `splitString`. -/
def splitString (rounds : Nat) (token : U8) (start : U64) : Reader StringRef := do
  if start < s.len then
    match ← findFrom memory s rounds token start with
    | some i => return { buf := ← s.getCharPtr start, len := i - start }
    | none => return { buf := ← s.getCharPtr start, len := s.len - start }
  else throw .assertion

/-- A round of the loop of `TOKENIZE_STRING`. -/
def tokenizeRound (rounds : Nat) (token : U8) (it : StringIter) :
    Reader (StringIter ⊕ List StringRef) := do
  if it.pos < s.len then
    let string ← splitString memory s rounds token it.pos
    return .inl { strings := it.strings ++ [string], pos := it.pos + (string.len + 1) }
  else return .inr it.strings

/-- `TOKENIZE_STRING`, with the strings that its body is run with. -/
def tokenizeString (rounds : Nat) (token : U8) (startingPosition : U64) :
    Reader (List StringRef) :=
  loop .outOfFuel (tokenizeRound memory s rounds token) rounds ⟨[], startingPosition⟩

/-- The other string lies in this one. -/
def HasSlice (t : StringRef) : Prop :=
  s.buf.toNat ≤ t.buf.toNat ∧ t.buf.toNat + t.len.toNat ≤ s.buf.toNat + s.len.toNat

end Definitions

variable {memory : U64 → U8} {s : StringRef} {token : U8} {start : U64} {reads : List U64}
  {rounds : Nat}

/-- A string is the first piece of what there is from the place on. -/
theorem splitString_returns (hs : s.Valid) (hreads : s.ReadsInside reads) (hstart : start < s.len)
    (hrounds : s.len.toNat < rounds) :
    ReturnsWith (s.splitString memory rounds token start reads) fun t reads' =>
      s.ReadsInside reads' ∧ t.buf = s.buf + start ∧ start.toNat + t.len.toNat ≤ s.len.toNat ∧
        t.bytes memory = ((s.bytes memory).drop start.toNat).takeWhile (· ≠ token) := by
  have hlt := hstart
  rw [BitVec.lt_def] at hlt
  rw [splitString, if_pos hstart]
  refine (findFrom_returns hs hreads (by omega)).bind fun found reads' hfound => ?_
  obtain ⟨hreads', hfound⟩ := hfound
  have hptr : s.getCharPtr start = (pure (s.buf + start) : Reader U64) := if_pos hstart
  have hdrop (j : Nat) : ((s.bytes memory).drop start.toNat)[j]? =
      (s.bytes memory)[start.toNat + j]? := List.getElem?_drop
  cases found with
  | some i =>
    obtain ⟨hle, hi, hbefore⟩ := hfound
    have hilt : i.toNat < s.len.toNat := by
      have hlt := (List.getElem?_eq_some_iff.mp hi).1
      rwa [length_bytes] at hlt
    have hlen : (i - start).toNat = i.toNat - start.toNat := BitVec.toNat_sub_of_le hle
    simp only [hptr, pure_bind]
    refine ReturnsWith.pure ⟨hreads', rfl, by rw [hlen]; omega, ?_⟩
    rw [bytes, hlen, loadBytes_eq_slice (by omega)]
    refine (takeWhile_eq_take (fun j hj => ?_) (.inl ?_)).symm
    · rw [hdrop]
      exact hbefore _ (by omega) (by omega)
    · rw [hdrop, show start.toNat + (i.toNat - start.toNat) = i.toNat by omega]
      exact hi
  | none =>
    have hlen : (s.len - start).toNat = s.len.toNat - start.toNat :=
      BitVec.toNat_sub_of_le (BitVec.le_of_lt hstart)
    simp only [hptr, pure_bind]
    refine ReturnsWith.pure ⟨hreads', rfl, by rw [hlen]; omega, ?_⟩
    rw [bytes, hlen, loadBytes_eq_slice (by omega)]
    refine (takeWhile_eq_take (fun j hj => ?_) (.inr ?_)).symm
    · rw [hdrop]
      exact hfound _ (by omega)
    · rw [List.length_drop, length_bytes]

/-- What the iterator has held, and what is left of the string from its position on, are the
pieces of the string. -/
structure TokenizedTo (memory : U64 → U8) (s : StringRef) (token : U8) (start : U64)
    (it : StringIter) : Prop where
  slices : ∀ t ∈ it.strings, s.HasSlice t
  pieces_eq : it.strings.map (bytes memory) ++
      pieces token ((s.bytes memory).drop it.pos.toNat) =
    pieces token ((s.bytes memory).drop start.toNat)

/-- A round takes the first of the pieces that are left. -/
theorem tokenizeRound_returns (hs : s.Valid) (hrounds : s.len.toNat < rounds) {it : StringIter}
    (hreads : s.ReadsInside reads) (hit : TokenizedTo memory s token start it) :
    ReturnsWith (tokenizeRound memory s rounds token it reads) fun r reads' =>
      s.ReadsInside reads' ∧ match r with
        | .inl next => TokenizedTo memory s token start next ∧
            it.pos.toNat < s.len.toNat ∧ it.pos.toNat < next.pos.toNat
        | .inr strings => (∀ t ∈ strings, s.HasSlice t) ∧
            strings.map (bytes memory) = pieces token ((s.bytes memory).drop start.toNat) := by
  unfold tokenizeRound
  by_cases hpos : it.pos < s.len
  · have hlt := hpos
    rw [BitVec.lt_def] at hlt
    rw [if_pos hpos]
    refine (splitString_returns hs hreads hpos hrounds).bind fun t reads' ht => ?_
    obtain ⟨hreads', hbuf, hend, hbytes⟩ := ht
    have hfits := hs.len_lt
    have hnext : (it.pos + (t.len + 1)).toNat = it.pos.toNat + (t.len.toNat + 1) := by
      rw [BitVec.toNat_add, BitVec.toNat_add, show (1 : U64).toNat = 1 from rfl]
      omega
    refine ReturnsWith.pure ⟨hreads', ⟨fun t' ht' => ?_, ?_⟩, hlt, by rw [hnext]; omega⟩
    · rcases List.mem_append.mp ht' with ht' | ht'
      · exact hit.slices t' ht'
      · rw [List.mem_singleton] at ht'
        subst ht'
        rw [HasSlice, hbuf, hs.toNat_add (BitVec.le_of_lt hpos)]
        omega
    · have hne : (s.bytes memory).drop it.pos.toNat ≠ [] := by
        rw [Ne, List.drop_eq_nil_iff, length_bytes]
        omega
      have hlen : (((s.bytes memory).drop it.pos.toNat).takeWhile (· ≠ token)).length =
          t.len.toNat := by
        rw [← hbytes, length_bytes]
      rw [← hit.pieces_eq, pieces_eq_cons hne, hlen, List.drop_drop, ← hbytes, List.map_append,
        List.append_assoc, hnext]
      rfl
  · rw [if_neg hpos]
    refine ReturnsWith.pure ⟨hreads, hit.slices, ?_⟩
    have hpieces := hit.pieces_eq
    rw [BitVec.lt_def, not_lt] at hpos
    rwa [List.drop_of_length_le (by rwa [length_bytes]), pieces_nil, List.append_nil] at hpieces

/-- The loop ends, and its strings are the pieces. -/
theorem tokenizeString_returns (hs : s.Valid) (hrounds : s.len.toNat < rounds) :
    ReturnsWith (s.tokenizeString memory rounds token start []) fun tokens reads =>
      s.ReadsInside reads ∧ (∀ t ∈ tokens, s.HasSlice t) ∧
        tokens.map (bytes memory) = pieces token ((s.bytes memory).drop start.toNat) := by
  apply loop_returns
    (fun it reads => s.ReadsInside reads ∧ TokenizedTo memory s token start it)
    (fun it _ => s.len.toNat - it.pos.toNat) ?_
    ⟨fun a ha => absurd ha List.not_mem_nil, fun t ht => absurd ht List.not_mem_nil, rfl⟩
    (by omega)
  rintro it reads ⟨hreads, hit⟩
  refine (tokenizeRound_returns hs hrounds hreads hit).weaken fun r reads' hround => ?_
  cases r with
  | inl next =>
    obtain ⟨hreads', hnext, hlt, hpos⟩ := hround
    exact ⟨⟨hreads', hnext⟩, by omega⟩
  | inr strings => exact hround

/-- The strings that the loop goes through are those of the list of the bytes. -/
theorem tokenizeString_refines (hs : s.Valid) (hrounds : s.len.toNat < rounds) :
    ReturnsWith (s.tokenizeString memory rounds token start []) fun tokens _ =>
      ∃ strings, Homegrown.tokenizeString (s.content memory) token start = some strings ∧
        strings.map ByteString.buf = tokens.map (bytes memory) := by
  refine (tokenizeString_returns hs hrounds).weaken fun tokens _ htokens => ?_
  have hroom : (s.content memory).buf.length + 1 < 2 ^ 64 := by
    rw [content, length_bytes]
    exact hs.len_lt
  obtain ⟨strings, hrun, hstrings⟩ :
      ∃ strings, Homegrown.tokenizeString (s.content memory) token start = some strings ∧
        strings.map ByteString.buf = pieces token ((s.bytes memory).drop start.toNat) :=
    tokenizeFrom_eq_pieces hroom (Nat.lt_succ_of_le (Nat.sub_le _ _))
  exact ⟨strings, hrun, hstrings.trans htokens.2.2.symm⟩

/-- Tokenizing is an exact split. -/
theorem tokenizeString_splits (hs : s.Valid) :
    ReturnsWith (s.tokenizeString memory (s.len.toNat + 1) token start []) fun tokens reads =>
      (∀ t ∈ tokens, token ∉ t.bytes memory) ∧
      [token].intercalate (tokens.map (bytes memory)) =
        dropTerminator token ((s.bytes memory).drop start.toNat) ∧
      (∀ t ∈ tokens, s.HasSlice t) ∧
      s.ReadsInside reads := by
  refine (tokenizeString_returns hs (Nat.lt_succ_self _)).weaken fun tokens reads htokens => ?_
  obtain ⟨hreads, hslices, hpieces⟩ := htokens
  refine ⟨fun t ht => ?_, ?_, hslices, hreads⟩
  · have hmem := List.mem_map_of_mem (f := bytes memory) ht
    rw [hpieces] at hmem
    exact notMem_of_mem_pieces hmem
  · rw [hpieces, intercalate_pieces]

theorem tokenizeString_splits_list :
    ReturnsWith ((⟨0x1000, 5⟩ : StringRef).tokenizeString
        (storeBytes (fun _ => 0) 0x1000 (text "a,,b,")) 6 0x2c 0 []) fun tokens reads =>
      (∀ t ∈ tokens, 0x2c ∉ t.bytes (storeBytes (fun _ => 0) 0x1000 (text "a,,b,"))) ∧
      [0x2c].intercalate
          (tokens.map (bytes (storeBytes (fun _ => 0) 0x1000 (text "a,,b,")))) =
        dropTerminator 0x2c
          (((⟨0x1000, 5⟩ : StringRef).bytes
            (storeBytes (fun _ => 0) 0x1000 (text "a,,b,"))).drop 0) ∧
      (∀ t ∈ tokens, (⟨0x1000, 5⟩ : StringRef).HasSlice t) ∧
      (⟨0x1000, 5⟩ : StringRef).ReadsInside reads :=
  tokenizeString_splits ⟨by decide, by decide⟩

example : ReturnsWith ((⟨0x1000, 5⟩ : StringRef).tokenizeString
    (storeBytes (fun _ => 0) 0x1000 (text "a,,b,")) 6 0x2c 0 []) fun tokens _ =>
      tokens = [⟨0x1000, 1⟩, ⟨0x1002, 0⟩, ⟨0x1003, 1⟩] := by decide

end StringRef

end Homegrown
