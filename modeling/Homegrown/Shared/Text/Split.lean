import Mathlib.Algebra.BigOperators.Group.List.Basic
import Homegrown.Core.Pieces
import Homegrown.Shared.Text.Converter

/-!
# Splitting strings

`TOKENIZE_STRING` goes through the pieces of a string between the bytes equal to its token.
A piece that is followed by the token costs one round and leaves the rest of the string.
-/

namespace Homegrown

/-- The bytes from a position on that come before a token, or all of them. -/
def splitString (s : ByteString) (token : U8) (start : U64) : ByteString where
  buf := (s.buf.drop start.toNat).takeWhile (· ≠ token)
  length_lt := by
    refine ((List.takeWhile_sublist _).length_le.trans ?_).trans_lt s.length_lt
    rw [List.length_drop]
    exact Nat.sub_le _ _

/-- The strings that `TOKENIZE_STRING` assigns to its iterator from a position on, if it ends
within the rounds. -/
def tokenizeFrom (s : ByteString) (token : U8) : Nat → U64 → Option (List ByteString)
  | 0, _ => none
  | rounds + 1, pos =>
    if pos < s.len then
      let string := splitString s token pos
      (tokenizeFrom s token rounds (pos + (string.len + 1))).map (string :: ·)
    else
      some []

/-- `TOKENIZE_STRING`. Every round moves on by a byte at least. -/
def tokenizeString (s : ByteString) (token : U8) (startingPosition : U64) :
    Option (List ByteString) :=
  tokenizeFrom s token (s.buf.length + 1) startingPosition

section Tokenize

variable {s : ByteString} {token : U8} {pos : U64} {piece rest : List U8}

theorem tokenizeFrom_of_le (h : s.len ≤ pos) (rounds : Nat) :
    tokenizeFrom s token (rounds + 1) pos = some [] := by
  rw [tokenizeFrom, if_neg (BitVec.not_lt.mpr h)]

/-- A piece that is followed by the token. -/
theorem tokenizeFrom_piece (pos : U64) (h : s.buf.drop pos.toNat = piece ++ token :: rest)
    (hpiece : token ∉ piece) (hlen : piece.length < 2 ^ 64) (rounds : Nat) :
    ∃ next : U64, s.buf.drop next.toNat = rest ∧ next.toNat = pos.toNat + piece.length + 1 ∧
      tokenizeFrom s token (rounds + 1) pos =
        (tokenizeFrom s token rounds next).map (⟨piece, hlen⟩ :: ·) := by
  have hlength := congrArg List.length h
  rw [List.length_drop, List.length_append, List.length_cons] at hlength
  have hs := s.length_lt
  have hmore : pos < s.len := by
    rw [BitVec.lt_def, ByteString.toNat_len]
    omega
  have hsplit : splitString s token pos = ⟨piece, hlen⟩ := by
    simp only [splitString, h, ByteString.mk.injEq]
    exact takeWhile_append_cons hpiece
  have hnext : (pos + ((⟨piece, hlen⟩ : ByteString).len + 1)).toNat =
      pos.toNat + piece.length + 1 := by
    rw [BitVec.toNat_add, BitVec.toNat_add, ByteString.toNat_len]
    simp only [BitVec.ofNat_eq_ofNat, BitVec.toNat_ofNat]
    omega
  refine ⟨pos + ((⟨piece, hlen⟩ : ByteString).len + 1), ?_, hnext, ?_⟩
  · rw [hnext, Nat.add_assoc, ← List.drop_drop, h, List.drop_append]
    simp
  · rw [tokenizeFrom, if_pos hmore, hsplit]

/-- A string of pieces that are all followed by the token. -/
theorem tokenizeFrom_terminated {pieces : List ByteString}
    (h : s.buf.drop pos.toNat = pieces.flatMap fun p => p.buf ++ [token])
    (hpieces : ∀ p ∈ pieces, token ∉ p.buf) {rounds : Nat} (hrounds : pieces.length < rounds) :
    tokenizeFrom s token rounds pos = some pieces := by
  induction pieces generalizing pos rounds with
  | nil =>
    obtain ⟨rounds, rfl⟩ : ∃ k, rounds = k + 1 := ⟨rounds - 1, by omega⟩
    apply tokenizeFrom_of_le
    rw [List.flatMap_nil, List.drop_eq_nil_iff] at h
    rwa [BitVec.le_def, ByteString.toNat_len]
  | cons p pieces ih =>
    obtain ⟨rounds, rfl⟩ : ∃ k, rounds = k + 1 := ⟨rounds - 1, by omega⟩
    rw [List.flatMap_cons, List.append_assoc, List.singleton_append] at h
    obtain ⟨next, hnext, -, hrun⟩ :=
      tokenizeFrom_piece pos h (hpieces p List.mem_cons_self) p.length_lt rounds
    rw [List.length_cons] at hrounds
    rw [hrun, ih hnext (fun p' hp' => hpieces p' (List.mem_cons_of_mem _ hp')) (by omega)]
    rfl

/-- The lines of a string in which every line is ended. -/
theorem tokenizeString_terminated {pieces : List ByteString}
    (h : s.buf = pieces.flatMap fun p => p.buf ++ [token])
    (hpieces : ∀ p ∈ pieces, token ∉ p.buf) : tokenizeString s token 0 = some pieces := by
  apply tokenizeFrom_terminated (by simpa using h) hpieces
  have hle : pieces.length ≤ s.buf.length := by
    have hsum := List.length_le_sum_of_one_le
      (pieces.map fun p => (p.buf ++ [token]).length) (by simp)
    rwa [List.length_map, ← List.length_flatMap, ← h] at hsum
  omega

/-- The strings are the pieces of what there is from the position on, if there is room for a
position behind the last of them. -/
theorem tokenizeFrom_eq_pieces (hroom : s.buf.length + 1 < 2 ^ 64) {rounds : Nat}
    (hrounds : s.buf.length - pos.toNat < rounds) :
    ∃ strings, tokenizeFrom s token rounds pos = some strings ∧
      strings.map ByteString.buf = pieces token (s.buf.drop pos.toNat) := by
  induction rounds generalizing pos with
  | zero => exact absurd hrounds (Nat.not_lt_zero _)
  | succ rounds ih =>
    by_cases hpos : pos < s.len
    · have hlt : pos.toNat < s.buf.length := by
        rwa [BitVec.lt_def, ByteString.toNat_len] at hpos
      have hlen : (splitString s token pos).buf.length ≤ s.buf.length - pos.toNat := by
        have hle := (List.takeWhile_sublist (fun b => decide (b ≠ token))
          (l := s.buf.drop pos.toNat)).length_le
        rwa [List.length_drop] at hle
      have hnext : (pos + ((splitString s token pos).len + 1)).toNat =
          pos.toNat + ((splitString s token pos).buf.length + 1) := by
        rw [BitVec.toNat_add, BitVec.toNat_add, ByteString.toNat_len]
        simp only [BitVec.ofNat_eq_ofNat, BitVec.toNat_ofNat]
        omega
      have hmeasure :
        s.buf.length - (pos + ((splitString s token pos).len + 1)).toNat < rounds := by
        omega
      obtain ⟨strings, hrun, hstrings⟩ := ih hmeasure
      refine ⟨splitString s token pos :: strings, ?_, ?_⟩
      · simp only [tokenizeFrom, if_pos hpos, hrun, Option.map_some]
      · have hne : s.buf.drop pos.toNat ≠ [] := by
          rw [Ne, List.drop_eq_nil_iff]
          omega
        rw [List.map_cons, hstrings, hnext, ← List.drop_drop, pieces_eq_cons hne]
        rfl
    · have hge : s.buf.length ≤ pos.toNat := by
        rwa [BitVec.lt_def, ByteString.toNat_len, not_lt] at hpos
      refine ⟨[], by rw [tokenizeFrom, if_neg hpos], ?_⟩
      rw [List.drop_of_length_le hge, pieces_nil, List.map_nil]

/-- The two sides of the only token in a string. -/
theorem tokenizeString_pair {a b : ByteString} (h : s.buf = a.buf ++ token :: b.buf)
    (ha : token ∉ a.buf) (hb : token ∉ b.buf) (hne : b.buf ≠ [])
    (hroom : s.buf.length + 1 < 2 ^ 64) : tokenizeString s token 0 = some [a, b] := by
  obtain ⟨strings, hrun, hstrings⟩ : ∃ strings, tokenizeString s token 0 = some strings ∧
      strings.map ByteString.buf = pieces token s.buf :=
    tokenizeFrom_eq_pieces hroom (Nat.lt_succ_of_le (Nat.sub_le _ _))
  have hpieces : strings.map ByteString.buf = [a, b].map ByteString.buf := by
    rw [hstrings, h, pieces_append_cons ha, pieces_of_notMem hne hb]
    rfl
  rw [hrun, ByteString.buf_injective.list_map hpieces]

end Tokenize

end Homegrown
