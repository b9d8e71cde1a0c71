import Homegrown.Freestanding.Window

/-!
# Looking up logical lines

`logicalLines` is a rotated ring, which holds zeros before any logical line has begun behind a
newline. Read from its oldest entry on, its entries never decrease, so that the binary search of
`I8IndexToLogicalLine` ends at the last entry at or before a position. Positions are numbers of
64 bits: this holds as long as their count has not wrapped.
-/

namespace Homegrown.Freestanding

/-- An entry of `logicalLines` in the order of the ring, the oldest one first. -/
def Screen.heldLine (s : Screen) (j : Nat) : Nat :=
  s.logicalLines (ringPlus s.logicalLineToWrite (j + 1) maxScrollbackLines)

/-- How many logical lines have begun behind a newline. -/
def linesBegun (stored : List U8) : Nat := stored.dropLast.count newline

/-- The loop of `I8IndexToLogicalLine` ends, with its left end at a place. -/
inductive SearchEnds (s : Screen) (x : Nat) : Nat → Nat → Nat → Prop
  | done {left right : Nat} (h : ¬ 1 < ringMinus right left maxScrollbackLines) :
    SearchEnds s x left right left
  | goLeft {left right mid found : Nat} (h : 1 < ringMinus right left maxScrollbackLines)
    (hmid : mid = ringPlus left (ringMinus right left maxScrollbackLines / 2) maxScrollbackLines)
    (hgt : x < s.logicalLines mid) (hrest : SearchEnds s x left mid found) :
    SearchEnds s x left right found
  | goRight {left right mid found : Nat} (h : 1 < ringMinus right left maxScrollbackLines)
    (hmid : mid = ringPlus left (ringMinus right left maxScrollbackLines / 2) maxScrollbackLines)
    (hle : s.logicalLines mid ≤ x) (hrest : SearchEnds s x mid right found) :
    SearchEnds s x left right found

/-- The logical lines are in order, begin behind newlines, and are found by their positions. -/
structure LooksUpLines (s : Screen) (stored : List U8) : Prop where
  sorted : ∀ i j, i ≤ j → j < maxScrollbackLines → s.heldLine i ≤ s.heldLine j
  begun : ∀ j < maxScrollbackLines, maxScrollbackLines ≤ j + linesBegun stored →
    s.heldLine j < stored.length ∧ 0 < s.heldLine j ∧
      stored[s.heldLine j - 1]? = some newline
  ends : ∀ x < s.logicalLines s.logicalLineToWrite,
    SearchEnds s x (ringIncrement s.logicalLineToWrite maxScrollbackLines) s.logicalLineToWrite
      (I8IndexToLogicalLine s x)
  found : ∀ x, s.heldLine 0 ≤ x → ∃ j < maxScrollbackLines,
    I8IndexToLogicalLine s x = ringPlus s.logicalLineToWrite (j + 1) maxScrollbackLines ∧
      s.heldLine j ≤ x ∧ ∀ i, j < i → i < maxScrollbackLines → x < s.heldLine i

/-! ## The ring in order -/

section Held

variable {s : Screen} {stored : List U8} {x a b j : Nat}

/-- As many lines as there are entries to begin with, and those begun since. -/
theorem length_heldLines :
    (heldLines stored).length = maxScrollbackLines + 1 + linesBegun stored := by
  induction stored using List.reverseRecOn with
  | nil => simp [heldLines, logicalStarts, linesBegun]
  | append_singleton stored ch ih =>
    have hcount : linesBegun (stored ++ [ch]) =
        linesBegun stored + if stored.getLast? = some newline then 1 else 0 := by
      rw [linesBegun, linesBegun, List.dropLast_concat]
      cases stored using List.reverseRecOn with
      | nil => rfl
      | append_singleton stored last =>
        rw [List.dropLast_concat, List.count_append, List.count_singleton, List.getLast?_concat]
        simp
    rw [heldLines_append, List.length_append, ih, hcount]
    split
    · rfl
    · rfl

theorem ringIncrement_eq_ringPlus (val n : Nat) : ringIncrement val n = ringPlus val 1 n := rfl

/-- The places that the ring holds, from the oldest on. -/
theorem isHeld_oldestLine_add (hj : j < maxScrollbackLines) :
    IsHeld stored (oldestLine stored + j) := by
  have hlong := maxScrollbackLines_lt_length stored
  exact ⟨by rw [oldestLine]; omega, by rw [oldestLine]; omega⟩

/-- The entries from the one to be written next on are the oldest lines. -/
theorem Stored.ringPlus_logicalLineToWrite (h : Stored s stored) (j : Nat) :
    ringPlus s.logicalLineToWrite (j + 1) maxScrollbackLines =
      (oldestLine stored + j) % maxScrollbackLines := by
  have hlong := maxScrollbackLines_lt_length stored
  have hsum : (heldLines stored).length - 1 + (j + 1) =
      oldestLine stored + j + maxScrollbackLines := by
    rw [oldestLine]
    omega
  rw [h.logicalLineToWrite, ringPlus_mod, hsum, Nat.add_mod_right]

/-- The lines that are held, from the oldest one on. -/
theorem Stored.heldLine (h : Stored s stored) (hj : j < maxScrollbackLines) :
    s.heldLine j = lineStart stored (oldestLine stored + j) := by
  rw [Screen.heldLine, h.ringPlus_logicalLineToWrite]
  exact h.line (isHeld_oldestLine_add hj)

/-- A place behind the zeros is that of a logical line that began behind a newline. -/
theorem newline_before_lineStart {k : Nat} (hk : k < (heldLines stored).length)
    (hbegun : maxScrollbackLines < k) :
    lineStart stored k < stored.length ∧ 0 < lineStart stored k ∧
      stored[lineStart stored k - 1]? = some newline := by
  obtain ⟨m, rfl⟩ : ∃ m, k = maxScrollbackLines + (m + 1) := ⟨k - maxScrollbackLines - 1, by omega⟩
  have hmem : lineStart stored (maxScrollbackLines + (m + 1)) ∈
      (List.range stored.length).filter fun k => 0 < k ∧ stored[k - 1]? = some newline := by
    rw [heldLines, List.length_append, List.length_replicate, logicalStarts,
      List.length_cons] at hk
    rw [lineStart, heldLines, List.getD_append_right _ _ _ _ (by
      rw [List.length_replicate]
      omega), List.length_replicate, Nat.add_sub_cancel_left, logicalStarts, List.getD_cons_succ,
      List.getD_eq_getElem _ _ (by omega)]
    exact List.getElem_mem _
  obtain ⟨hrange, hspec⟩ := List.mem_filter.mp hmem
  exact ⟨List.mem_range.mp hrange, of_decide_eq_true hspec⟩

/-- The search halves its interval until that has no entry inside. -/
theorem searchEnds_searchLogicalLines (ha : IsHeld stored a) (hb : IsHeld stored b) (hab : a < b)
    {rounds : Nat} (hrounds : b ≤ a + rounds + 1) :
    SearchEnds s x (a % maxScrollbackLines) (b % maxScrollbackLines)
      (searchLogicalLines s x rounds (a % maxScrollbackLines) (b % maxScrollbackLines)) := by
  induction rounds generalizing a b with
  | zero =>
    refine .done ?_
    rw [ringMinus_of_isHeld ha hb hab.le]
    omega
  | succ rounds ih =>
    have hdistance := ringMinus_of_isHeld ha hb hab.le
    rw [searchLogicalLines]
    split
    · rename_i hmore
      have hlt := hb.lt
      have hheld := ha.held
      rw [hdistance] at hmore
      have hmid : IsHeld stored (a + (b - a) / 2) := ⟨by omega, by omega⟩
      have hindex : ringPlus (a % maxScrollbackLines) (ringMinus (b % maxScrollbackLines)
          (a % maxScrollbackLines) maxScrollbackLines / 2) maxScrollbackLines =
            (a + (b - a) / 2) % maxScrollbackLines := by
        rw [hdistance, ringPlus_mod]
      rw [hindex]
      dsimp only
      split
      · rename_i hgt
        exact .goLeft (by rw [hdistance]; exact hmore) hindex.symm hgt
          (ih ha hmid (by omega) (by omega))
      · rename_i hle
        exact .goRight (by rw [hdistance]; exact hmore) hindex.symm (not_lt.mp hle)
          (ih hmid hb (by omega) (by omega))
    · rename_i hdone
      exact .done hdone

/-- What is stored determines what is looked up. -/
theorem Stored.looksUpLines (h : Stored s stored) : LooksUpLines s stored := by
  have hlong := maxScrollbackLines_lt_length stored
  have hlength : (heldLines stored).length = maxScrollbackLines + 1 + linesBegun stored :=
    length_heldLines
  have hN : maxScrollbackLines = 8192 := rfl
  refine ⟨fun i j hij hj => ?_, fun j hj hbegun => ?_, fun x hx => ?_, fun x hx => ?_⟩
  · have hi : i < maxScrollbackLines := hij.trans_lt hj
    rw [h.heldLine hj, h.heldLine hi]
    exact lineStart_mono (Nat.add_le_add_left hij _) (isHeld_oldestLine_add hj).lt
  · rw [h.heldLine hj]
    exact newline_before_lineStart (isHeld_oldestLine_add hj).lt (by rw [oldestLine]; omega)
  · have hindex : ringIncrement s.logicalLineToWrite maxScrollbackLines =
        oldestLine stored % maxScrollbackLines := by
      have holdest := h.ringPlus_logicalLineToWrite 0
      rw [Nat.add_zero (oldestLine stored), Nat.zero_add 1] at holdest
      rw [ringIncrement_eq_ringPlus]
      exact holdest
    have hnewest := isHeld_newest stored
    have holdest := isHeld_oldestLine stored
    rw [Freestanding.I8IndexToLogicalLine, if_neg (not_le.mpr hx), hindex, h.logicalLineToWrite]
    exact searchEnds_searchLogicalLines holdest hnewest (by rw [oldestLine]; omega)
      (by rw [oldestLine]; omega)
  · obtain ⟨k, hk, hindex, hle, hnext⟩ := h.I8IndexToLogicalLine x
    have hlt := hk.lt
    have hold := hk.oldestLine_le
    have hkle : lineStart stored k ≤ x := by
      rcases hle with hle | hlast
      · exact hle
      · have hk0 : k = oldestLine stored + 0 := by
          rw [oldestLine]
          omega
        rw [h.heldLine (by decide), ← hk0] at hx
        exact hx
    have hplace : oldestLine stored + (k - oldestLine stored) = k := by omega
    have hj : k - oldestLine stored < maxScrollbackLines := by
      rw [oldestLine] at hold ⊢
      omega
    refine ⟨k - oldestLine stored, hj, ?_, ?_, fun i hi hiN => ?_⟩
    · rw [hindex, h.ringPlus_logicalLineToWrite, hplace]
    · rwa [h.heldLine hj, hplace]
    · have hheld : oldestLine stored + i < (heldLines stored).length :=
        (isHeld_oldestLine_add hiN).lt
      rw [h.heldLine hiN]
      exact (hnext (by omega)).trans_le (lineStart_mono (by omega) hheld)

end Held

/-! ## Runs of flushes -/

section Flush

variable {g : Geometry} {s : Screen} {stored : List U8} {buffers : List (List U8)}

/-- Drawing the tail does not change the text. -/
theorem toTail_stored (h : Stored s stored) : Stored (toTail g s).1 stored :=
  h.congr rfl rfl rfl rfl rfl rfl

/-- Going to the tail leaves the logical lines as they are. -/
theorem heldLine_of_storeChars {chars : List U8} {r : Screen × List Nat}
    (hr : r = if (chars.foldl Freestanding.storeChar s).isTailing then
        toTail g (chars.foldl Freestanding.storeChar s)
      else (chars.foldl Freestanding.storeChar s, [])) (j : Nat) :
    r.1.heldLine j = (chars.foldl Freestanding.storeChar s).heldLine j := by
  rw [hr]
  split
  · rfl
  · rfl

/-- A flush holds the lines that storing its characters gives. -/
theorem flushToScreen_heldLine (buffer : List U8) (j : Nat) :
    (flushToScreen g s buffer).1.heldLine j =
      ((storedChars buffer).foldl Freestanding.storeChar s).heldLine j :=
  heldLine_of_storeChars (by rw [Freestanding.flushToScreen]) j

/-- Storing characters and going to the tail. -/
theorem Stored.storeChars (h : Stored s stored) {chars : List U8}
    (hcount : stored.length + chars.length < 2 ^ 64) {r : Screen × List Nat}
    (hr : r = if (chars.foldl Freestanding.storeChar s).isTailing then
        toTail g (chars.foldl Freestanding.storeChar s)
      else (chars.foldl Freestanding.storeChar s, [])) : Stored r.1 (stored ++ chars) := by
  have hstored := h.foldl hcount
  rw [hr]
  split
  · exact toTail_stored hstored
  · exact hstored

/-- A flush stores the characters of its buffer. -/
theorem Stored.flushToScreen (h : Stored s stored) {buffer : List U8}
    (hcount : stored.length + (storedChars buffer).length < 2 ^ 64) :
    Stored (flushToScreen g s buffer).1 (stored ++ storedChars buffer) :=
  h.storeChars hcount (by rw [Freestanding.flushToScreen])

theorem flushChunks_nil : Freestanding.flushChunks g s [] = s := rfl

/-- Buffers in two parts. -/
theorem flushChunks_append (more : List (List U8)) :
    Freestanding.flushChunks g s (buffers ++ more) =
      Freestanding.flushChunks g (Freestanding.flushChunks g s buffers) more := by
  simp only [Freestanding.flushChunks, List.foldl_append]

/-- Any number of flushes store the characters of their buffers. -/
theorem Stored.flushChunks (h : Stored s stored)
    (hcount : stored.length + (buffers.flatMap storedChars).length < 2 ^ 64) :
    Stored (flushChunks g s buffers) (stored ++ buffers.flatMap storedChars) := by
  induction buffers generalizing s stored with
  | nil => rwa [List.flatMap_nil, List.append_nil]
  | cons buffer buffers ih =>
    rw [List.flatMap_cons, List.length_append] at hcount
    rw [flushChunks_cons, List.flatMap_cons, ← List.append_assoc]
    exact ih (h.flushToScreen (by omega)) (by rw [List.length_append]; omega)

/-- However often text was flushed, logical lines are looked up by their positions, as long as
fewer than `2 ^ 64` characters were stored. -/
theorem flushChunks_looksUpLines (g : Geometry) (buf : Nat → U8) (buffers : List (List U8))
    (hcount : (buffers.flatMap storedChars).length < 2 ^ 64) :
    LooksUpLines (flushChunks g (initialScreen buf) buffers) (buffers.flatMap storedChars) := by
  have hstored : Stored (flushChunks g (initialScreen buf) buffers)
      ([] ++ buffers.flatMap storedChars) :=
    (stored_initialScreen buf).flushChunks (by rwa [List.length_nil, Nat.zero_add])
  rw [List.nil_append] at hstored
  exact hstored.looksUpLines

/-- Two lines, behind the end of the first of which another one begins. -/
theorem flushChunks_looksUpLines_two :
    LooksUpLines (flushChunks ⟨4, 2⟩ (initialScreen fun _ => 0) [[97, 10], [98]])
      ([[97, 10], [98]].flatMap storedChars) := by
  have hchars : ([[97, 10], [98]] : List (List U8)).flatMap storedChars = [97, 10, 98] := by
    decide
  refine flushChunks_looksUpLines ⟨4, 2⟩ (fun _ => 0) [[97, 10], [98]] ?_
  rw [hchars]
  decide

/-! ## When the count of characters wraps -/

/-- Newlines, until one more character makes their count `2 ^ 64`. -/
def wrappingBuffers : List (List U8) :=
  List.replicate (2 ^ 48 - 1) (List.replicate fileBufLen newline) ++
    [List.replicate (fileBufLen - 1) newline]

/-- The characters of a buffer that is flushed again and again. -/
theorem length_flatMap_replicate (n : Nat) {buffer : List U8} (h : buffer.length ≤ fileBufLen) :
    ((List.replicate n buffer).flatMap storedChars).length = n * buffer.length := by
  induction n with
  | zero => rw [List.replicate_zero, List.flatMap_nil, List.length_nil, Nat.zero_mul]
  | succ n ih =>
    rw [List.replicate_succ, List.flatMap_cons, List.length_append, ih,
      storedChars_of_length_le h, Nat.succ_mul, Nat.add_comm]

/-- These buffers leave one character to the end of the positions. -/
theorem length_wrappingBuffers : (wrappingBuffers.flatMap storedChars).length = 2 ^ 64 - 1 := by
  have hfull := List.length_replicate (n := fileBufLen) (a := newline)
  have hlast := List.length_replicate (n := fileBufLen - 1) (a := newline)
  rw [wrappingBuffers, List.flatMap_append, List.length_append,
    length_flatMap_replicate _ hfull.le, hfull, List.flatMap_singleton,
    storedChars_of_length_le (by rw [hlast]; exact Nat.sub_le _ _), hlast]
  rfl

/-- Their last character ends a line. -/
theorem getLast?_wrappingBuffers :
    (wrappingBuffers.flatMap storedChars).getLast? = some newline := by
  have hlast := List.length_replicate (n := fileBufLen - 1) (a := newline)
  rw [wrappingBuffers, List.flatMap_append, List.flatMap_singleton,
    storedChars_of_length_le (by rw [hlast]; exact Nat.sub_le _ _), List.getLast?_append_of_ne_nil,
    List.getLast?_replicate, if_neg (by decide)]
  exact List.ne_nil_of_length_pos (by rw [hlast]; decide)

/-- Behind a newline, two newlines are stored as two logical lines. -/
theorem storeChar_newline_newline (h : s.logicalNewline = true) :
    (storeChar (storeChar s newline) newline).heldLine (maxScrollbackLines - 2) = s.charCount ∧
      (storeChar (storeChar s newline) newline).heldLine (maxScrollbackLines - 1) =
        (s.charCount + 1) % 2 ^ 64 := by
  have hnewline : (storeChar s newline).logicalNewline = true := by
    rw [storeChar_logicalNewline]
    exact decide_eq_true rfl
  obtain ⟨hwrite, hlines⟩ := storeChar_of_newline newline h
  obtain ⟨hwrite', hlines'⟩ := storeChar_of_newline newline hnewline
  have hfirst : ringPlus (ringIncrement (ringIncrement s.logicalLineToWrite maxScrollbackLines)
      maxScrollbackLines) (maxScrollbackLines - 2 + 1) maxScrollbackLines =
        ringIncrement s.logicalLineToWrite maxScrollbackLines := by
    simp only [ringPlus, ringIncrement, maxScrollbackLines]
    omega
  have hsecond : ringPlus (ringIncrement (ringIncrement s.logicalLineToWrite maxScrollbackLines)
      maxScrollbackLines) (maxScrollbackLines - 1 + 1) maxScrollbackLines =
        ringIncrement (ringIncrement s.logicalLineToWrite maxScrollbackLines)
          maxScrollbackLines := by
    simp only [ringPlus, ringIncrement, maxScrollbackLines]
    omega
  have hne : ringIncrement s.logicalLineToWrite maxScrollbackLines ≠
      ringIncrement (ringIncrement s.logicalLineToWrite maxScrollbackLines)
        maxScrollbackLines := by
    simp only [ringIncrement, maxScrollbackLines]
    omega
  rw [Screen.heldLine, Screen.heldLine, hlines', hwrite', hlines, hwrite, hfirst, hsecond,
    Function.update_of_ne hne, Function.update_self, Function.update_self, storeChar_charCount]
  exact ⟨rfl, rfl⟩

/-- The entry for the logical line that begins where the count has wrapped is below the one
before it. -/
theorem flushChunks_not_looksUpLines :
    ¬ LooksUpLines
      (flushChunks ⟨4, 2⟩ (initialScreen fun _ => 0) (wrappingBuffers ++ [[newline, newline]]))
      ((wrappingBuffers ++ [[newline, newline]]).flatMap storedChars) := by
  intro hlooks
  have hstored : Stored (flushChunks ⟨4, 2⟩ (initialScreen fun _ => 0) wrappingBuffers)
      ([] ++ wrappingBuffers.flatMap storedChars) :=
    (stored_initialScreen fun _ => 0).flushChunks (by
      rw [length_wrappingBuffers]
      decide)
  rw [List.nil_append] at hstored
  have hnewline := hstored.logicalNewline.mpr getLast?_wrappingBuffers
  have hcount := hstored.charCount
  rw [length_wrappingBuffers] at hcount
  have hsorted := hlooks.sorted (maxScrollbackLines - 2) (maxScrollbackLines - 1) (by decide)
    (by decide)
  rw [flushChunks_append, flushChunks_cons, flushChunks_nil, flushToScreen_heldLine,
    flushToScreen_heldLine, storedChars_of_length_le (by decide)] at hsorted
  obtain ⟨hfirst, hsecond⟩ := storeChar_newline_newline hnewline
  rw [List.foldl_cons, List.foldl_cons, List.foldl_nil, hfirst, hsecond, hcount] at hsorted
  exact absurd hsorted (by decide)

end Flush

end Homegrown.Freestanding
