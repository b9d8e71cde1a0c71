import Homegrown.Freestanding.Screen
import Mathlib.Data.List.Range

/-!
# Logical lines

What `flushToScreen` has stored determines the rings: `buf` holds its last characters, and
`logicalLines` where its last logical lines begin, behind zeros for lines that never were. The
search for the logical line of a position and the walk back over logical lines are stated for
the list of these beginnings.
-/

namespace Homegrown.Freestanding

/-! ## What is stored -/

/-- Where the logical lines of a text begin: at its start, and behind a newline. -/
def logicalStarts (stored : List U8) : List Nat :=
  0 :: (List.range stored.length).filter fun k => 0 < k ∧ stored[k - 1]? = some newline

/-- The list whose last entries `logicalLines` holds. -/
def heldLines (stored : List U8) : List Nat :=
  List.replicate maxScrollbackLines 0 ++ logicalStarts stored

/-- The screen has stored the characters. -/
structure Stored (s : Screen) (stored : List U8) : Prop where
  charCount : s.charCount = stored.length
  nextCharInBuf : s.nextCharInBuf = stored.length % fileBufLen
  buf : RingHolds fileBufLen s.buf stored
  logicalNewline : s.logicalNewline = true ↔ stored.getLast? = some newline
  logicalLineToWrite : s.logicalLineToWrite = ((heldLines stored).length - 1) % maxScrollbackLines
  logicalLines : RingHolds maxScrollbackLines s.logicalLines (heldLines stored)

section Lines

variable {stored : List U8} {ch : U8} {k : Nat}

/-- One more character begins a line when the last one ended one. -/
theorem logicalStarts_append : logicalStarts (stored ++ [ch]) = logicalStarts stored ++
    if stored.getLast? = some newline then [stored.length] else [] := by
  have hold : ((List.range stored.length).filter fun k =>
      0 < k ∧ (stored ++ [ch])[k - 1]? = some newline) =
        (List.range stored.length).filter fun k => 0 < k ∧ stored[k - 1]? = some newline := by
    refine List.filter_congr fun k hk => ?_
    rw [List.getElem?_append_left (by
      have hlt := List.mem_range.mp hk
      omega)]
  have hlast : (0 < stored.length ∧ (stored ++ [ch])[stored.length - 1]? = some newline) ↔
      stored.getLast? = some newline := by
    rw [List.getLast?_eq_getElem?]
    constructor
    · rintro ⟨hpos, hget⟩
      rwa [List.getElem?_append_left (by omega)] at hget
    · intro hget
      have hlt := (List.getElem?_eq_some_iff.mp hget).1
      exact ⟨by omega, by rwa [List.getElem?_append_left hlt]⟩
  rw [logicalStarts, logicalStarts, List.length_append, List.length_singleton, List.range_succ,
    List.filter_append, hold, List.cons_append]
  congr 2
  by_cases h : stored.getLast? = some newline
  · rw [if_pos h, List.filter_singleton]
    rw [decide_eq_true (hlast.mpr h)]
    rfl
  · rw [if_neg h, List.filter_singleton]
    rw [decide_eq_false (mt hlast.mp h)]
    rfl

/-- The same for the lines that are held. -/
theorem heldLines_append : heldLines (stored ++ [ch]) = heldLines stored ++
    if stored.getLast? = some newline then [stored.length] else [] := by
  rw [heldLines, heldLines, logicalStarts_append, List.append_assoc]

/-- There are more entries than the ring has places. -/
theorem maxScrollbackLines_lt_length (stored : List U8) :
    maxScrollbackLines < (heldLines stored).length := by
  rw [heldLines, List.length_append, List.length_replicate, logicalStarts, List.length_cons]
  omega

/-- A logical line begins before the end of the text. -/
theorem le_length_of_mem_heldLines (h : k ∈ heldLines stored) : k ≤ stored.length := by
  rcases List.mem_append.mp h with h | h
  · rw [(List.mem_replicate.mp h).2]
    exact Nat.zero_le _
  · rcases List.mem_cons.mp h with rfl | h
    · exact Nat.zero_le _
    · exact (List.mem_range.mp (List.mem_filter.mp h).1).le

/-- Logical lines begin one after the other, behind the zeros for lines that never were. -/
theorem heldLines_sorted :
    (heldLines stored).Pairwise fun a b => a < b ∨ (a = 0 ∧ b = 0) := by
  rw [heldLines, List.pairwise_append]
  refine ⟨List.pairwise_replicate.mpr (.inr (.inr ⟨rfl, rfl⟩)), ?_, fun a ha b _ => ?_⟩
  · refine List.pairwise_cons.mpr ⟨fun b hb => ?_, ?_⟩
    · have hpos := (decide_eq_true_iff.mp (List.mem_filter.mp hb).2).1
      exact .inl hpos
    · exact (List.pairwise_lt_range.imp Or.inl).filter _
  · rw [(List.mem_replicate.mp ha).2]
    omega

end Lines

/-! ## Storing -/

section Storing

variable {s : Screen} {stored : List U8} {ch : U8}

/-- The initial screen has stored nothing. -/
theorem stored_initialScreen (buf : Nat → U8) : Stored (initialScreen buf) [] := by
  refine ⟨rfl, rfl, RingHolds.nil, by simp [initialScreen], ?_, fun k x hx _ => ?_⟩
  · rw [heldLines, List.length_append, List.length_replicate]
    exact (Nat.mod_self _).symm
  · have hx := List.mem_of_getElem? hx
    have hle := le_length_of_mem_heldLines hx
    exact (Nat.le_zero.mp hle).symm

@[simp] theorem storeChar_charCount : (storeChar s ch).charCount = (s.charCount + 1) % 2 ^ 64 := by
  by_cases h : s.logicalNewline = true <;> simp [storeChar, h]

@[simp] theorem storeChar_nextCharInBuf :
    (storeChar s ch).nextCharInBuf = ringIncrement s.nextCharInBuf fileBufLen := by
  by_cases h : s.logicalNewline = true <;> simp [storeChar, h]

@[simp] theorem storeChar_buf :
    (storeChar s ch).buf = Function.update s.buf s.nextCharInBuf ch := by
  by_cases h : s.logicalNewline = true <;> simp [storeChar, h]

@[simp] theorem storeChar_logicalNewline :
    (storeChar s ch).logicalNewline = decide (ch = newline) := by
  by_cases h : s.logicalNewline = true <;> simp [storeChar, h]

/-- A logical line begins behind a newline. -/
theorem storeChar_of_newline (ch : U8) (h : s.logicalNewline = true) :
    (storeChar s ch).logicalLineToWrite =
        ringIncrement s.logicalLineToWrite maxScrollbackLines ∧
      (storeChar s ch).logicalLines = Function.update s.logicalLines
        (ringIncrement s.logicalLineToWrite maxScrollbackLines) s.charCount := by
  simp [storeChar, h]

/-- Within a line no entry is written. -/
theorem storeChar_of_not_newline (ch : U8) (h : ¬ s.logicalNewline = true) :
    (storeChar s ch).logicalLineToWrite = s.logicalLineToWrite ∧
      (storeChar s ch).logicalLines = s.logicalLines := by
  simp [storeChar, h]

/-- One more character is stored. -/
theorem Stored.storeChar (h : Stored s stored) (hcount : stored.length + 1 < 2 ^ 64) :
    Stored (storeChar s ch) (stored ++ [ch]) := by
  have hlong := maxScrollbackLines_lt_length stored
  have hlast : (stored ++ [ch]).getLast? = some newline ↔ ch = newline := by simp
  refine ⟨?_, ?_, ?_, ?_, ?_, ?_⟩
  · rw [storeChar_charCount, h.charCount, Nat.mod_eq_of_lt hcount, List.length_append]
    rfl
  · rw [storeChar_nextCharInBuf, h.nextCharInBuf, ringIncrement_mod, List.length_append]
    rfl
  · rw [storeChar_buf, h.nextCharInBuf]
    exact h.buf.push
  · rw [storeChar_logicalNewline, hlast, decide_eq_true_iff]
  all_goals
    by_cases hnewline : s.logicalNewline = true
  · have hwrite := (storeChar_of_newline ch hnewline).1
    rw [hwrite, h.logicalLineToWrite, ringIncrement_mod, heldLines_append,
      if_pos (h.logicalNewline.mp hnewline), List.length_append, List.length_singleton,
      Nat.sub_add_cancel (by omega), Nat.add_sub_cancel]
  · rw [(storeChar_of_not_newline ch hnewline).1, h.logicalLineToWrite, heldLines_append,
      if_neg (mt h.logicalNewline.mpr hnewline), List.append_nil]
  · have hlines := (storeChar_of_newline ch hnewline).2
    rw [hlines, h.logicalLineToWrite, ringIncrement_mod, heldLines_append,
      if_pos (h.logicalNewline.mp hnewline), Nat.sub_add_cancel (by omega), h.charCount]
    exact h.logicalLines.push
  · rw [(storeChar_of_not_newline ch hnewline).2, heldLines_append,
      if_neg (mt h.logicalNewline.mpr hnewline), List.append_nil]
    exact h.logicalLines

/-- Any number of characters are stored. -/
theorem Stored.foldl (h : Stored s stored) {chars : List U8}
    (hcount : stored.length + chars.length < 2 ^ 64) :
    Stored (chars.foldl Freestanding.storeChar s) (stored ++ chars) := by
  induction chars generalizing s stored with
  | nil => rwa [List.append_nil]
  | cons ch chars ih =>
    rw [List.length_cons] at hcount
    rw [List.foldl_cons, List.append_cons]
    exact ih (h.storeChar (by omega)) (by rw [List.length_append, List.length_singleton]; omega)

/-- The characters that the buffer still holds. -/
theorem Stored.charAt (h : Stored s stored) {i : Nat} (hi : i < stored.length)
    (hheld : stored.length ≤ i + fileBufLen) : s.charAt i = stored[i] :=
  h.buf.get hi hheld

end Storing

/-! ## Searching -/

/-- Where a logical line begins, by its place in the list of those that are held. -/
def lineStart (stored : List U8) (k : Nat) : Nat := (heldLines stored).getD k 0

section Searching

variable {s : Screen} {stored : List U8} {x a b k : Nat}

/-- The place in the list is one of the last, which the ring still holds. -/
structure IsHeld (stored : List U8) (k : Nat) : Prop where
  lt : k < (heldLines stored).length
  held : (heldLines stored).length ≤ k + maxScrollbackLines

/-- Later lines start later, but for those that were never begun. -/
theorem lineStart_lt (h : a < b) (hb : b < (heldLines stored).length) :
    lineStart stored a < lineStart stored b ∨ lineStart stored b = 0 := by
  rw [lineStart, lineStart, List.getD_eq_getElem _ _ (by omega), List.getD_eq_getElem _ _ hb]
  exact (List.pairwise_iff_getElem.mp heldLines_sorted _ _ (by omega) hb h).imp_right And.right

/-- The starts do not decrease. -/
theorem lineStart_mono (h : a ≤ b) (hb : b < (heldLines stored).length) :
    lineStart stored a ≤ lineStart stored b := by
  rcases h.eq_or_lt with rfl | hlt
  · exact le_rfl
  · rw [lineStart, lineStart, List.getD_eq_getElem _ _ (by omega), List.getD_eq_getElem _ _ hb]
    rcases List.pairwise_iff_getElem.mp heldLines_sorted _ _ (by omega) hb hlt with hlt | hzero
    · exact hlt.le
    · exact hzero.1.trans_le (Nat.zero_le _)

/-- Lines start within the text. -/
theorem lineStart_le (stored : List U8) (k : Nat) : lineStart stored k ≤ stored.length := by
  rw [lineStart, List.getD_eq_getElem?_getD]
  cases h : (heldLines stored)[k]? with
  | none => exact Nat.zero_le _
  | some x => exact le_length_of_mem_heldLines (List.mem_of_getElem? h)

/-- The ring holds the start of a line that is held. -/
theorem Stored.line (h : Stored s stored) (hk : IsHeld stored k) :
    s.logicalLines (k % maxScrollbackLines) = lineStart stored k := by
  rw [lineStart, List.getD_eq_getElem _ _ hk.lt]
  exact h.logicalLines.get hk.lt hk.held

/-- The place of the newest logical line. -/
theorem isHeld_newest (stored : List U8) : IsHeld stored ((heldLines stored).length - 1) := by
  have hlong := maxScrollbackLines_lt_length stored
  have hN : maxScrollbackLines = 8192 := rfl
  exact ⟨by omega, by omega⟩

/-- The distance of two places in the ring is that in the list. -/
theorem ringMinus_of_isHeld (ha : IsHeld stored a) (hb : IsHeld stored b) (hab : a ≤ b) :
    ringMinus (b % maxScrollbackLines) (a % maxScrollbackLines) maxScrollbackLines = b - a := by
  have hlt := hb.lt
  have hheld := ha.held
  have hsame : ringMinus (b % maxScrollbackLines) (a % maxScrollbackLines) maxScrollbackLines =
      ringMinus (b % maxScrollbackLines) a maxScrollbackLines := by
    rw [ringMinus, ringMinus, Nat.mod_mod]
  rw [hsame, ringMinus_mod (by decide) hab, Nat.mod_eq_of_lt (by omega)]

/-- The search ends at the last place whose logical line begins at or before the position, or
at the oldest place that is held. -/
theorem Stored.searchLogicalLines (h : Stored s stored) (ha : IsHeld stored a)
    (hb : IsHeld stored b) (hab : a < b) {rounds : Nat} (hrounds : b ≤ a + rounds + 1)
    (hx : x < lineStart stored b)
    (hleft : lineStart stored a ≤ x ∨ (heldLines stored).length = a + maxScrollbackLines) :
    ∃ k, IsHeld stored k ∧ k + 1 < (heldLines stored).length ∧
      searchLogicalLines s x rounds (a % maxScrollbackLines) (b % maxScrollbackLines) =
        k % maxScrollbackLines ∧
      (lineStart stored k ≤ x ∨ (heldLines stored).length = k + maxScrollbackLines) ∧
      x < lineStart stored (k + 1) := by
  induction rounds generalizing a b with
  | zero =>
    obtain rfl : b = a + 1 := by omega
    exact ⟨a, ha, hb.lt, rfl, hleft, hx⟩
  | succ rounds ih =>
    have hdistance := ringMinus_of_isHeld ha hb hab.le
    rw [Freestanding.searchLogicalLines, hdistance]
    by_cases hmore : 1 < b - a
    · have hlt := hb.lt
      have hheld := ha.held
      have hmid : IsHeld stored (a + (b - a) / 2) := ⟨by omega, by omega⟩
      rw [if_pos hmore, ringPlus_mod]
      dsimp only
      rw [h.line hmid]
      split
      · rename_i hgt
        exact ih ha hmid (by omega) (by omega) hgt hleft
      · rename_i hle
        exact ih hmid hb (by omega) (by omega) hx (.inl (not_lt.mp hle))
    · rw [if_neg hmore]
      obtain rfl : b = a + 1 := by omega
      exact ⟨a, ha, hb.lt, rfl, hleft, hx⟩

/-- `I8IndexToLogicalLine` finds the last logical line that begins at or before a position, or
the oldest one that is held. -/
theorem Stored.I8IndexToLogicalLine (h : Stored s stored) (x : Nat) :
    ∃ k, IsHeld stored k ∧ I8IndexToLogicalLine s x = k % maxScrollbackLines ∧
      (lineStart stored k ≤ x ∨ (heldLines stored).length = k + maxScrollbackLines) ∧
      (k + 1 < (heldLines stored).length → x < lineStart stored (k + 1)) := by
  have hlong := maxScrollbackLines_lt_length stored
  have hnewest := isHeld_newest stored
  rw [Freestanding.I8IndexToLogicalLine, h.logicalLineToWrite, h.line hnewest]
  split
  · rename_i hle
    exact ⟨_, hnewest, rfl, .inl hle, fun hlt => absurd hlt (by omega)⟩
  · rename_i hgt
    have hN : maxScrollbackLines = 8192 := rfl
    have holdest : IsHeld stored ((heldLines stored).length - maxScrollbackLines) :=
      ⟨by omega, by omega⟩
    have hindex : ringIncrement (((heldLines stored).length - 1) % maxScrollbackLines)
        maxScrollbackLines =
          ((heldLines stored).length - maxScrollbackLines) % maxScrollbackLines := by
      rw [ringIncrement_mod, Nat.sub_add_cancel (by omega), Nat.mod_eq_sub_mod hlong.le]
    rw [hindex]
    obtain ⟨k, hk, -, hsearch, hle, hlt⟩ := h.searchLogicalLines holdest hnewest (by omega)
      (show _ ≤ _ + maxScrollbackLines + 1 by omega) (not_le.mp hgt) (.inr (by omega))
    exact ⟨k, hk, hsearch, hle, fun _ => hlt⟩

end Searching

/-! ## Walking back -/

/-- The place that is reached from a place when enough screen lines are counted, for the places
that are left before the oldest one. -/
def walkBack (g : Geometry) (stored : List U8) (screenLinesToProcess : Nat) :
    Nat → Nat → Nat → Nat
  | 0, k, _ => k
  | left + 1, k, processed =>
    if processed < screenLinesToProcess then
      walkBack g stored screenLinesToProcess left (k - 1)
        (processed + toScreenLines g (lineStart stored k - lineStart stored (k - 1)))
    else k

section Walking

variable {g : Geometry} {s : Screen} {stored : List U8} {k left needed processed e : Nat}

/-- The walk goes back. -/
theorem walkBack_le : walkBack g stored needed left k processed ≤ k := by
  induction left generalizing k processed with
  | zero => exact le_rfl
  | succ left ih =>
    rw [walkBack]
    split
    · exact ih.trans (Nat.sub_le k 1)
    · exact le_rfl

/-- The walk does not leave the lines that are held. -/
theorem isHeld_walkBack (hk : IsHeld stored k)
    (hleft : (heldLines stored).length + left ≤ k + maxScrollbackLines) :
    IsHeld stored (walkBack g stored needed left k processed) := by
  induction left generalizing k processed with
  | zero => exact hk
  | succ left ih =>
    have hlt := hk.lt
    rw [walkBack]
    split
    · exact ih ⟨by omega, by omega⟩ (by omega)
    · exact hk

/-- The loop over the ring is the walk over the lines. -/
theorem Stored.oldestLogicalLine (h : Stored s stored) (hk : IsHeld stored k)
    (hleft : (heldLines stored).length + left ≤ k + maxScrollbackLines) :
    oldestLogicalLine g s needed left (k % maxScrollbackLines) processed =
      walkBack g stored needed left k processed % maxScrollbackLines := by
  have hlong := maxScrollbackLines_lt_length stored
  induction left generalizing k processed with
  | zero => rfl
  | succ left ih =>
    have hlt := hk.lt
    have hprevious : IsHeld stored (k - 1) := ⟨by omega, by omega⟩
    rw [Freestanding.oldestLogicalLine, walkBack]
    split
    · rw [ringDecrement_mod (by decide) (by omega)]
      dsimp only
      rw [h.line hk, h.line hprevious]
      exact ih hprevious (by omega)
    · rfl

/-- The place of the oldest logical line that is held. -/
def oldestLine (stored : List U8) : Nat := (heldLines stored).length - maxScrollbackLines

/-- The place of the last logical line that begins before a position. -/
def lineBefore (stored : List U8) (e : Nat) : Nat :=
  Nat.findGreatest (fun k => lineStart stored k < e) ((heldLines stored).length - 1)

/-- Where text is laid out from to get so many screen lines before a position: back over the
logical lines that are held, each counted as long as its characters are many, and no further than
`maxCharsToProcess` characters. -/
def parseStart (g : Geometry) (stored : List U8) (e needed : Nat) : Nat :=
  if e ≤ lineStart stored (oldestLine stored) then e
  else
    let k := lineBefore stored e
    let j := walkBack g stored needed (k - oldestLine stored) k
      (toScreenLines g (e - lineStart stored k))
    if g.maxCharsToProcess < e - lineStart stored j then e - g.maxCharsToProcess
    else lineStart stored j

/-- The oldest line is held. -/
theorem isHeld_oldestLine (stored : List U8) : IsHeld stored (oldestLine stored) := by
  have hlong := maxScrollbackLines_lt_length stored
  have hN : maxScrollbackLines = 8192 := rfl
  exact ⟨by rw [oldestLine]; omega, by rw [oldestLine]; omega⟩

/-- No line that is held is older. -/
theorem IsHeld.oldestLine_le (h : IsHeld stored k) : oldestLine stored ≤ k := by
  have hheld := h.held
  rw [oldestLine]
  omega

/-- The last logical line that begins before a position is the one behind which none does. -/
theorem lineBefore_eq (hk : k < (heldLines stored).length) (hlt : lineStart stored k < e)
    (hnext : k + 1 < (heldLines stored).length → e ≤ lineStart stored (k + 1)) :
    lineBefore stored e = k := by
  rw [lineBefore, Nat.findGreatest_eq_iff]
  refine ⟨by omega, fun _ => hlt, fun n hn hle => ?_⟩
  have hle' : lineStart stored (k + 1) ≤ lineStart stored n := lineStart_mono hn (by omega)
  have hge := hnext (by omega)
  omega

/-- `oldestCharToParseGivenScreenLines` is determined by the text. -/
theorem Stored.oldestCharToParse (h : Stored s stored) (g : Geometry) (e needed : Nat) :
    oldestCharToParseGivenScreenLines g s e needed = parseStart g stored e needed := by
  have hlong := maxScrollbackLines_lt_length stored
  have hN : maxScrollbackLines = 8192 := rfl
  have holdest := isHeld_oldestLine stored
  have hindex : ringIncrement s.logicalLineToWrite maxScrollbackLines =
      oldestLine stored % maxScrollbackLines := by
    rw [h.logicalLineToWrite, ringIncrement_mod, Nat.sub_add_cancel (by omega), oldestLine,
      Nat.mod_eq_sub_mod hlong.le]
  obtain ⟨found, hfound, hsearch, hle, hlt⟩ := h.I8IndexToLogicalLine e
  have hfoundLt := hfound.lt
  have hinj : found % maxScrollbackLines = oldestLine stored % maxScrollbackLines ↔
      found = oldestLine stored := by
    constructor
    · intro heq
      by_contra hne
      have hlater := lt_of_le_of_ne hfound.oldestLine_le (Ne.symm hne)
      have hheld := holdest.held
      exact mod_ne_of_lt hlater (by omega) heq.symm
    · exact congrArg (· % maxScrollbackLines)
  unfold oldestCharToParseGivenScreenLines parseStart
  simp only [hsearch, hindex, hinj, h.line hfound]
  by_cases hsame : found = oldestLine stored ∧ e ≤ lineStart stored found
  · rw [if_pos hsame, if_pos (by rw [← hsame.1]; exact hsame.2)]
  · rw [if_neg hsame]
    have hfoundLe : lineStart stored found ≤ e := by
      rcases hle with hle | hle
      · exact hle
      · by_contra hgt
        exact hsame ⟨by rw [oldestLine]; omega, by omega⟩
    -- The logical line that ends at the position, if one begins there.
    obtain ⟨k, hk, hkeq, hkle, hklt, hknext⟩ : ∃ k, IsHeld stored k ∧
        (if lineStart stored found = e then ringDecrement (found % maxScrollbackLines)
          maxScrollbackLines else found % maxScrollbackLines) = k % maxScrollbackLines ∧
        lineStart stored k ≤ e ∧ (lineStart stored k < e ∨ e = 0) ∧
        (k + 1 < (heldLines stored).length → e ≤ lineStart stored (k + 1)) := by
      by_cases heq : lineStart stored found = e
      · have hheld := hfound.oldestLine_le
        have hne : oldestLine stored ≠ found := fun h' => hsame ⟨h'.symm, heq.ge⟩
        have hbefore := lineStart_lt (show found - 1 < found by omega) hfoundLt
        have hoheld := holdest.held
        have hmono := lineStart_mono (Nat.sub_le found 1) hfoundLt
        refine ⟨found - 1, ⟨by omega, by omega⟩, ?_, by omega, by omega, fun _ => ?_⟩
        · rw [if_pos heq, ringDecrement_mod (by decide) (by omega)]
        · rw [Nat.sub_add_cancel (by omega), heq]
      · exact ⟨found, hfound, if_neg heq, hfoundLe, .inl (lt_of_le_of_ne hfoundLe heq),
          fun h' => (hlt h').le⟩
    have hkheld := hk.held
    have hkold := hk.oldestLine_le
    have hdistance := ringMinus_of_isHeld holdest hk hkold
    have holdestHeld := holdest.held
    have hwalk : IsHeld stored (walkBack g stored needed (k - oldestLine stored) k
        (toScreenLines g (e - lineStart stored k))) :=
      isHeld_walkBack hk (by rw [oldestLine]; omega)
    rw [hkeq, hdistance, h.line hk, h.oldestLogicalLine hk (by rw [oldestLine]; omega),
      h.line hwalk]
    rcases hklt with hklt | rfl
    · have hmono : lineStart stored (oldestLine stored) ≤ lineStart stored k :=
        lineStart_mono hkold hk.lt
      rw [lineBefore_eq hk.lt hklt hknext, if_neg (show ¬ e ≤ _ by omega)]
    · -- No logical line begins before the beginning of the text.
      have hmono : lineStart stored (walkBack g stored needed (k - oldestLine stored) k
          (toScreenLines g (0 - lineStart stored k))) ≤ lineStart stored k :=
        lineStart_mono walkBack_le hk.lt
      rw [if_pos (Nat.zero_le _), if_neg (by omega)]
      omega

/-- The line before a place starts before it. -/
theorem lineStart_lineBefore_lt (h : lineStart stored (oldestLine stored) < e) :
    lineStart stored (lineBefore stored e) < e :=
  Nat.findGreatest_spec (P := fun k => lineStart stored k < e)
    (Nat.le_sub_one_of_lt (isHeld_oldestLine stored).lt) h

/-- The line before a place behind the oldest one is held. -/
theorem isHeld_lineBefore (h : lineStart stored (oldestLine stored) < e) :
    IsHeld stored (lineBefore stored e) := by
  have holdest := isHeld_oldestLine stored
  have hlt := holdest.lt
  have hheld := holdest.held
  have hlast : lineBefore stored e ≤ (heldLines stored).length - 1 := Nat.findGreatest_le _
  have hfirst : oldestLine stored ≤ lineBefore stored e :=
    Nat.le_findGreatest (Nat.le_sub_one_of_lt hlt) h
  exact ⟨by omega, by omega⟩

/-- The parse starts no later than the place it is to reach. -/
theorem parseStart_le : parseStart g stored e needed ≤ e := by
  unfold parseStart
  dsimp only
  split
  · exact le_rfl
  · rename_i hgt
    split
    · exact Nat.sub_le _ _
    · have hlt := lineStart_lineBefore_lt (not_le.mp hgt)
      exact (lineStart_mono walkBack_le (isHeld_lineBefore (not_le.mp hgt)).lt).trans hlt.le

/-- No more than `maxCharsToProcess` characters are laid out before a position. -/
theorem le_parseStart (g : Geometry) (stored : List U8) (e needed : Nat) :
    e ≤ parseStart g stored e needed + g.maxCharsToProcess := by
  unfold parseStart
  dsimp only
  split_ifs <;> omega

/-- The text is laid out from no logical line that is not held. -/
theorem lineStart_oldestLine_le (h : parseStart g stored e needed < e) :
    lineStart stored (oldestLine stored) ≤ parseStart g stored e needed := by
  unfold parseStart at h ⊢
  dsimp only at h ⊢
  split
  · rename_i hle
    rw [if_pos hle] at h
    exact absurd h (lt_irrefl e)
  · rename_i hgt
    have hk := isHeld_lineBefore (not_le.mp hgt)
    have hwalk : IsHeld stored (walkBack g stored needed (lineBefore stored e - oldestLine stored)
        (lineBefore stored e) (toScreenLines g (e - lineStart stored (lineBefore stored e)))) := by
      have hheld := (isHeld_oldestLine stored).held
      have hle := hk.oldestLine_le
      refine isHeld_walkBack hk ?_
      omega
    have hmono := lineStart_mono hwalk.oldestLine_le hwalk.lt
    split
    · omega
    · exact hmono

end Walking

/-! ## Where logical lines begin -/

/-- A logical line of the text begins at a position. -/
def LineBegins (stored : List U8) (i : Nat) : Prop := i = 0 ∨ stored[i - 1]? = some newline

instance (stored : List U8) (i : Nat) : Decidable (LineBegins stored i) :=
  inferInstanceAs (Decidable (_ ∨ _))

section Begin

variable {g : Geometry} {s : Screen} {stored chunk : List U8} {i q : Nat}

/-- More text does not change where the earlier lines begin. -/
theorem lineBegins_append (h : i ≤ stored.length) :
    LineBegins (stored ++ chunk) i ↔ LineBegins stored i := by
  rcases Nat.eq_zero_or_pos i with rfl | hpos
  · exact iff_of_true (.inl rfl) (.inl rfl)
  · rw [LineBegins, LineBegins, List.getElem?_append_left (by omega)]

/-- Where a line is held, one begins. -/
theorem lineBegins_of_mem (h : q ∈ heldLines stored) : LineBegins stored q := by
  rcases List.mem_append.mp h with h | h
  · exact .inl (List.mem_replicate.mp h).2
  · rcases List.mem_cons.mp h with rfl | h
    · exact .inl rfl
    · exact .inr (of_decide_eq_true (List.mem_filter.mp h).2).2

/-- Every line that begins within the text is among the entries. -/
theorem mem_heldLines (h : LineBegins stored q) (hq : q < stored.length) :
    q ∈ heldLines stored := by
  refine List.mem_append_right _ ?_
  rcases Nat.eq_zero_or_pos q with rfl | hpos
  · exact List.mem_cons_self
  · refine List.mem_cons_of_mem _ (List.mem_filter.mpr ⟨List.mem_range.mpr hq, ?_⟩)
    exact decide_eq_true ⟨hpos, h.resolve_left (by omega)⟩

/-- The starts are the entries. -/
theorem lineStart_mem {k : Nat} (hk : k < (heldLines stored).length) :
    lineStart stored k ∈ heldLines stored := by
  rw [lineStart, List.getD_eq_getElem _ _ hk]
  exact List.getElem_mem hk

/-- In a text that is not empty, lines start before its end. -/
theorem lt_length_of_mem_heldLines (h : q ∈ heldLines stored) (hpos : 0 < stored.length) :
    q < stored.length := by
  rcases List.mem_append.mp h with h | h
  · rw [(List.mem_replicate.mp h).2]
    exact hpos
  · rcases List.mem_cons.mp h with rfl | h
    · exact hpos
    · exact List.mem_range.mp (List.mem_filter.mp h).1

/-- The logical line of a position is the last one that begins at or before it, if that is held. -/
theorem Stored.logicalLine_spec (h : Stored s stored) (hpos : 0 < stored.length) (f : Nat) :
    let line := s.logicalLines (Freestanding.I8IndexToLogicalLine s f)
    LineBegins stored line ∧ line < stored.length ∧
      (line ≤ f ∨ line = lineStart stored (oldestLine stored)) ∧
      ∀ q ≤ f, LineBegins stored q → q < stored.length → q ≤ line := by
  obtain ⟨k, hk, hindex, hle, hnext⟩ := h.I8IndexToLogicalLine f
  have hmem := lineStart_mem hk.lt
  rw [hindex, h.line hk]
  refine ⟨lineBegins_of_mem hmem, lt_length_of_mem_heldLines hmem hpos,
    hle.imp_right fun hold => ?_, fun q hq hbegins hlt => ?_⟩
  · rw [oldestLine, hold, Nat.add_sub_cancel]
  · obtain ⟨k', hk', rfl⟩ := List.getElem_of_mem (mem_heldLines hbegins hlt)
    have hstart : lineStart stored k' = (heldLines stored)[k'] := List.getD_eq_getElem _ _ hk'
    rw [← hstart] at hq ⊢
    refine lineStart_mono ?_ hk.lt
    by_contra hgt
    have hmono : lineStart stored (k + 1) ≤ lineStart stored k' :=
      lineStart_mono (by omega) hk'
    have hbehind := hnext (by omega)
    omega

/-- On a screen with room for text, some of it is laid out. -/
theorem parseStart_lt (hmax : 0 < g.maxCharsToProcess) (hpos : 0 < stored.length)
    (needed : Nat) : parseStart g stored stored.length needed < stored.length := by
  have hlast := lt_length_of_mem_heldLines (lineStart_mem (isHeld_oldestLine stored).lt) hpos
  unfold parseStart
  dsimp only
  rw [if_neg (not_le.mpr hlast)]
  split
  · omega
  · exact lt_of_le_of_lt (lineStart_mono walkBack_le (isHeld_lineBefore hlast).lt)
      (lineStart_lineBefore_lt hlast)

end Begin

end Homegrown.Freestanding
