import Homegrown.Freestanding.LogicalLines
import Homegrown.Freestanding.ScreenLines

/-!
# Scrolling back

`buf` holds the last `FILE_BUF_LEN` characters, and `logicalLines` the beginnings of the last
8192 logical lines. Text is laid out again from a logical line that is still listed, whether or
not its characters are still held: a call reads characters that were overwritten exactly when it
is asked for text from before the last `FILE_BUF_LEN` characters.
-/

namespace Homegrown.Freestanding

/-! ## Runs -/

/-- The characters that a call stores. -/
def ScreenCall.chars : ScreenCall → List U8
  | flushToScreen buffer => storedChars buffer
  | rewind _ => []
  | prowind _ => []

/-- A call in a run, with the screen and the stored characters before it. -/
structure ScreenStep where
  screen : Screen
  stored : List U8
  call : ScreenCall

/-- The steps of a run. -/
def runSteps (g : Geometry) (s : Screen) (stored : List U8) : List ScreenCall → List ScreenStep
  | [] => []
  | call :: calls =>
    ⟨s, stored, call⟩ :: runSteps g (call.run g s).1 (stored ++ call.chars) calls

namespace ScreenStep

/-- Every position that the call lays out or draws is that of a character which the buffer still
holds. -/
def ReadsStored (g : Geometry) (step : ScreenStep) : Prop :=
  let (s, reads) := step.call.run g step.screen
  ∀ i ∈ reads, i < s.charCount ∧ s.charCount - i ≤ fileBufLen ∧
    (step.stored ++ step.call.chars)[i]? = some (s.charAt i)

/-- The call does not move the window, or lays out text among the last characters. -/
def StaysInBuffer (g : Geometry) (step : ScreenStep) : Prop :=
  let s := step.screen
  let length := step.stored.length
  match step.call with
  | .flushToScreen _ => True
  | .rewind numberOfScreenLines =>
    let top := s.screenLines s.oldestScreenLineIndex
    let start := parseStart g step.stored top numberOfScreenLines.toNat
    isWindowSmallerThanScreen g s = true ∨ start = top ∨ length - start ≤ fileBufLen
  | .prowind _ =>
    let outside := s.screenLines
      (ringPlus s.oldestScreenLineIndex g.glyphsPerColumn g.ringGlyphsPerColumn)
    isWindowSmallerThanScreen g s = true ∨ length = outside ∨
      length - parseStart g step.stored outside 0 ≤ fileBufLen

section

variable {g : Geometry} {s : Screen} {stored : List U8} {n : U16}

/-- The reads of a step, spelt out. -/
theorem readsStored_iff {call : ScreenCall} : ReadsStored g ⟨s, stored, call⟩ ↔
    ∀ i ∈ (call.run g s).2, i < (call.run g s).1.charCount ∧
      (call.run g s).1.charCount - i ≤ fileBufLen ∧
      (stored ++ call.chars)[i]? = some ((call.run g s).1.charAt i) :=
  Iff.rfl

/-- A flush always stays in the buffer. -/
theorem staysInBuffer_flushToScreen {buffer : List U8} :
    StaysInBuffer g ⟨s, stored, .flushToScreen buffer⟩ :=
  trivial

/-- When scrolling back stays in the buffer. -/
theorem staysInBuffer_rewind : StaysInBuffer g ⟨s, stored, .rewind n⟩ ↔
    isWindowSmallerThanScreen g s = true ∨
      parseStart g stored (s.screenLines s.oldestScreenLineIndex) n.toNat =
        s.screenLines s.oldestScreenLineIndex ∨
      stored.length - parseStart g stored (s.screenLines s.oldestScreenLineIndex) n.toNat ≤
        fileBufLen :=
  Iff.rfl

/-- When scrolling forth stays in the buffer. -/
theorem staysInBuffer_prowind : StaysInBuffer g ⟨s, stored, .prowind n⟩ ↔
    isWindowSmallerThanScreen g s = true ∨
      stored.length = s.screenLines
        (ringPlus s.oldestScreenLineIndex g.glyphsPerColumn g.ringGlyphsPerColumn) ∨
      stored.length - parseStart g stored (s.screenLines
        (ringPlus s.oldestScreenLineIndex g.glyphsPerColumn g.ringGlyphsPerColumn)) 0 ≤
          fileBufLen :=
  Iff.rfl

/-- Nothing was overwritten yet. -/
theorem staysInBuffer_of_length_le {step : ScreenStep} (h : step.stored.length ≤ fileBufLen) :
    StaysInBuffer g step := by
  obtain ⟨s, stored, call⟩ := step
  cases call with
  | flushToScreen buffer => exact staysInBuffer_flushToScreen
  | rewind n => exact staysInBuffer_rewind.mpr (.inr (.inr ((Nat.sub_le _ _).trans h)))
  | prowind n => exact staysInBuffer_prowind.mpr (.inr (.inr ((Nat.sub_le _ _).trans h)))

end

end ScreenStep

/-- A step has stored no more than all calls together. -/
theorem length_stored_le {g : Geometry} {s : Screen} {stored : List U8} {calls : List ScreenCall}
    {step : ScreenStep} (h : step ∈ runSteps g s stored calls) :
    step.stored.length ≤ stored.length + (calls.flatMap ScreenCall.chars).length := by
  induction calls generalizing s stored with
  | nil => exact (List.not_mem_nil h).elim
  | cons call calls ih =>
    rw [List.flatMap_cons, List.length_append]
    rcases List.mem_cons.mp h with rfl | h
    · exact Nat.le_add_right _ _
    · have hle := ih h
      rw [List.length_append] at hle
      omega

/-! ## What calls keep -/

/-- The window lies in the text that was stored. -/
structure InText (g : Geometry) (s : Screen) (stored : List U8) : Prop where
  stored : Stored s stored
  index : s.oldestScreenLineIndex < g.ringGlyphsPerColumn
  lines : ∀ i, s.screenLines i ≤ s.charCount

section Calls

variable {g : Geometry} {s s' : Screen} {stored : List U8} {reads : List Nat}

/-- What is stored depends on six fields. -/
theorem Stored.congr (h : Stored s stored) (hbuf : s'.buf = s.buf)
    (hnext : s'.nextCharInBuf = s.nextCharInBuf) (hcount : s'.charCount = s.charCount)
    (hlines : s'.logicalLines = s.logicalLines)
    (hwrite : s'.logicalLineToWrite = s.logicalLineToWrite)
    (hnewline : s'.logicalNewline = s.logicalNewline) : Stored s' stored :=
  ⟨hcount.trans h.charCount, hnext.trans h.nextCharInBuf, by rw [hbuf]; exact h.buf,
    by rw [hnewline]; exact h.logicalNewline, hwrite.trans h.logicalLineToWrite,
    by rw [hlines]; exact h.logicalLines⟩

/-- What a call leaves behind that lays out text from a position on: it read no position before
that one, and the text is unchanged. -/
structure ReadsFrom (g : Geometry) (s s' : Screen) (stored : List U8) (start : Nat)
    (reads : List Nat) : Prop where
  inText : InText g s' stored
  charCount : s'.charCount = s.charCount
  reads : ∀ x ∈ reads, start ≤ x ∧ x < s.charCount

/-- A call that reads from a position on reads what the buffer holds, if it holds that position. -/
theorem ReadsFrom.readsStored {start : Nat} (h : ReadsFrom g s s' stored start reads)
    (hstart : s.charCount - start ≤ fileBufLen) :
    ∀ i ∈ reads, i < s'.charCount ∧ s'.charCount - i ≤ fileBufLen ∧
      stored[i]? = some (s'.charAt i) := by
  intro i hi
  have hcount := h.charCount
  have hlength := h.inText.stored.charCount
  have hread := h.reads i hi
  have hlt : i < stored.length := by omega
  refine ⟨by omega, by omega, ?_⟩
  rw [h.inText.stored.charAt hlt (by omega), List.getElem?_eq_getElem hlt]

/-- An entry that `fillScreenLines` wrote, counted from its end entry. -/
theorem FillEntries.bounds {r : FillResult} {starts : List Nat} (hg : g.Admitted)
    (h : FillEntries g r starts) {low high m k : Nat}
    (hstarts : ∀ x ∈ starts, low ≤ x ∧ x ≤ high) (hm : m ≤ r.realScreenLinesWritten)
    (hk : k ≤ m) :
    let x := r.screenLinesCopy (ringPlus (ringMinus r.currentScreenLineIndex m
      g.ringGlyphsPerColumn) k g.ringGlyphsPerColumn)
    low ≤ x ∧ x ≤ high := by
  have hring := hg.ring.1
  have hwritten := h.written
  have hcolumn := h.column
  have hentry := entry_fromEnd h.ring (show m < starts.length by omega) (by omega) hk
  rw [← h.index] at hentry
  exact hstarts _ (List.mem_of_getElem? hentry)

/-- A call that lays out text, copies the screen lines at the end of it into the window and
draws them. -/
theorem readsFrom_of_fill (hg : g.Admitted) (h : InText g s stored)
    {dry first e limit m count dest row len lines drawn : Nat} (hdry : dry ≤ e)
    (he : e ≤ s.charCount) (hm : m ≤ (fillScreenLines g s dry first e limit).realScreenLinesWritten)
    (hcount : count ≤ m + 1) {drawing : Screen}
    (hlines : s'.screenLines = spliceScreenLines g s.screenLines
      (fillScreenLines g s dry first e limit).screenLinesCopy dest
      (ringMinus (fillScreenLines g s dry first e limit).currentScreenLineIndex m
        g.ringGlyphsPerColumn) count)
    (hindex : s'.oldestScreenLineIndex < g.ringGlyphsPerColumn)
    (hstored : Stored s' stored) (hdrawing : drawing.screenLines = s'.screenLines)
    (hchars : drawing.charCount = s.charCount)
    (hdrawn : drawn = ringPlus dest 0 g.ringGlyphsPerColumn ∧ 0 < count ∨
      dry ≤ s'.screenLines drawn) :
    ReadsFrom g s s' stored dry ((fillScreenLines g s dry first e limit).reads ++
      (drawLines g drawing drawn lines len row).reads) := by
  have hring := hg.ring.1
  obtain ⟨hreads, starts, hentries, hstarts⟩ := fillScreenLines_entries g s dry first e limit
  rw [max_eq_right hdry] at hstarts
  have hcolumn := hentries.column
  have hcharCount : s'.charCount = s.charCount := by
    rw [hstored.charCount, h.stored.charCount]
  have hfirst : dry ≤ s'.screenLines drawn := by
    rcases hdrawn with ⟨rfl, hpos⟩ | hdrawn
    · rw [hlines, spliceScreenLines_of_lt hpos (by omega)]
      exact (hentries.bounds hg hstarts hm (Nat.zero_le m)).1
    · exact hdrawn
  refine ⟨⟨hstored, hindex, fun i => ?_⟩, hcharCount, fun x hx => ?_⟩
  · rw [hlines, hcharCount]
    rcases spliceScreenLines_cases g s.screenLines _ dest _ count i with hold | ⟨k, hk, hcopy⟩
    · rw [hold]
      exact h.lines i
    · rw [hcopy]
      exact (hentries.bounds hg hstarts hm (by omega)).2.trans he
  · rcases List.mem_append.mp hx with hx | hx
    · have hx := hreads x hx
      omega
    · have hx := drawLines_reads hx
      rw [hdrawing, hchars] at hx
      exact ⟨hfirst.trans hx.1, hx.2⟩

/-- Logical lines begin in the text. -/
theorem Stored.logicalLine_le (h : Stored s stored) (x : Nat) :
    s.logicalLines (Freestanding.I8IndexToLogicalLine s x) ≤ s.charCount := by
  obtain ⟨k, hk, hindex, -⟩ := h.I8IndexToLogicalLine x
  rw [hindex, h.line hk, h.charCount]
  exact lineStart_le stored k

/-- `toTail` lays out text that the buffer holds. -/
theorem toTail_readsFrom (hg : g.Admitted) (h : InText g s stored) :
    ∃ start, s.charCount - start ≤ fileBufLen ∧
      ReadsFrom g s (toTail g s).1 stored start (toTail g s).2 := by
  have hring := hg.ring.1
  have hchars := hg.chars
  have hle : parseStart g stored s.charCount g.glyphsPerColumn ≤ s.charCount := parseStart_le
  have hge := le_parseStart g stored s.charCount g.glyphsPerColumn
  unfold toTail
  simp only [h.stored.oldestCharToParse]
  refine ⟨_, ?_, readsFrom_of_fill hg h (max_le hle (h.stored.logicalLine_le _)) le_rfl le_rfl
    le_rfl rfl ?_ (h.stored.congr rfl rfl rfl rfl rfl rfl) rfl rfl
    (.inl ⟨rfl, Nat.succ_pos _⟩)⟩
  · omega
  · dsimp only
    split
    · exact Nat.mod_lt _ (by omega)
    · exact h.index

/-- `rewind` stays as it is, or lays out text from where it was asked to. -/
theorem rewind_readsFrom (hg : g.Admitted) (h : InText g s stored) (n : Nat) :
    (isWindowSmallerThanScreen g s = true ∨
      parseStart g stored (s.screenLines s.oldestScreenLineIndex) n =
        s.screenLines s.oldestScreenLineIndex) ∧ rewind g s n = (s, []) ∨
    (¬ isWindowSmallerThanScreen g s = true ∧
      parseStart g stored (s.screenLines s.oldestScreenLineIndex) n <
        s.screenLines s.oldestScreenLineIndex) ∧
      ReadsFrom g s (rewind g s n).1 stored
        (parseStart g stored (s.screenLines s.oldestScreenLineIndex) n)
        (rewind g s n).2 ∧
      parseStart g stored (s.screenLines s.oldestScreenLineIndex) n ∈
        (rewind g s n).2 := by
  have hring := hg.ring.1
  have htop := h.lines s.oldestScreenLineIndex
  have hle : parseStart g stored (s.screenLines s.oldestScreenLineIndex) n ≤
      s.screenLines s.oldestScreenLineIndex := parseStart_le
  unfold rewind
  simp only [h.stored.oldestCharToParse]
  split
  · rename_i hsmall
    exact .inl ⟨.inl hsmall, rfl⟩
  · rename_i hsmall
    split
    · rename_i hsame
      exact .inl ⟨.inr hsame, rfl⟩
    · rename_i hne
      have hlt := lt_of_le_of_ne hle hne
      refine .inr ⟨⟨hsmall, hlt⟩, readsFrom_of_fill hg h hle htop (min_le_left _ n)
        (Nat.le_succ _) rfl ?_ (h.stored.congr rfl rfl rfl rfl rfl rfl) rfl rfl ?_,
        List.mem_append_left _ (mem_reads_fillScreenLines g s _ 0 hlt)⟩
      · exact Nat.mod_lt _ (by omega)
      · generalize (fillScreenLines g s _ _ _ 0).realScreenLinesWritten = real
        rcases Nat.eq_zero_or_pos (min real n) with h0 | hpos
        · refine .inr ?_
          have hsame : ringMinus s.oldestScreenLineIndex 0 g.ringGlyphsPerColumn =
              s.oldestScreenLineIndex := by
            rw [ringMinus, Nat.zero_mod, Nat.sub_zero, Nat.add_mod_right,
              Nat.mod_eq_of_lt h.index]
          rw [h0, hsame]
          exact hle
        · refine .inl ⟨?_, hpos⟩
          exact (Nat.mod_eq_of_lt (Nat.mod_lt _ (by omega))).symm

/-- `prowind` stays as it is, or lays out text from where it was asked to. -/
theorem prowind_readsFrom (hg : g.Admitted) (h : InText g s stored) (n : Nat) :
    let outside := s.screenLines
      (ringPlus s.oldestScreenLineIndex g.glyphsPerColumn g.ringGlyphsPerColumn)
    (isWindowSmallerThanScreen g s = true ∨ s.charCount = outside) ∧ prowind g s n = (s, []) ∨
    (¬ isWindowSmallerThanScreen g s = true ∧ s.charCount ≠ outside) ∧
      ReadsFrom g s (prowind g s n).1 stored (parseStart g stored outside 0)
        (prowind g s n).2 ∧
      parseStart g stored outside 0 ∈ (prowind g s n).2 := by
  intro outside
  have hring := hg.ring.1
  have houtside : outside ≤ s.charCount := h.lines _
  have hle : parseStart g stored outside 0 ≤ outside := parseStart_le
  unfold prowind
  simp only [h.stored.oldestCharToParse]
  split
  · rename_i hsmall
    exact .inl ⟨.inl hsmall, rfl⟩
  · rename_i hsmall
    split
    · rename_i hsame
      exact .inl ⟨.inr hsame, rfl⟩
    · rename_i hne
      have hlt := lt_of_le_of_lt hle (lt_of_le_of_ne houtside (Ne.symm hne))
      refine .inr ⟨⟨hsmall, hne⟩, readsFrom_of_fill hg h hlt.le le_rfl le_rfl le_rfl rfl ?_
        (h.stored.congr rfl rfl rfl rfl rfl rfl) rfl rfl (.inl ⟨rfl, Nat.succ_pos _⟩),
        List.mem_append_left _ (mem_reads_fillScreenLines g s _ n hlt)⟩
      exact Nat.mod_lt _ (by omega)

/-- Storing characters leaves the window where it is. -/
theorem foldl_storeChar_window (chars : List U8) (s : Screen) :
    (chars.foldl storeChar s).screenLines = s.screenLines ∧
      (chars.foldl storeChar s).oldestScreenLineIndex = s.oldestScreenLineIndex ∧
      (chars.foldl storeChar s).isTailing = s.isTailing ∧
      (chars.foldl storeChar s).lastScreenlineOpen = s.lastScreenlineOpen := by
  induction chars generalizing s with
  | nil => exact ⟨rfl, rfl, rfl, rfl⟩
  | cons ch chars ih =>
    have hstep : (storeChar s ch).screenLines = s.screenLines ∧
        (storeChar s ch).oldestScreenLineIndex = s.oldestScreenLineIndex ∧
        (storeChar s ch).isTailing = s.isTailing ∧
        (storeChar s ch).lastScreenlineOpen = s.lastScreenlineOpen := by
      by_cases h : s.logicalNewline = true <;> simp [storeChar, h]
    obtain ⟨hlines, hindex, htailing, hopen⟩ := ih (storeChar s ch)
    exact ⟨hlines.trans hstep.1, hindex.trans hstep.2.1, htailing.trans hstep.2.2.1,
      hopen.trans hstep.2.2.2⟩

/-- Storing characters stays in the text. -/
theorem InText.foldl (h : InText g s stored) {chars : List U8}
    (hcount : stored.length + chars.length < 2 ^ 64) :
    InText g (chars.foldl storeChar s) (stored ++ chars) := by
  have hstored := h.stored.foldl hcount
  have hlength := h.stored.charCount
  obtain ⟨hlines, hindex, -, -⟩ := foldl_storeChar_window chars s
  refine ⟨hstored, by rw [hindex]; exact h.index, fun i => ?_⟩
  rw [hlines, hstored.charCount, List.length_append]
  have hline := h.lines i
  omega

/-- A call that leaves the screen as it is reads nothing. -/
theorem readsStored_of_unchanged {call : ScreenCall} (hrun : call.run g s = (s, [])) :
    ScreenStep.ReadsStored g ⟨s, stored, call⟩ := by
  rw [ScreenStep.readsStored_iff, hrun]
  exact fun i hi => (List.not_mem_nil hi).elim

/-- The characters of a flush. -/
theorem ScreenCall.chars_flushToScreen (buffer : List U8) :
    (ScreenCall.flushToScreen buffer).chars = storedChars buffer := by
  rw [ScreenCall.chars]

/-- A flush stores its characters, and draws the tail while it is shown. -/
theorem ScreenCall.run_flushToScreen (g : Geometry) (s : Screen) (buffer : List U8) :
    (ScreenCall.flushToScreen buffer).run g s =
      if ((storedChars buffer).foldl storeChar s).isTailing then
        toTail g ((storedChars buffer).foldl storeChar s)
      else ((storedChars buffer).foldl storeChar s, []) := by
  rw [ScreenCall.run, Freestanding.flushToScreen]

/-- Storing characters and going to the tail reads only what the buffer holds. -/
theorem storeChars_readsStored (hg : g.Admitted) (h : InText g s stored) {chars : List U8}
    (hcount : stored.length + chars.length < 2 ^ 64) {r : Screen × List Nat}
    (hr : r = if (chars.foldl storeChar s).isTailing then toTail g (chars.foldl storeChar s)
      else (chars.foldl storeChar s, [])) :
    (∀ i ∈ r.2, i < r.1.charCount ∧ r.1.charCount - i ≤ fileBufLen ∧
      (stored ++ chars)[i]? = some (r.1.charAt i)) ∧ InText g r.1 (stored ++ chars) := by
  have hafter := h.foldl hcount
  rw [hr]
  split
  · obtain ⟨start, hstart, hfrom⟩ := toTail_readsFrom hg hafter
    exact ⟨hfrom.readsStored hstart, hfrom.inText⟩
  · exact ⟨fun i hi => (List.not_mem_nil hi).elim, hafter⟩

/-- A flush reads what was stored exactly when it stays in the buffer. -/
theorem flushToScreen_readsStored_iff (hg : g.Admitted) (h : InText g s stored)
    {buffer : List U8} (hcount : stored.length + (storedChars buffer).length < 2 ^ 64) :
    (ScreenStep.ReadsStored g ⟨s, stored, .flushToScreen buffer⟩ ↔
      ScreenStep.StaysInBuffer g ⟨s, stored, .flushToScreen buffer⟩) ∧
      InText g ((ScreenCall.flushToScreen buffer).run g s).1
        (stored ++ (ScreenCall.flushToScreen buffer).chars) := by
  rw [ScreenStep.readsStored_iff, ScreenCall.chars_flushToScreen, ScreenCall.run_flushToScreen]
  have hafter := storeChars_readsStored hg h hcount rfl
  exact ⟨iff_of_true hafter.1 ScreenStep.staysInBuffer_flushToScreen, hafter.2⟩

/-- A scroll that reads from a position on, and reads that position, reads only what the buffer
holds if and only if it holds that position. -/
theorem readsStored_iff_of_readsFrom (call : ScreenCall) {start : Nat} (hchars : call.chars = [])
    (hfrom : ReadsFrom g s (call.run g s).1 stored start (call.run g s).2)
    (hmem : start ∈ (call.run g s).2) :
    (ScreenStep.ReadsStored g ⟨s, stored, call⟩ ↔ s.charCount - start ≤ fileBufLen) ∧
      InText g (call.run g s).1 (stored ++ call.chars) := by
  rw [ScreenStep.readsStored_iff, hchars, List.append_nil]
  refine ⟨⟨fun hreads => ?_, hfrom.readsStored⟩, hfrom.inText⟩
  have hstart := (hreads start hmem).2.1
  rwa [hfrom.charCount] at hstart

/-- A call reads only what the buffer holds if and only if it stays in the buffer, and leaves the
window in the text. -/
theorem screenStep_iff (hg : g.Admitted) (h : InText g s stored) (call : ScreenCall)
    (hcount : stored.length + call.chars.length < 2 ^ 64) :
    (ScreenStep.ReadsStored g ⟨s, stored, call⟩ ↔ ScreenStep.StaysInBuffer g ⟨s, stored, call⟩) ∧
      InText g (call.run g s).1 (stored ++ call.chars) := by
  cases call with
  | flushToScreen buffer =>
    rw [ScreenCall.chars_flushToScreen] at hcount
    exact flushToScreen_readsStored_iff hg h hcount
  | rewind n =>
    rcases rewind_readsFrom hg h n.toNat with ⟨hsame, hrun⟩ | ⟨⟨hsmall, hlt⟩, hfrom, hmem⟩
    · have hstays : ScreenStep.StaysInBuffer g ⟨s, stored, .rewind n⟩ := by
        rw [ScreenStep.staysInBuffer_rewind, ← h.stored.charCount]
        rcases hsame with hsmall | heq
        · exact .inl hsmall
        · exact .inr (.inl heq)
      refine ⟨⟨fun _ => hstays, fun _ => readsStored_of_unchanged hrun⟩, ?_⟩
      change InText g (rewind g s n.toNat).1 (stored ++ [])
      rw [hrun, List.append_nil]
      exact h
    · obtain ⟨hiff, hinText⟩ := readsStored_iff_of_readsFrom (.rewind n) rfl hfrom hmem
      rw [hiff, ScreenStep.staysInBuffer_rewind, ← h.stored.charCount]
      exact ⟨⟨fun hle => .inr (.inr hle),
        fun hstays => (hstays.resolve_left hsmall).resolve_left hlt.ne⟩, hinText⟩
  | prowind n =>
    rcases prowind_readsFrom hg h n.toNat with ⟨hsame, hrun⟩ | ⟨⟨hsmall, hne⟩, hfrom, hmem⟩
    · have hstays : ScreenStep.StaysInBuffer g ⟨s, stored, .prowind n⟩ := by
        rw [ScreenStep.staysInBuffer_prowind, ← h.stored.charCount]
        rcases hsame with hsmall | heq
        · exact .inl hsmall
        · exact .inr (.inl heq)
      refine ⟨⟨fun _ => hstays, fun _ => readsStored_of_unchanged hrun⟩, ?_⟩
      change InText g (prowind g s n.toNat).1 (stored ++ [])
      rw [hrun, List.append_nil]
      exact h
    · obtain ⟨hiff, hinText⟩ := readsStored_iff_of_readsFrom (.prowind n) rfl hfrom hmem
      rw [hiff, ScreenStep.staysInBuffer_prowind, ← h.stored.charCount]
      exact ⟨⟨fun hle => .inr (.inr hle),
        fun hstays => (hstays.resolve_left hsmall).resolve_left hne⟩, hinText⟩

/-- `prowind` goes on from the end of the window, whether or not the buffer still holds it. -/
theorem not_readsStored_prowind (hg : g.Admitted) (h : InText g s stored) {n : U16}
    (hsmall : ¬ isWindowSmallerThanScreen g s = true) (hlength : stored.length < 2 ^ 64)
    (hlong : s.screenLines (ringPlus s.oldestScreenLineIndex g.glyphsPerColumn
      g.ringGlyphsPerColumn) + fileBufLen < stored.length) :
    ¬ ScreenStep.ReadsStored g ⟨s, stored, .prowind n⟩ := by
  have hle : parseStart g stored _ 0 ≤ s.screenLines (ringPlus s.oldestScreenLineIndex
    g.glyphsPerColumn g.ringGlyphsPerColumn) := parseStart_le
  rw [(screenStep_iff hg h (.prowind n) hlength).1, ScreenStep.staysInBuffer_prowind]
  rintro (hsame | hend | hheld)
  · exact hsmall hsame
  · omega
  · omega

/-- Of a buffer that is not too long, all characters are stored. -/
theorem storedChars_of_length_le {buffer : List U8} (h : buffer.length ≤ fileBufLen) :
    storedChars buffer = buffer := by
  rw [storedChars, Nat.sub_eq_zero_of_le h, List.drop_zero]

/-- A window that was scrolled back stays, and a whole buffer of characters overwrites it. -/
theorem not_readsStored_prowind_of_flush (hg : g.Admitted) (h : InText g s stored)
    {buffer : List U8} {n : U16} (htail : s.isTailing = false)
    (hsmall : isWindowSmallerThanScreen g s = false) (hbuffer : buffer.length = fileBufLen)
    (hcount : stored.length + fileBufLen < 2 ^ 64)
    (houtside : s.screenLines (ringPlus s.oldestScreenLineIndex g.glyphsPerColumn
      g.ringGlyphsPerColumn) < stored.length) :
    ¬ ScreenStep.ReadsStored g ⟨((ScreenCall.flushToScreen buffer).run g s).1,
      stored ++ (ScreenCall.flushToScreen buffer).chars, .prowind n⟩ := by
  obtain ⟨hlines, hindex, htailing, -⟩ := foldl_storeChar_window buffer s
  have hafter := h.foldl (show stored.length + buffer.length < 2 ^ 64 by rwa [hbuffer])
  rw [ScreenCall.run_flushToScreen, ScreenCall.chars_flushToScreen,
    storedChars_of_length_le hbuffer.le, htailing, htail, if_neg Bool.false_ne_true]
  refine not_readsStored_prowind hg hafter ?_ ?_ ?_
  · rw [isWindowSmallerThanScreen, hlines, hindex]
    exact ne_true_of_eq_false hsmall
  · rw [List.length_append, hbuffer]
    exact hcount
  · rw [hlines, hindex, List.length_append, hbuffer]
    omega

/-- In a run the reads are of what was stored exactly when all steps stay in the buffer. -/
theorem runSteps_iff (hg : g.Admitted) (h : InText g s stored) {calls : List ScreenCall}
    (hcount : stored.length + (calls.flatMap ScreenCall.chars).length < 2 ^ 64) :
    (∀ step ∈ runSteps g s stored calls, step.ReadsStored g) ↔
      ∀ step ∈ runSteps g s stored calls, step.StaysInBuffer g := by
  induction calls generalizing s stored with
  | nil => exact ⟨fun _ _ hstep => (List.not_mem_nil hstep).elim,
      fun _ _ hstep => (List.not_mem_nil hstep).elim⟩
  | cons call calls ih =>
    rw [List.flatMap_cons, List.length_append] at hcount
    obtain ⟨hstep, hafter⟩ := screenStep_iff hg h call (by omega)
    rw [runSteps, List.forall_mem_cons, List.forall_mem_cons, hstep,
      ih hafter (by rw [List.length_append]; omega)]

/-- The initial screen is in the empty text. -/
theorem inText_initialScreen (hg : g.Admitted) (buf : Nat → U8) :
    InText g (initialScreen buf) [] := by
  have hring := hg.ring.1
  exact ⟨stored_initialScreen buf, by rw [initialScreen]; dsimp only; omega, fun _ => le_rfl⟩

end Calls

/-- From the initial screen, while fewer than `2 ^ 64` characters are stored, all calls read only
characters that the buffer still holds if and only if every `rewind` and `prowind` that lays out
text starts among the last `FILE_BUF_LEN` characters. -/
theorem runSteps_readsStored_iff {g : Geometry} (hg : g.Admitted) (buf : Nat → U8)
    {calls : List ScreenCall} (hcount : (calls.flatMap ScreenCall.chars).length < 2 ^ 64) :
    (∀ step ∈ runSteps g (initialScreen buf) [] calls, step.ReadsStored g) ↔
      ∀ step ∈ runSteps g (initialScreen buf) [] calls, step.StaysInBuffer g :=
  runSteps_iff hg (inText_initialScreen hg buf) (by rwa [List.length_nil, Nat.zero_add])

/-- Seven logical lines on a screen of four, and a look back. -/
theorem runSteps_readsStored_lookBack :
    ((⟨8, 4⟩ : Geometry).Admitted ∧
      ([.flushToScreen [97, 10, 98, 10, 99, 10, 100, 10, 101, 10, 102, 10, 103], .rewind 2,
        .prowind 1].flatMap ScreenCall.chars).length < 2 ^ 64) ∧
      ∀ step ∈ runSteps ⟨8, 4⟩ (initialScreen fun _ => 0) []
        [.flushToScreen [97, 10, 98, 10, 99, 10, 100, 10, 101, 10, 102, 10, 103], .rewind 2,
          .prowind 1], step.ReadsStored ⟨8, 4⟩ := by
  have hg : (⟨8, 4⟩ : Geometry).Admitted := ⟨by decide, by decide, by decide⟩
  have hshort : ([.flushToScreen [97, 10, 98, 10, 99, 10, 100, 10, 101, 10, 102, 10, 103],
      .rewind 2, .prowind 1].flatMap ScreenCall.chars).length ≤ fileBufLen := by
    decide +kernel
  have hcount := lt_of_le_of_lt hshort (show fileBufLen < 2 ^ 64 by decide)
  refine ⟨⟨hg, hcount⟩, (runSteps_readsStored_iff hg _ hcount).mpr fun step hstep => ?_⟩
  have hlength := length_stored_le hstep
  rw [List.length_nil, Nat.zero_add] at hlength
  exact ScreenStep.staysInBuffer_of_length_le (hlength.trans hshort)

/-- Scrolled back on a screen of 1920 by 1080 pixels, the window stays at the beginning of the text
while a whole buffer of characters is stored, and `prowind` goes on from there. -/
theorem prowind_reads_overwritten :
    ∃ step ∈ runSteps (initGeometry 1920 1080) (initialScreen fun _ => 0) []
      [.flushToScreen (List.replicate 70 newline), .rewind 100,
        .flushToScreen (List.replicate fileBufLen 97), .prowind 1],
      ¬ step.ReadsStored (initGeometry 1920 1080) := by
  have hg : (initGeometry 1920 1080).Admitted :=
    Geometry.admitted_initGeometry (by decide) (by decide)
  obtain ⟨-, hflush⟩ := screenStep_iff hg (inText_initialScreen hg fun _ => 0)
    (.flushToScreen (List.replicate 70 newline)) (by decide +kernel)
  obtain ⟨-, hback⟩ := screenStep_iff hg hflush (.rewind 100) (by decide +kernel)
  -- The window that shows the beginning of the text.
  have hwindow : let g := initGeometry 1920 1080
      let s := ((ScreenCall.rewind 100).run (initGeometry 1920 1080)
        ((ScreenCall.flushToScreen (List.replicate 70 newline)).run (initGeometry 1920 1080)
          (initialScreen fun _ => 0)).1).1
      s.isTailing = false ∧ isWindowSmallerThanScreen (initGeometry 1920 1080) s = false ∧
        s.screenLines (ringPlus s.oldestScreenLineIndex g.glyphsPerColumn
          g.ringGlyphsPerColumn) < 70 := by
    decide +kernel
  refine ⟨_, List.mem_cons_of_mem _ (List.mem_cons_of_mem _ (List.mem_cons_of_mem _
    (List.mem_singleton_self _))), ?_⟩
  exact not_readsStored_prowind_of_flush hg hback hwindow.1 hwindow.2.1
    (List.length_replicate ..) (by decide +kernel)
    (lt_of_lt_of_eq hwindow.2.2 (by decide +kernel))

end Homegrown.Freestanding
