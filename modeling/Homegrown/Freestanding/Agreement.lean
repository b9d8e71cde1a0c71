import Homegrown.Freestanding.Passes
import Homegrown.Freestanding.Scroll

/-!
# The two passes agree

`toTail` and `prowind` draw the screen lines that they laid out last, up to the end of the pass.
`rewind` draws those in front of the old window, but `drawLines` is not told where that begins: it
ends there only if the layout breaks a line there, or if nothing is painted up to the next break.
-/

namespace Homegrown.Freestanding

/-! ## Drawings -/

/-- A use of `drawLines`, with the pass of `fillScreenLines` before it. -/
structure Drawing where
  before : Screen
  dryStartIndex : Nat
  firstIndex : Nat
  endIndexExclusive : Nat
  maxNewScreenLinesToFill : Nat
  screen : Screen
  startIndex : Nat
  screenLinesToDraw : Nat
  currentLogicalLineLen : Nat
  rowNumber : Nat

namespace Drawing

/-- The pass before. -/
def pass (g : Geometry) (d : Drawing) : FillResult :=
  fillScreenLines g d.before d.dryStartIndex d.firstIndex d.endIndexExclusive
    d.maxNewScreenLinesToFill

/-- The drawing itself. -/
def drawn (g : Geometry) (d : Drawing) : Draw :=
  drawLines g d.screen d.startIndex d.screenLinesToDraw d.currentLogicalLineLen d.rowNumber

/-- An entry of the window, from the first one that is drawn. -/
def entry (g : Geometry) (d : Drawing) (j : Nat) : Nat :=
  d.screen.screenLines (ringPlus d.startIndex j g.ringGlyphsPerColumn)

/-- The cells before a character, as `fillScreenLines` has counted them. -/
def column (g : Geometry) (d : Drawing) : Nat → Nat :=
  columnAt g d.before d.dryStartIndex d.firstIndex d.maxNewScreenLinesToFill

/-- In every row the printable characters of its screen line are painted, and nothing else is. -/
def Agrees (g : Geometry) (d : Drawing) : Prop :=
  (d.drawn g).painted = (List.range d.screenLinesToDraw).flatMap fun j =>
    rowGlyphs d.screen.charAt (d.column g) (d.rowNumber + j) (d.entry g j) (d.entry g (j + 1))

instance (g : Geometry) (d : Drawing) : Decidable (d.Agrees g) :=
  inferInstanceAs (Decidable (_ = _))

/-- The last screen lines of the pass are drawn, in the text of the pass. -/
structure DrawsLast (g : Geometry) (d : Drawing) (stop last : Nat) : Prop where
  passed : Passes g d.before d.dryStartIndex d.firstIndex d.endIndexExclusive
    d.maxNewScreenLinesToFill stop last
  charAt : d.screen.charAt = d.before.charAt
  bounds : d.screenLinesToDraw ≤ (fillStarts g d.before d.dryStartIndex stop).length ∧
    d.screenLinesToDraw ≤ g.glyphsPerColumn
  entries : ∀ j ≤ d.screenLinesToDraw, d.entry g j =
    (fillStarts g d.before d.dryStartIndex stop ++ [last]).getD
      ((fillStarts g d.before d.dryStartIndex stop).length - d.screenLinesToDraw + j) 0
  len : 0 < d.screenLinesToDraw → d.currentLogicalLineLen = lenAt g d.before.charAt d.dryStartIndex
    ((fillStarts g d.before d.dryStartIndex stop).getD
      ((fillStarts g d.before d.dryStartIndex stop).length - d.screenLinesToDraw) 0)
  startIndex : d.startIndex < g.ringGlyphsPerColumn

end Drawing

section Agree

variable {g : Geometry} {s : Screen} {d : Drawing} {dry stop last k x : Nat}

/-- The pass begins its first screen line, and then those that the layout breaks. -/
theorem fillStarts_cons (hline : 4 ≤ g.glyphsPerLine) (s : Screen) (dry stop : Nat) :
    fillStarts g s dry stop = dry :: breaksBehind g s.charAt dry dry stop := by
  rw [fillStarts, breaksBehind]
  congr 1
  rcases Nat.lt_or_ge dry stop with hlt | hle
  · rw [show stop - dry = stop - (dry + 1) + 1 by omega, List.range'_succ, List.filter_cons_of_neg]
    exact fun hbreak => not_breaks_start hline (of_decide_eq_true hbreak)
  · rw [Nat.sub_eq_zero_of_le hle, Nat.sub_eq_zero_of_le (by omega)]
    rfl

/-- The screen lines before and behind one that the layout breaks. -/
theorem fillStarts_append (hx : dry ≤ x) (hlt : x < stop) (hbreak : Breaks g s.charAt dry x) :
    fillStarts g s dry stop = fillStarts g s dry x ++ x :: breaksBehind g s.charAt dry x stop := by
  have hsplit : List.range' dry (stop - dry) =
      List.range' dry (x - dry) ++ x :: List.range' (x + 1) (stop - (x + 1)) := by
    have happend : List.range' dry (x - dry) ++ List.range' (dry + (x - dry))
        (stop - (x + 1) + 1) = List.range' dry (x - dry + (stop - (x + 1) + 1)) :=
      List.range'_append_1
    rw [Nat.add_sub_cancel' hx, List.range'_succ] at happend
    rw [happend]
    congr 1
    omega
  rw [fillStarts, hsplit, List.filter_append, List.filter_cons, if_pos (decide_eq_true hbreak)]
  rfl

/-- There are no more screen lines than characters. -/
theorem length_fillStarts_le (hline : 4 ≤ g.glyphsPerLine) (hlt : dry < stop) :
    (fillStarts g s dry stop).length ≤ stop - dry := by
  have hle := List.length_filter_le (fun j => decide (Breaks g s.charAt dry j))
    (List.range' (dry + 1) (stop - (dry + 1)))
  rw [List.length_range'] at hle
  rw [fillStarts_cons hline, List.length_cons, breaksBehind]
  omega

/-- The last screen lines that a pass has noted. -/
theorem fillStarts_drop (hline : 4 ≤ g.glyphsPerLine) (hdry : dry ≤ stop)
    (hk : k < (fillStarts g s dry stop).length) :
    let start := (fillStarts g s dry stop).getD k 0
    (fillStarts g s dry stop).drop k = start :: breaksBehind g s.charAt dry start stop ∧
      StartsLine g s.charAt dry start ∧ dry ≤ start ∧
        (start < stop ∨ start = stop ∧ dry = stop) := by
  intro start
  have hstart : start = (fillStarts g s dry stop)[k] := List.getD_eq_getElem _ _ hk
  have hmem : start ∈ fillStarts g s dry stop := hstart ▸ List.getElem_mem hk
  have hnodup : (fillStarts g s dry stop).Nodup :=
    (fillStarts_sorted hline).imp fun hlt => hlt.ne
  have hdrop {before after : List Nat} (hsplit : fillStarts g s dry stop =
      before ++ start :: after) : (fillStarts g s dry stop).drop k = start :: after := by
    have hlt : before.length < (fillStarts g s dry stop).length := by
      rw [hsplit, List.length_append, List.length_cons]
      omega
    have hat : (fillStarts g s dry stop)[before.length] = start := by
      simp only [hsplit, List.getElem_append_right le_rfl, Nat.sub_self, List.getElem_cons_zero]
    have hplace : k = before.length :=
      (List.getElem_inj hnodup).mp (hstart.symm.trans hat.symm)
    rw [hplace, hsplit, List.drop_left]
  rcases (mem_fillStarts hdry).mp hmem with heq | ⟨⟨hge, hlt⟩, hbreak⟩
  · rw [heq] at hdrop ⊢
    refine ⟨@hdrop [] _ (fillStarts_cons hline s dry stop), .inl rfl, le_rfl, ?_⟩
    omega
  · exact ⟨hdrop (fillStarts_append hge hlt hbreak), .inr hbreak, hge, .inl hlt⟩

/-- A drawing depends on the text only. -/
theorem drawLoop_congr {s' : Screen} (h : s'.charAt = s.charAt)
    (screenLinesToDraw rowNumber left i : Nat) (p : Draw) :
    drawLoop g s' screenLinesToDraw rowNumber left i p =
      drawLoop g s screenLinesToDraw rowNumber left i p := by
  have hchar : drawChar g s' screenLinesToDraw rowNumber =
      drawChar g s screenLinesToDraw rowNumber := by
    funext i p
    unfold drawChar
    rw [h]
  induction left generalizing i p with
  | zero => rfl
  | succ left ih =>
    rw [drawLoop, drawLoop, hchar]
    simp only [ih]

/-- The screen lines that are drawn. -/
def Drawing.lines (g : Geometry) (d : Drawing) (stop : Nat) : List Nat :=
  (fillStarts g d.before d.dryStartIndex stop).drop
    ((fillStarts g d.before d.dryStartIndex stop).length - d.screenLinesToDraw)

/-- As many are drawn as were asked for. -/
theorem Drawing.DrawsLast.length_lines (h : d.DrawsLast g stop last) :
    (d.lines g stop).length = d.screenLinesToDraw := by
  obtain ⟨hk, -⟩ := h.bounds
  rw [Drawing.lines, List.length_drop]
  omega

/-- The drawing agrees with the pass when it paints the glyphs of these lines. -/
theorem Drawing.DrawsLast.agrees_iff_lines (h : d.DrawsLast g stop last) : d.Agrees g ↔
    (d.drawn g).painted =
      lineGlyphs d.screen.charAt (d.column g) d.rowNumber (d.lines g stop) last := by
  obtain ⟨hk, -⟩ := h.bounds
  have hat (j : Nat) (hj : j ≤ d.screenLinesToDraw) :
      d.entry g j = (d.lines g stop ++ [last]).getD j 0 := by
    rw [h.entries j hj, Drawing.lines, ← List.drop_append_of_le_length (by omega),
      List.getD_eq_getElem?_getD, List.getD_eq_getElem?_getD, List.getElem?_drop]
  rw [Drawing.Agrees, lineGlyphs_eq, h.length_lines]
  refine Eq.congr_right (List.flatMap_congr fun j hj => ?_)
  have hj := List.mem_range.mp hj
  rw [hat j (by omega), hat (j + 1) (by omega)]

/-- The drawing begins at the first of these lines, with the glyphs of its logical line before
it. -/
theorem Drawing.DrawsLast.drawn_eq (h : d.DrawsLast g stop last) (hpos : 0 < d.screenLinesToDraw) :
    let start := (fillStarts g d.before d.dryStartIndex stop).getD
      ((fillStarts g d.before d.dryStartIndex stop).length - d.screenLinesToDraw) 0
    d.drawn g = drawLoop g d.screen d.screenLinesToDraw d.rowNumber (d.screen.charCount - start)
      start (drawStart (lenAt g d.screen.charAt d.dryStartIndex start) d.rowNumber) := by
  intro start
  obtain ⟨hk, -⟩ := h.bounds
  have hentry : d.entry g 0 = start := by
    rw [h.entries 0 (Nat.zero_le _), Nat.add_zero, List.getD_append _ _ _ _ (by omega)]
  have hfirst : d.screen.screenLines d.startIndex = d.entry g 0 := by
    rw [Drawing.entry, ringPlus, Nat.add_zero, Nat.mod_eq_of_lt h.startIndex]
  rw [Drawing.drawn, drawLines_eq, hfirst, hentry, h.len hpos, h.charAt]

/-- Up to where the pass stops to note screen lines, the drawing follows it. -/
theorem Drawing.DrawsLast.drawn_stop (hline : 4 ≤ g.glyphsPerLine)
    (hbig : g.glyphsPerLine + 4 < 2 ^ 16) (h : d.DrawsLast g stop last)
    (hpos : 0 < d.screenLinesToDraw) (hdraw : d.screenLinesToDraw < 2 ^ 16)
    (hstop : stop ≤ d.screen.charCount) :
    ∃ p : Draw, p.Placed d.rowNumber ∧ p.pen = penAt g d.screen.charAt d.dryStartIndex stop ∧
      p.currentScreenLines + 1 = d.screenLinesToDraw ∧
      p.painted = lineGlyphs d.screen.charAt (d.column g) d.rowNumber (d.lines g stop) stop ∧
      d.drawn g = drawLoop g d.screen d.screenLinesToDraw d.rowNumber (d.screen.charCount - stop)
        stop p := by
  obtain ⟨hk, -⟩ := h.bounds
  have hlength := h.length_lines
  have hdrawn := h.drawn_eq hpos
  have hlines := @fillStarts_drop g d.before d.dryStartIndex stop
    ((fillStarts g d.before d.dryStartIndex stop).length - d.screenLinesToDraw) hline
    h.passed.bounds.1 (by omega)
  rw [Drawing.lines] at hlength ⊢
  dsimp only at hdrawn hlines
  generalize (fillStarts g d.before d.dryStartIndex stop).getD _ 0 = start at hdrawn hlines
  obtain ⟨hdrop, hline', hge, hwhere⟩ := hlines
  rw [hdrop, List.length_cons] at hlength
  rw [hdrop]
  rcases hwhere with hlt | ⟨rfl, hsame⟩
  · rw [← h.charAt] at hline' hlength ⊢
    have hcolumn (j : Nat) (hj : start ≤ j) (hlt : j < stop) : d.column g j =
        (penAt g d.screen.charAt d.dryStartIndex j).turn.glyphLen := by
      rw [h.charAt]
      exact h.passed.columns j (hge.trans hj) hlt.le
    obtain ⟨p, hplaced, hpen, hrows, hpainted, hrest⟩ :=
      drawLoop_follows hline hbig hline' hge hlt hstop hdraw (by omega) hcolumn
    exact ⟨p, hplaced, hpen, by omega, hpainted, hdrawn.trans hrest⟩
  · -- The pass ends where it begins.
    have hnone : breaksBehind g d.before.charAt d.dryStartIndex start start = [] := by
      rw [breaksBehind, Nat.sub_eq_zero_of_le (Nat.le_succ _)]
      rfl
    rw [hnone, List.length_nil] at hlength
    rw [hnone]
    refine ⟨drawStart (lenAt g d.screen.charAt d.dryStartIndex start) d.rowNumber, ⟨rfl, rfl⟩,
      ?_, hlength, ?_, hdrawn⟩
    · rw [← hsame, lenAt, penAt_of_le le_rfl, if_neg (not_overflows hline rfl)]
      rfl
    · rw [lineGlyphs, List.headD_nil, rowGlyphs_self]
      rfl

/-- What the drawing paints behind the place where the pass stops decides whether they agree. -/
theorem Drawing.DrawsLast.follows (hline : 4 ≤ g.glyphsPerLine)
    (hbig : g.glyphsPerLine + 4 < 2 ^ 16) (h : d.DrawsLast g stop last)
    (hpos : 0 < d.screenLinesToDraw) (hdraw : d.screenLinesToDraw < 2 ^ 16)
    (hstop : stop ≤ d.screen.charCount) :
    ∃ p : Draw, p.Placed d.rowNumber ∧ p.pen = penAt g d.before.charAt d.dryStartIndex stop ∧
      p.currentScreenLines + 1 = d.screenLinesToDraw ∧
      (d.Agrees g ↔ (drawLoop g d.screen d.screenLinesToDraw d.rowNumber
        (d.screen.charCount - stop) stop p).painted =
          p.painted ++ rowGlyphs d.screen.charAt (d.column g) p.row stop last) := by
  obtain ⟨p, hplaced, hpen, hrows, hpainted, hrest⟩ := h.drawn_stop hline hbig hpos hdraw hstop
  obtain ⟨hdry, hlast, -⟩ := h.passed.bounds
  have hlength := h.length_lines
  -- The last row goes on behind that place.
  have hextend : lineGlyphs d.screen.charAt (d.column g) d.rowNumber (d.lines g stop) stop ++
      rowGlyphs d.screen.charAt (d.column g) (d.rowNumber + (d.screenLinesToDraw - 1)) stop last =
        lineGlyphs d.screen.charAt (d.column g) d.rowNumber (d.lines g stop) last := by
    rw [← hlength]
    exact lineGlyphs_extend (List.ne_nil_of_length_pos (by omega))
      (fun y hy => (le_of_mem_fillStarts hdry (List.mem_of_mem_drop hy)).2) hlast
  refine ⟨p, hplaced, by rw [hpen, h.charAt], hrows, ?_⟩
  rw [h.agrees_iff_lines, ← hextend, ← hpainted, hrest, hplaced.row,
    show d.screenLinesToDraw - 1 = p.currentScreenLines by omega]

/-- Nothing is drawn behind the end of the text. -/
theorem Drawing.DrawsLast.painted_of_end (h : d.DrawsLast g d.screen.charCount d.screen.charCount)
    (hzero : d.screenLinesToDraw = 0) : (d.drawn g).painted = [] := by
  have hentry := h.entries 0 (Nat.zero_le _)
  rw [hzero, Nat.add_zero, Nat.sub_zero, List.getD_append_right _ _ _ _ le_rfl, Nat.sub_self,
    Drawing.entry, ringPlus, Nat.add_zero, Nat.mod_eq_of_lt h.startIndex] at hentry
  have hentry : d.screen.screenLines d.startIndex = d.screen.charCount := hentry
  rw [Drawing.drawn, drawLines_eq, hentry, Nat.sub_self]
  rfl

/-- Where no line is to be drawn, the window agrees when nothing was painted. -/
theorem Drawing.agrees_of_zero (hzero : d.screenLinesToDraw = 0) :
    d.Agrees g ↔ (d.drawn g).painted = [] := by
  rw [Drawing.Agrees, hzero]
  rfl

/-- A drawing up to the end of the text agrees. -/
theorem Drawing.DrawsLast.agrees_of_end (hline : 4 ≤ g.glyphsPerLine)
    (hbig : 0 < g.glyphsPerColumn → g.glyphsPerLine + 4 < 2 ^ 16)
    (hdraw : d.screenLinesToDraw < 2 ^ 16)
    (h : d.DrawsLast g d.screen.charCount d.screen.charCount) : d.Agrees g := by
  rcases Nat.eq_zero_or_pos d.screenLinesToDraw with hzero | hpos
  · exact (Drawing.agrees_of_zero hzero).mpr (h.painted_of_end hzero)
  · obtain ⟨p, -, -, -, hiff⟩ := h.follows hline (hbig (hpos.trans_le h.bounds.2)) hpos hdraw le_rfl
    rw [hiff, Nat.sub_self, rowGlyphs_self, List.append_nil]
    rfl

/-- A drawing of all that a limited pass has noted agrees. -/
theorem Drawing.DrawsLast.agrees_of_limit (hline : 4 ≤ g.glyphsPerLine)
    (hbig : g.glyphsPerLine + 4 < 2 ^ 16) (h : d.DrawsLast g stop last)
    (hpos : 0 < d.screenLinesToDraw) (hdraw : d.screenLinesToDraw < 2 ^ 16)
    (hend : d.endIndexExclusive = d.screen.charCount)
    (hwrap : d.screenLinesToDraw + (d.screen.charCount - stop) ≤ 2 ^ 16) {f : Fill}
    (hpen : f.pen = penAt g d.before.charAt d.dryStartIndex stop)
    (hbreak : Breaks g d.before.charAt d.dryStartIndex stop)
    (hfull : d.maxNewScreenLinesToFill ≠ 0 ∧ d.maxNewScreenLinesToFill ≤ f.screenLinesInWindow)
    (hlast : last = (fillLoop g d.before d.firstIndex d.maxNewScreenLinesToFill
      (d.endIndexExclusive - stop) stop f).1)
    (hcolumn : ∀ i, stop ≤ i → d.column g i = (fillLoop g d.before d.firstIndex
      d.maxNewScreenLinesToFill (i - stop) stop f).2.column) : d.Agrees g := by
  obtain ⟨hdry, hle, hend'⟩ := h.passed.bounds
  obtain ⟨p, hplaced, hpen', hlines, hiff⟩ :=
    h.follows hline hbig hpos hdraw (hle.trans (hend'.trans_eq hend))
  have hglyph : p.currentGlyphLen = f.currentGlyphLen :=
    congrArg Pen.glyphLen (hpen'.trans hpen.symm)
  have hlen : p.currentLogicalLineLen = f.currentLogicalLineLen :=
    congrArg Pen.lineLen (hpen'.trans hpen.symm)
  have hnext : p.toNext = f.toNext := congrArg Pen.toNext (hpen'.trans hpen.symm)
  obtain ⟨hfits, hfullLine⟩ := penAt_fits hline hbig hdry (s := d.before)
  rw [← hpen] at hfits hfullLine
  have hover (hno : f.toNext = false) :
      g.glyphsPerLine < f.currentGlyphLen + additionalSpace f.currentLogicalLineLen := by
    rw [Breaks, ← hpen, turn_of_not_toNext (p := f.pen) (ne_true_of_eq_false hno)] at hbreak
    have hlong := (hbreak.resolve_left (ne_true_of_eq_false hno)).2
    have hspace := additionalSpace_eq f.currentLogicalLineLen
    change f.currentGlyphLen ≤ g.glyphsPerLine at hfits
    change g.glyphsPerLine <
      (f.currentGlyphLen + additionalSpace f.currentLogicalLineLen) % 2 ^ 16 at hlong
    rwa [Nat.mod_eq_of_lt (by omega)] at hlong
  have hstuck : f.Stuck g d.before stop p :=
    ⟨⟨hfits, hfullLine⟩, hglyph, hnext, hplaced.column, hover, fun hno => hlen ▸ hover hno⟩
  rw [hiff, h.charAt, drawLoop_congr h.charAt, hlast, hend]
  rw [hend] at hlast
  exact hstuck.drawLoop hline hbig hfull hlines.ge (by omega) fun j hj _ => hcolumn j hj

/-- Where a pass ends before the end of the text, the drawing agrees if it paints nothing behind
that. -/
theorem Drawing.DrawsLast.agrees_iff (hline : 4 ≤ g.glyphsPerLine)
    (hbig : g.glyphsPerLine + 4 < 2 ^ 16) (h : d.DrawsLast g stop stop)
    (hdraw : d.screenLinesToDraw < 2 ^ 16) (hstop : stop ≤ d.screen.charCount)
    (hwrap : max 1 d.screenLinesToDraw + (d.screen.charCount - stop) ≤ 2 ^ 16) :
    d.Agrees g ↔ (if d.screenLinesToDraw = 0 then ⟨0, d.currentLogicalLineLen, false⟩
      else penAt g d.before.charAt d.dryStartIndex stop : Pen).RestBlank g d.before.charAt stop
        (d.screen.charCount - stop) := by
  rcases Nat.eq_zero_or_pos d.screenLinesToDraw with hzero | hpos
  · rw [Drawing.agrees_of_zero hzero, if_pos hzero, ← h.charAt]
    have hentry := h.entries 0 (Nat.zero_le _)
    rw [hzero, Nat.add_zero, Nat.sub_zero, List.getD_append_right _ _ _ _ le_rfl, Nat.sub_self,
      Drawing.entry, ringPlus, Nat.add_zero, Nat.mod_eq_of_lt h.startIndex] at hentry
    have hentry : d.screen.screenLines d.startIndex = stop := hentry
    rw [Drawing.drawn, drawLines_eq, hentry, hzero]
    exact drawLoop_painted_iff hbig (Nat.zero_le _) (Nat.zero_le _) (by
      change 0 + _ < _
      omega)
  · obtain ⟨p, -, hpen, hlines, hiff⟩ := h.follows hline hbig hpos hdraw hstop
    rw [if_neg hpos.ne', hiff, rowGlyphs_self, List.append_nil, ← hpen, ← h.charAt]
    refine drawLoop_painted_iff hbig ?_ hlines.ge (by omega)
    have hfits := (penAt_fits hline hbig h.passed.bounds.1 (s := d.before)).1
    rw [← hpen] at hfits
    exact hfits

end Agree

/-! ## Uses -/

/-- The drawing of the last screen lines of a pass at the end of the window. -/
def Drawing.atEnd (g : Geometry) (s : Screen)
    (dryStartIndex firstIndex endIndexExclusive maxNewScreenLinesToFill : Nat) (screen : Screen) :
    Drawing :=
  let fill := fillScreenLines g s dryStartIndex firstIndex endIndexExclusive
    maxNewScreenLinesToFill
  let oldScreenLines := g.glyphsPerColumn - fill.realScreenLinesWritten
  { before := s
    dryStartIndex
    firstIndex
    endIndexExclusive
    maxNewScreenLinesToFill
    screen
    startIndex := ringPlus screen.oldestScreenLineIndex oldScreenLines g.ringGlyphsPerColumn
    screenLinesToDraw := fill.realScreenLinesWritten
    currentLogicalLineLen := fill.logicalLineLens
      (ringMinus fill.currentScreenLineIndex fill.realScreenLinesWritten g.ringGlyphsPerColumn)
    rowNumber := oldScreenLines }

/-- The drawing of `toTail`. -/
def toTailDrawing (g : Geometry) (s : Screen) : Drawing :=
  let finalScreenLineEntry := finalScreenLine g s g.ringGlyphsPerColumn
    (ringPlus s.oldestScreenLineIndex (g.glyphsPerColumn - s.lastScreenlineOpen.toNat)
      g.ringGlyphsPerColumn)
  let firstCharOutsideWindow := s.screenLines finalScreenLineEntry
  let oldestCharToProcess :=
    max (oldestCharToParseGivenScreenLines g s s.charCount g.glyphsPerColumn)
      (s.logicalLines (I8IndexToLogicalLine s firstCharOutsideWindow))
  .atEnd g s oldestCharToProcess firstCharOutsideWindow s.charCount 0 (toTail g s).1

/-- The drawing of `prowind`. -/
def prowindDrawing (g : Geometry) (s : Screen) (numberOfScreenLines : Nat) : Drawing :=
  let firstCharOutsideWindow := s.screenLines
    (ringPlus s.oldestScreenLineIndex g.glyphsPerColumn g.ringGlyphsPerColumn)
  let oldestCharToProcess := oldestCharToParseGivenScreenLines g s firstCharOutsideWindow 0
  let fill := fillScreenLines g s oldestCharToProcess firstCharOutsideWindow s.charCount
    numberOfScreenLines
  let oldestScreenLineIndex := ringPlus s.oldestScreenLineIndex fill.realScreenLinesWritten
    g.ringGlyphsPerColumn
  let screen := { s with
    oldestScreenLineIndex
    screenLines := spliceScreenLines g s.screenLines fill.screenLinesCopy
      (oldestScreenLineIndex + (g.glyphsPerColumn - fill.realScreenLinesWritten))
      (ringMinus fill.currentScreenLineIndex fill.realScreenLinesWritten g.ringGlyphsPerColumn)
      (fill.realScreenLinesWritten + 1)
    screenLinesCopy := fill.screenLinesCopy
    logicalLineLens := fill.logicalLineLens }
  .atEnd g s oldestCharToProcess firstCharOutsideWindow s.charCount numberOfScreenLines screen

/-- The drawing of `prowind`, if there is one. -/
def prowindDrawing? (g : Geometry) (s : Screen) (numberOfScreenLines : Nat) : Option Drawing :=
  if isWindowSmallerThanScreen g s then none
  else if s.charCount = s.screenLines
      (ringPlus s.oldestScreenLineIndex g.glyphsPerColumn g.ringGlyphsPerColumn) then none
  else some (prowindDrawing g s numberOfScreenLines)

/-- The drawing of `rewind`. -/
def rewindDrawing (g : Geometry) (s : Screen) (numberOfScreenLines : Nat) : Drawing :=
  let currentOldestCharInWindow := s.screenLines s.oldestScreenLineIndex
  let oldestCharToProcess :=
    oldestCharToParseGivenScreenLines g s currentOldestCharInWindow numberOfScreenLines
  let fill := fillScreenLines g s oldestCharToProcess oldestCharToProcess
    currentOldestCharInWindow 0
  let newScreenLinesOnTop := min fill.realScreenLinesWritten numberOfScreenLines
  let startIndex := ringMinus fill.currentScreenLineIndex newScreenLinesOnTop
    g.ringGlyphsPerColumn
  let oldestScreenLineIndex := ringMinus s.oldestScreenLineIndex newScreenLinesOnTop
    g.ringGlyphsPerColumn
  let screen := { s with
    oldestScreenLineIndex
    screenLines := spliceScreenLines g s.screenLines fill.screenLinesCopy
      oldestScreenLineIndex startIndex newScreenLinesOnTop
    screenLinesCopy := fill.screenLinesCopy
    logicalLineLens := fill.logicalLineLens }
  { before := s
    dryStartIndex := oldestCharToProcess
    firstIndex := oldestCharToProcess
    endIndexExclusive := currentOldestCharInWindow
    maxNewScreenLinesToFill := 0
    screen
    startIndex := oldestScreenLineIndex
    screenLinesToDraw := newScreenLinesOnTop
    currentLogicalLineLen := fill.logicalLineLens startIndex
    rowNumber := 0 }

/-- The drawing of `rewind`, if there is one. -/
def rewindDrawing? (g : Geometry) (s : Screen) (numberOfScreenLines : Nat) : Option Drawing :=
  if isWindowSmallerThanScreen g s then none
  else if oldestCharToParseGivenScreenLines g s (s.screenLines s.oldestScreenLineIndex)
      numberOfScreenLines = s.screenLines s.oldestScreenLineIndex then none
  else some (rewindDrawing g s numberOfScreenLines)

section Uses

variable {g : Geometry} {s screen : Screen} {stored : List U8} {dry first e limit stop last n : Nat}

/-- What `toTail` reads, its pass and its drawing read. -/
theorem toTail_drawing (g : Geometry) (s : Screen) : (toTail g s).2 =
    ((toTailDrawing g s).pass g).reads ++ ((toTailDrawing g s).drawn g).reads := rfl

/-- `prowind` is its pass and its drawing. -/
theorem prowind_drawing (g : Geometry) (s : Screen) (n : Nat) : prowind g s n =
    match prowindDrawing? g s n with
    | none => (s, [])
    | some d =>
      ({ d.screen with
        isTailing := windowEntry g d.screen g.glyphsPerColumn = s.charCount
        lastScreenlineOpen := !(d.pass g).lastLineDone },
      (d.pass g).reads ++ (d.drawn g).reads) := by
  rw [prowind, prowindDrawing?]
  by_cases hsmall : isWindowSmallerThanScreen g s = true
  · rw [if_pos hsmall, if_pos hsmall]
  · rw [if_neg hsmall, if_neg hsmall]
    by_cases hend : s.charCount = s.screenLines
        (ringPlus s.oldestScreenLineIndex g.glyphsPerColumn g.ringGlyphsPerColumn)
    · rw [if_pos hend, if_pos hend]
    · rw [if_neg hend, if_neg hend]
      rfl

/-- `rewind` is its pass and its drawing. -/
theorem rewind_drawing (g : Geometry) (s : Screen) (n : Nat) : rewind g s n =
    match rewindDrawing? g s n with
    | none => (s, [])
    | some d =>
      ({ d.screen with isTailing := false, lastScreenlineOpen := false },
        (d.pass g).reads ++ (d.drawn g).reads) := by
  rw [rewind, rewindDrawing?]
  by_cases hsmall : isWindowSmallerThanScreen g s = true
  · rw [if_pos hsmall, if_pos hsmall]
  · rw [if_neg hsmall, if_neg hsmall]
    by_cases htop : oldestCharToParseGivenScreenLines g s (s.screenLines s.oldestScreenLineIndex)
        n = s.screenLines s.oldestScreenLineIndex
    · rw [if_pos htop, if_pos htop]
    · rw [if_neg htop, if_neg htop]
      rfl

/-- A line has fewer than `2 ^ 16 - 4` glyphs, unless the screen has none. -/
theorem Geometry.Admitted.line_lt (hg : g.Admitted) (hcolumn : 0 < g.glyphsPerColumn) :
    g.glyphsPerLine + 4 < 2 ^ 16 := by
  have hchars := hg.chars
  rw [Geometry.maxCharsToProcess, fileBufLen] at hchars
  have hle := Nat.le_mul_of_pos_right g.glyphsPerLine hcolumn
  omega

/-- The end of the window holds the last screen lines of the pass. -/
theorem Passes.drawsLast_atEnd (hg : g.Admitted) (h : Passes g s dry first e limit stop last)
    (hlines : let fill := fillScreenLines g s dry first e limit
      screen.screenLines = spliceScreenLines g s.screenLines fill.screenLinesCopy
        (screen.oldestScreenLineIndex + (g.glyphsPerColumn - fill.realScreenLinesWritten))
        (ringMinus fill.currentScreenLineIndex fill.realScreenLinesWritten g.ringGlyphsPerColumn)
        (fill.realScreenLinesWritten + 1)) (hchar : screen.charAt = s.charAt) :
    (Drawing.atEnd g s dry first e limit screen).DrawsLast g stop last := by
  have hring := hg.ring.1
  obtain ⟨hlength, hcolumn⟩ := le_min_iff.mp h.written
  refine ⟨h, hchar, ⟨hlength, hcolumn⟩, fun j hj => ?_, fun hpos => ?_, Nat.mod_lt _ (by omega)⟩
  · change j ≤ (fillScreenLines g s dry first e limit).realScreenLinesWritten at hj
    change screen.screenLines (ringPlus (ringPlus screen.oldestScreenLineIndex
      (g.glyphsPerColumn - (fillScreenLines g s dry first e limit).realScreenLinesWritten)
        g.ringGlyphsPerColumn) j g.ringGlyphsPerColumn) =
          (fillStarts g s dry stop ++ [last]).getD ((fillStarts g s dry stop).length -
            (fillScreenLines g s dry first e limit).realScreenLinesWritten + j) 0
    have hsplice := windowEntry_splice hg h.notes hlength hcolumn hlines rfl
      (show g.glyphsPerColumn - (fillScreenLines g s dry first e limit).realScreenLinesWritten + j ≤
        g.glyphsPerColumn by omega)
    rw [if_neg (by omega), windowEntry] at hsplice
    rw [ringPlus, ringPlus, Nat.mod_add_mod, Nat.add_assoc]
    refine hsplice.trans ?_
    congr 1
    omega
  · exact h.lens _ hpos hlength (hcolumn.trans_lt hring)

/-- `toTail` paints what it has laid out. -/
theorem toTailDrawing_agrees (hg : g.Admitted) (hline : 4 ≤ g.glyphsPerLine)
    (h : InText g s stored) : (toTailDrawing g s).Agrees g := by
  have hdry : (toTailDrawing g s).dryStartIndex ≤ s.charCount := by
    refine max_le ?_ (h.stored.logicalLine_le _)
    rw [h.stored.oldestCharToParse]
    exact parseStart_le
  obtain ⟨stop, last, hpass⟩ := exists_passes hg hline s (toTailDrawing g s).firstIndex hdry
    (show 0 < 2 ^ 16 by norm_num)
  obtain ⟨rfl, rfl⟩ := hpass.of_unlimited
  have hdraws : (toTailDrawing g s).DrawsLast g s.charCount s.charCount :=
    hpass.drawsLast_atEnd hg rfl rfl
  have hcolumn := hg.column
  exact Drawing.DrawsLast.agrees_of_end hline hg.line_lt
    (hdraws.bounds.2.trans_lt (by omega)) hdraws

/-- A window with lines to show has room for one. -/
theorem InText.column_pos (h : InText g s stored)
    (hsmall : ¬ isWindowSmallerThanScreen g s = true) :
    0 < g.glyphsPerColumn := by
  refine Nat.pos_of_ne_zero fun hzero => hsmall (decide_eq_true ?_)
  rw [hzero, ringPlus, Nat.add_zero, Nat.mod_eq_of_lt h.index]

/-- `prowind` paints what it has laid out, as long as it does not count `2 ^ 16` tabs that do not
fit in the last row. -/
theorem prowindDrawing?_agrees (hg : g.Admitted) (hline : 4 ≤ g.glyphsPerLine)
    (h : InText g s stored) (hn : n < 2 ^ 16)
    (hstays : isWindowSmallerThanScreen g s = true ∨
      s.charCount = windowEntry g s g.glyphsPerColumn ∨
      s.charCount - parseStart g stored (windowEntry g s g.glyphsPerColumn) 0 ≤ fileBufLen) :
    ∀ d ∈ prowindDrawing? g s n, d.Agrees g := by
  intro d hd
  rw [prowindDrawing?] at hd
  split at hd
  · cases hd
  rename_i hsmall
  split at hd
  · cases hd
  rename_i hmore
  obtain rfl := Option.some.inj hd
  have hcolumn := h.column_pos hsmall
  have hbig := hg.line_lt hcolumn
  have hheld := (hstays.resolve_left hsmall).resolve_left hmore
  have hstart : (prowindDrawing g s n).dryStartIndex =
      parseStart g stored (windowEntry g s g.glyphsPerColumn) 0 :=
    h.stored.oldestCharToParse g _ 0
  have hdry : (prowindDrawing g s n).dryStartIndex ≤ s.charCount := by
    rw [hstart]
    exact parseStart_le.trans (h.lines _)
  obtain ⟨stop, last, hpass⟩ := exists_passes hg hline s (prowindDrawing g s n).firstIndex hdry hn
  have hdraws : (prowindDrawing g s n).DrawsLast g stop last := hpass.drawsLast_atEnd hg rfl rfl
  have hadmitted := hg.column
  have hdraw : (prowindDrawing g s n).screenLinesToDraw < 2 ^ 16 :=
    hdraws.bounds.2.trans_lt (by omega)
  obtain ⟨hge, hle, hle'⟩ := hpass.bounds
  rcases hpass.ends with rfl | ⟨f, hpen, hbreak, hfull, hpos, hlast, hcolumns⟩
  · obtain rfl := Nat.le_antisymm hle' hle
    exact Drawing.DrawsLast.agrees_of_end hline (fun _ => hbig) hdraw hdraws
  · -- The pass has begun before it was full, and its lines hold a character each.
    have hbegun : (prowindDrawing g s n).dryStartIndex < stop := by
      refine lt_of_le_of_ne hge fun heq => ?_
      rw [← heq] at hbreak
      exact not_breaks_start hline hbreak
    have hlength := length_fillStarts_le hline hbegun (s := s)
    have hk := hdraws.bounds.1
    change _ ≤ (fillStarts g s (prowindDrawing g s n).dryStartIndex stop).length at hk
    rw [← hstart, fileBufLen] at hheld
    refine hdraws.agrees_of_limit hline hbig (hpos hcolumn) hdraw rfl ?_ hpen hbreak hfull hlast
      hcolumns
    change _ + (s.charCount - stop) ≤ 2 ^ 16
    omega

/-- Where `drawLines` is, in `rewind`, when it comes to the old window: at the end of the layout of
what is above, or at the start of a row if there is no row to draw. -/
def penAtWindow (g : Geometry) (s : Screen) (dry top numberOfScreenLines : Nat) : Pen :=
  let starts := fillStarts g s dry top
  if min (min (starts.length % 2 ^ 16) g.glyphsPerColumn) numberOfScreenLines = 0 then
    ⟨0, lenLeft g s dry starts, false⟩
  else penAt g s.charAt dry top

/-- The top of the window holds the last screen lines above it. -/
theorem Passes.drawsLast_rewind (hg : g.Admitted) (h : InText g s stored)
    (hpass : Passes g s (rewindDrawing g s n).dryStartIndex (rewindDrawing g s n).firstIndex
      (rewindDrawing g s n).endIndexExclusive 0 stop last)
    (hlast : last = s.screenLines s.oldestScreenLineIndex) :
    (rewindDrawing g s n).DrawsLast g stop last := by
  have hring := hg.ring.1
  obtain ⟨hlength, hcolumn⟩ := le_min_iff.mp hpass.written
  have hm : (rewindDrawing g s n).screenLinesToDraw ≤
      ((rewindDrawing g s n).pass g).realScreenLinesWritten := min_le_left _ _
  have hle := hm.trans hlength
  have hle' := hm.trans hcolumn
  refine ⟨hpass, rfl, ⟨hle, hle'⟩, fun j hj => ?_, fun hpos => ?_, Nat.mod_lt _ (by omega)⟩
  · have hup := @windowEntry_up g s hg (rewindDrawing g s n).screen
      ((rewindDrawing g s n).pass g).screenLinesCopy (rewindDrawing g s n).screenLinesToDraw
      (ringMinus ((rewindDrawing g s n).pass g).currentScreenLineIndex
        (rewindDrawing g s n).screenLinesToDraw g.ringGlyphsPerColumn) j hle' rfl rfl
      (hj.trans hle')
    refine Eq.trans hup ?_
    change _ = (fillStarts g s (rewindDrawing g s n).dryStartIndex stop ++ [last]).getD
      ((fillStarts g s (rewindDrawing g s n).dryStartIndex stop).length -
        (rewindDrawing g s n).screenLinesToDraw + j) 0
    have hnotes := hpass.notes
    generalize (rewindDrawing g s n).screenLinesToDraw = m at *
    generalize fillStarts g s (rewindDrawing g s n).dryStartIndex stop = starts at *
    split
    · rename_i hlt
      have hlen : (starts ++ [last]).length = starts.length + 1 := List.length_append
      have hfromEnd := entry_fromEnd hnotes.ring (show m < (starts ++ [last]).length by omega)
        (by omega) hj
      rw [hlen, Nat.add_sub_cancel, ← hnotes.index] at hfromEnd
      rw [List.getD_eq_getElem?_getD, hfromEnd]
      rfl
    · obtain rfl : j = m := by omega
      rw [Nat.sub_self, windowEntry_zero h.index, Nat.sub_add_cancel hle,
        List.getD_append_right _ _ _ _ le_rfl, Nat.sub_self, hlast]
      rfl
  · exact hpass.lens _ hpos hle (hle'.trans_lt hring)

/-- Where a drawing of `rewind` comes to the old window. -/
theorem Passes.penAtWindow_eq (hg : g.Admitted) (hline : 4 ≤ g.glyphsPerLine)
    (hpass : Passes g s (rewindDrawing g s n).dryStartIndex (rewindDrawing g s n).firstIndex
      (rewindDrawing g s n).endIndexExclusive 0 (rewindDrawing g s n).endIndexExclusive last) :
    (if (rewindDrawing g s n).screenLinesToDraw = 0 then
        ⟨0, (rewindDrawing g s n).currentLogicalLineLen, false⟩
      else penAt g s.charAt (rewindDrawing g s n).dryStartIndex
        (rewindDrawing g s n).endIndexExclusive : Pen) =
      penAtWindow g s (rewindDrawing g s n).dryStartIndex (rewindDrawing g s n).endIndexExclusive
        n := by
  have hring := hg.ring.1
  have hdry := hpass.bounds.1
  obtain ⟨-, hreal, -⟩ := fillScreenLines_layout hline s (rewindDrawing g s n).firstIndex hdry
  have hall : (fillStarts g s (rewindDrawing g s n).dryStartIndex
      (rewindDrawing g s n).endIndexExclusive).countP ((rewindDrawing g s n).firstIndex ≤ ·) =
        (fillStarts g s (rewindDrawing g s n).dryStartIndex
          (rewindDrawing g s n).endIndexExclusive).length :=
    List.countP_eq_length.mpr fun y hy => decide_eq_true (le_of_mem_fillStarts hdry hy).1
  rw [hall] at hreal
  have hcount : (rewindDrawing g s n).screenLinesToDraw = min (min ((fillStarts g s
      (rewindDrawing g s n).dryStartIndex (rewindDrawing g s n).endIndexExclusive).length % 2 ^ 16)
        g.glyphsPerColumn) n := congrArg (min · n) hreal
  rw [penAtWindow, ← hcount]
  split
  · rename_i hzero
    have hlen : (rewindDrawing g s n).currentLogicalLineLen =
        ((rewindDrawing g s n).pass g).logicalLineLens
          (ringMinus ((rewindDrawing g s n).pass g).currentScreenLineIndex
            (rewindDrawing g s n).screenLinesToDraw g.ringGlyphsPerColumn) := rfl
    have hindex := hpass.notes.index
    have hleft := hpass.lenLeft
    change ((rewindDrawing g s n).pass g).currentScreenLineIndex = _ at hindex
    change ((rewindDrawing g s n).pass g).logicalLineLens
      ((rewindDrawing g s n).pass g).currentScreenLineIndex = _ at hleft
    rw [hlen, hzero, hindex, ringMinus_mod (by omega) (Nat.zero_le _), Nat.sub_zero, ← hindex,
      hleft]
  · rfl

/-- What `rewind` paints agrees exactly when nothing is painted in the last row behind the old
window's beginning. -/
theorem rewindDrawing?_agrees_iff (hg : g.Admitted) (hline : 4 ≤ g.glyphsPerLine)
    (h : InText g s stored)
    (hstays : let top := s.screenLines s.oldestScreenLineIndex
      isWindowSmallerThanScreen g s = true ∨ parseStart g stored top n = top ∨
        s.charCount - parseStart g stored top n ≤ fileBufLen) :
    (∀ d ∈ rewindDrawing? g s n, d.Agrees g) ↔
      let top := s.screenLines s.oldestScreenLineIndex
      isWindowSmallerThanScreen g s = true ∨ parseStart g stored top n = top ∨
        (penAtWindow g s (parseStart g stored top n) top n).RestBlank g s.charAt top
          (s.charCount - top) := by
  dsimp only at hstays ⊢
  rw [rewindDrawing?, h.stored.oldestCharToParse]
  by_cases hsmall : isWindowSmallerThanScreen g s = true
  · rw [if_pos hsmall]
    exact iff_of_true (fun d hd => nomatch hd) (.inl hsmall)
  by_cases htop : parseStart g stored (s.screenLines s.oldestScreenLineIndex) n =
      s.screenLines s.oldestScreenLineIndex
  · rw [if_neg hsmall, if_pos htop]
    exact iff_of_true (fun d hd => nomatch hd) (.inr (.inl htop))
  have hheld := (hstays.resolve_left hsmall).resolve_left htop
  have hstart : (rewindDrawing g s n).dryStartIndex =
      parseStart g stored (s.screenLines s.oldestScreenLineIndex) n :=
    h.stored.oldestCharToParse g _ n
  have hlt : (rewindDrawing g s n).dryStartIndex < (rewindDrawing g s n).endIndexExclusive := by
    rw [hstart]
    exact lt_of_le_of_ne parseStart_le htop
  obtain ⟨stop, last, hpass⟩ := exists_passes hg hline s (rewindDrawing g s n).firstIndex hlt.le
    (show 0 < 2 ^ 16 by norm_num)
  obtain ⟨rfl, rfl⟩ := hpass.of_unlimited
  have hdraws := hpass.drawsLast_rewind hg h rfl
  have hlength := length_fillStarts_le hline hlt (s := s)
  have hbounds := hdraws.bounds
  have hend : (rewindDrawing g s n).endIndexExclusive ≤ s.charCount := h.lines _
  have hadmitted := hg.column
  have hwrap : max 1 (rewindDrawing g s n).screenLinesToDraw +
      (s.charCount - (rewindDrawing g s n).endIndexExclusive) ≤ 2 ^ 16 := by
    change _ ≤ (fillStarts g s (rewindDrawing g s n).dryStartIndex
      (rewindDrawing g s n).endIndexExclusive).length ∧ _ at hbounds
    rw [← hstart, fileBufLen] at hheld
    omega
  have hiff := hdraws.agrees_iff hline (hg.line_lt (h.column_pos hsmall))
    (hbounds.2.trans_lt (by omega)) hend hwrap
  have hpen := hpass.penAtWindow_eq hg hline
  rw [hstart] at hpen
  change _ ↔ Pen.RestBlank g s.charAt (s.screenLines s.oldestScreenLineIndex)
    (s.charCount - s.screenLines s.oldestScreenLineIndex) (if _ then _ else
      penAt g s.charAt (rewindDrawing g s n).dryStartIndex _) at hiff
  rw [hstart, hpen] at hiff
  rw [if_neg hsmall, if_neg htop]
  refine Iff.trans ⟨fun hall => hall _ rfl, fun hagrees d hd => ?_⟩ (hiff.trans
    ⟨fun hblank => .inr (.inr hblank), fun hor => (hor.resolve_left hsmall).resolve_left htop⟩)
  obtain rfl := Option.some.inj hd
  exact hagrees

end Uses

/-! ## Runs -/

namespace ScreenStep

/-- What a step draws, if it does. -/
def drawing? (g : Geometry) (step : ScreenStep) : Option Drawing :=
  match step.call with
  | .flushToScreen buffer =>
    let s := (storedChars buffer).foldl storeChar step.screen
    if s.isTailing then some (toTailDrawing g s) else none
  | .rewind numberOfScreenLines => rewindDrawing? g step.screen numberOfScreenLines.toNat
  | .prowind numberOfScreenLines => prowindDrawing? g step.screen numberOfScreenLines.toNat

/-- What a step draws is what it has laid out. -/
def PassesAgree (g : Geometry) (step : ScreenStep) : Prop := ∀ d ∈ step.drawing? g, d.Agrees g

instance (g : Geometry) (step : ScreenStep) : Decidable (step.PassesAgree g) :=
  inferInstanceAs (Decidable (∀ d ∈ step.drawing? g, d.Agrees g))

/-- `rewind` does nothing, or paints nothing between the beginning of the old window and the next
place where `drawLines` ends. -/
def EndsAtWindow (g : Geometry) (step : ScreenStep) : Prop :=
  let s := step.screen
  match step.call with
  | .flushToScreen _ => True
  | .rewind numberOfScreenLines =>
    let top := s.screenLines s.oldestScreenLineIndex
    let start := parseStart g step.stored top numberOfScreenLines.toNat
    isWindowSmallerThanScreen g s = true ∨ start = top ∨
      (penAtWindow g s start top numberOfScreenLines.toNat).RestBlank g s.charAt top
        (s.charCount - top)
  | .prowind _ => True

/-- A flush draws the tail while the window shows it. -/
theorem drawing?_flushToScreen (g : Geometry) (s : Screen) (stored buffer : List U8) :
    (ScreenStep.mk s stored (.flushToScreen buffer)).drawing? g =
      if ((storedChars buffer).foldl storeChar s).isTailing then
        some (toTailDrawing g ((storedChars buffer).foldl storeChar s))
      else none := by
  rw [drawing?]

instance (g : Geometry) (step : ScreenStep) : Decidable (step.EndsAtWindow g) :=
  match step with
  | ⟨_, _, .flushToScreen _⟩ => isTrue trivial
  | ⟨s, stored, .rewind n⟩ => inferInstanceAs (Decidable (_ ∨ _ ∨ Pen.RestBlank g s.charAt _ _ _))
  | ⟨_, _, .prowind _⟩ => isTrue trivial

/-- The positions that a step reads are those of the pass and of the drawing. -/
theorem reads_drawing (g : Geometry) (step : ScreenStep) : (step.call.run g step.screen).2 =
    (step.drawing? g).elim [] fun d => (d.pass g).reads ++ (d.drawn g).reads := by
  obtain ⟨s, stored, call⟩ := step
  cases call with
  | flushToScreen buffer =>
    rw [drawing?_flushToScreen]
    dsimp only
    rw [ScreenCall.run_flushToScreen]
    generalize (storedChars buffer).foldl storeChar s = s'
    split
    · rw [Option.elim_some]
      exact toTail_drawing g s'
    · rfl
  | rewind n =>
    change (Freestanding.rewind g s n.toNat).2 = (rewindDrawing? g s n.toNat).elim _ _
    rw [rewind_drawing]
    cases rewindDrawing? g s n.toNat <;> rfl
  | prowind n =>
    change (Freestanding.prowind g s n.toNat).2 = (prowindDrawing? g s n.toNat).elim _ _
    rw [prowind_drawing]
    cases prowindDrawing? g s n.toNat <;> rfl

end ScreenStep

section Runs

variable {g : Geometry} {s : Screen} {stored : List U8}

/-- Every step of a run starts in the text that was stored. -/
theorem inText_of_mem_runSteps (hg : g.Admitted) (h : InText g s stored) {calls : List ScreenCall}
    (hcount : stored.length + (calls.flatMap ScreenCall.chars).length < 2 ^ 64) {step : ScreenStep}
    (hstep : step ∈ runSteps g s stored calls) : InText g step.screen step.stored ∧
      step.stored.length + step.call.chars.length < 2 ^ 64 := by
  induction calls generalizing s stored with
  | nil => exact (List.not_mem_nil hstep).elim
  | cons call calls ih =>
    rw [List.flatMap_cons, List.length_append] at hcount
    rcases List.mem_cons.mp hstep with rfl | hstep
    · exact ⟨h, by dsimp only; omega⟩
    · exact ih (screenStep_iff hg h call (by omega)).2 (by rw [List.length_append]; omega) hstep

/-- What one step draws. -/
theorem InText.passesAgree_iff (hg : g.Admitted) (hline : 4 ≤ g.glyphsPerLine)
    (h : InText g s stored) {call : ScreenCall}
    (hcount : stored.length + call.chars.length < 2 ^ 64)
    (hstays : ScreenStep.StaysInBuffer g ⟨s, stored, call⟩) :
    ScreenStep.PassesAgree g ⟨s, stored, call⟩ ↔ ScreenStep.EndsAtWindow g ⟨s, stored, call⟩ := by
  cases call with
  | flushToScreen buffer =>
    rw [ScreenCall.chars_flushToScreen] at hcount
    have hin : InText g ((storedChars buffer).foldl storeChar s) (stored ++ storedChars buffer) :=
      h.foldl hcount
    refine iff_of_true (fun d hd => ?_) trivial
    rw [ScreenStep.drawing?_flushToScreen] at hd
    generalize (storedChars buffer).foldl storeChar s = s' at hin hd
    split at hd
    · obtain rfl := Option.some.inj hd
      exact toTailDrawing_agrees hg hline hin
    · cases hd
  | rewind n =>
    have hstays := ScreenStep.staysInBuffer_rewind.mp hstays
    rw [← h.stored.charCount] at hstays
    exact rewindDrawing?_agrees_iff hg hline h hstays
  | prowind n =>
    have hstays := ScreenStep.staysInBuffer_prowind.mp hstays
    rw [← h.stored.charCount] at hstays
    exact iff_of_true (prowindDrawing?_agrees hg hline h n.isLt hstays) trivial

/-- In every run, a step that reads from the buffer only paints what it has laid out, exactly when
nothing is painted behind the beginning of a window that it draws above. -/
theorem runSteps_passesAgree_iff (hg : g.Admitted) (hline : 4 ≤ g.glyphsPerLine) (buf : Nat → U8)
    {calls : List ScreenCall} (hcount : (calls.flatMap ScreenCall.chars).length < 2 ^ 64) :
    ∀ step ∈ runSteps g (initialScreen buf) [] calls, step.StaysInBuffer g →
      (step.PassesAgree g ↔ step.EndsAtWindow g) := by
  intro step hstep hstays
  obtain ⟨hin, hlength⟩ := inText_of_mem_runSteps hg (inText_initialScreen hg buf)
    (by rwa [List.length_nil, Nat.zero_add]) hstep
  exact hin.passesAgree_iff hg hline hlength hstays

end Runs

/-- Two lines back and one forth, each line a letter. -/
theorem runSteps_passesAgree_lookBack :
    (runSteps ⟨8, 4⟩ (initialScreen fun _ => 0) []
      [.flushToScreen [97, 10, 98, 10, 99, 10, 100, 10, 101, 10, 102, 10, 103], .rewind 2,
        .prowind 1]).Forall fun step => step.PassesAgree ⟨8, 4⟩ := by
  have hg : (⟨8, 4⟩ : Geometry).Admitted := ⟨by decide, by decide, by decide⟩
  have hshort : ([.flushToScreen [97, 10, 98, 10, 99, 10, 100, 10, 101, 10, 102, 10, 103],
      .rewind 2, .prowind 1].flatMap ScreenCall.chars).length ≤ fileBufLen := by
    decide +kernel
  have hends : ∀ step ∈ runSteps ⟨8, 4⟩ (initialScreen fun _ => 0) []
      [.flushToScreen [97, 10, 98, 10, 99, 10, 100, 10, 101, 10, 102, 10, 103], .rewind 2,
        .prowind 1], step.EndsAtWindow ⟨8, 4⟩ := by
    decide +kernel
  rw [List.forall_iff_forall_mem]
  intro step hstep
  have hlength := length_stored_le hstep
  rw [List.length_nil, Nat.zero_add] at hlength
  exact (runSteps_passesAgree_iff hg (by decide) _ (lt_of_le_of_lt hshort (by decide)) step hstep
    (ScreenStep.staysInBuffer_of_length_le (hlength.trans hshort))).mpr (hends step hstep)

/-- Above a window that begins within a tab, `rewind` paints the letter behind it. -/
theorem rewind_paints_window :
    ¬ ∀ (g : Geometry) (buf : Nat → U8) (calls : List ScreenCall), g.Admitted →
      4 ≤ g.glyphsPerLine → (calls.flatMap ScreenCall.chars).length < 2 ^ 64 →
      ∀ step ∈ runSteps g (initialScreen buf) [] calls, step.PassesAgree g := by
  intro hclaim
  have hagree := hclaim ⟨5, 2⟩ (fun _ => 0)
    [.flushToScreen [97, 98, 99, 100, tab, 120, newline, 121], .rewind 1]
    ⟨by decide, by decide, by decide⟩ (by decide) (by decide +kernel)
  revert hagree
  decide +kernel

end Homegrown.Freestanding
