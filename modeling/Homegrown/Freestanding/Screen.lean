import Homegrown.Core.Ring
import Homegrown.Shared.Maths

/-!
# The screen

Text that is flushed to the screen is kept in a ring of bytes, where its logical lines begin in
another ring, and where the screen lines of the visible window begin in a third one. `toTail`,
`rewind` and `prowind` lay out a part of the text again and splice its screen lines into the
window. Positions in the text are numbers below `2 ^ 64`; pixels are left out. `reads` is no part
of the source: it records the positions of the text that a pass lays out or draws.
-/

namespace Homegrown.Freestanding

/-- `TAB_SIZE_IN_GLYPHS`. -/
def tabSizeInGlyphs : U64 := 1 <<< 2

/-- `MAX_SCROLLBACK_LINES`. -/
def maxScrollbackLines : Nat := 2 ^ 13

/-- `FILE_BUF_LEN`. -/
def fileBufLen : Nat := 2 ^ 16

/-! ## Geometry -/

/-- What `initScreen` derives from the size of the screen. -/
structure Geometry where
  glyphsPerLine : Nat
  glyphsPerColumn : Nat
  deriving DecidableEq, Repr

/-- The part of `initScreen` that counts the glyphs. The glyphs of the font are 8 pixels wide and
16 pixels high, and the margins take 20 pixels on each side. -/
def initGeometry (width height : U32) : Geometry where
  glyphsPerLine := ((width - 40).setWidth 16 : U16).toNat / 8
  glyphsPerColumn := ((height - 40).setWidth 16 : U16).toNat / 16

namespace Geometry

/-- `ringGlyphsPerColumn`. -/
def ringGlyphsPerColumn (g : Geometry) : Nat :=
  let ring := nextPow2 (g.glyphsPerColumn + 1) % 2 ^ 16
  if g.glyphsPerColumn = ring then ring * 2 % 2 ^ 16 else ring

/-- `maxCharsToProcess`. -/
def maxCharsToProcess (g : Geometry) : Nat := 2 * (g.glyphsPerLine * g.glyphsPerColumn)

/-- The assertion of `initScreen`, that a column has no more glyphs than a height of 16 bits has
room for, and that a line has one, since `toScreenLines` divides by their number. -/
structure Admitted (g : Geometry) : Prop where
  chars : g.maxCharsToProcess ≤ fileBufLen
  column : g.glyphsPerColumn < 2 ^ 12
  line : 0 < g.glyphsPerLine

/-- A screen with room for a glyph whose window is not larger than the buffer is admitted. -/
theorem admitted_initGeometry {width height : U32}
    (h : (initGeometry width height).maxCharsToProcess ≤ fileBufLen)
    (hline : 0 < (initGeometry width height).glyphsPerLine) :
    (initGeometry width height).Admitted := by
  refine ⟨h, ?_, hline⟩
  have hlt := ((height - 40).setWidth 16 : U16).isLt
  change ((height - 40).setWidth 16 : U16).toNat / 16 < 2 ^ 12
  omega

/-- The ring has more places than the window has lines, and its indices have 16 bits. -/
theorem Admitted.ring {g : Geometry} (h : g.Admitted) :
    g.glyphsPerColumn < g.ringGlyphsPerColumn ∧ g.ringGlyphsPerColumn < 2 ^ 16 := by
  have hcolumn := h.column
  have hle : g.glyphsPerColumn + 1 ≤ nextPow2 (g.glyphsPerColumn + 1) := le_nextPow2
  have hup : nextPow2 (g.glyphsPerColumn + 1) ≤ 2 ^ 15 := nextPow2_le (Nat.succ_pos _) (by omega)
  have hmod : nextPow2 (g.glyphsPerColumn + 1) % 2 ^ 16 = nextPow2 (g.glyphsPerColumn + 1) :=
    Nat.mod_eq_of_lt (by omega)
  rw [ringGlyphsPerColumn, hmod, if_neg (by omega)]
  omega

end Geometry

/-! ## State -/

/-- The variables of the screen. -/
structure Screen where
  buf : Nat → U8
  nextCharInBuf : Nat
  charCount : Nat
  logicalLines : Nat → Nat
  logicalLineToWrite : Nat
  logicalNewline : Bool
  screenLines : Nat → Nat
  screenLinesCopy : Nat → Nat
  logicalLineLens : Nat → Nat
  oldestScreenLineIndex : Nat
  lastScreenlineOpen : Bool
  isTailing : Bool

/-- The screen before any text. The bytes of `buf` are not initialised. -/
def initialScreen (buf : Nat → U8) : Screen where
  buf
  nextCharInBuf := 0
  charCount := 0
  logicalLines := fun _ => 0
  logicalLineToWrite := 0
  logicalNewline := false
  screenLines := fun _ => 0
  screenLinesCopy := fun _ => 0
  logicalLineLens := fun _ => 0
  oldestScreenLineIndex := 0
  lastScreenlineOpen := false
  isTailing := true

/-- The byte at a position of the text. -/
def Screen.charAt (s : Screen) (i : Nat) : U8 := s.buf (i % fileBufLen)

def newline : U8 := 10

def tab : U8 := 9

/-- `additionalSpace`, for the glyphs before a tab in its logical line. -/
def additionalSpace (currentLogicalLineLen : Nat) : Nat :=
  let len : U64 := BitVec.ofNat 64 currentLogicalLineLen
  ((((len + tabSizeInGlyphs) &&& (255 - (tabSizeInGlyphs - 1))) - len).setWidth 8).toNat

/-- `(U8)(glyphsPerLine - currentGlyphLen)`. -/
def extraSpacePreviousLine (g : Geometry) (currentGlyphLen : Nat) : Nat :=
  (g.glyphsPerLine + 2 ^ 16 - currentGlyphLen) % 2 ^ 8

/-! ## Drawing -/

/-- A glyph that is painted: the position of its character, its row and its column. -/
structure Glyph where
  position : Nat
  row : Nat
  column : Nat
  deriving DecidableEq, Repr

/-- The variables of `drawLines`. `row` and `column` stand for `topRightGlyphOffset`. -/
structure Draw where
  currentScreenLines : Nat
  row : Nat
  column : Nat
  currentGlyphLen : Nat
  currentLogicalLineLen : Nat
  toNext : Bool
  painted : List Glyph
  reads : List Nat

/-- The cases of `drawLines` for a character. -/
def drawChar (g : Geometry) (s : Screen) (screenLinesToDraw rowNumber i : Nat) (d : Draw) : Draw :=
  let ch := s.charAt i
  if ch = 0 then d
  else if ch = newline then { d with toNext := true, currentLogicalLineLen := 0 }
  else if ch = tab then
    let space := additionalSpace d.currentLogicalLineLen
    let d := { d with currentLogicalLineLen := d.currentLogicalLineLen + space }
    let finalSize := (d.currentGlyphLen + space) % 2 ^ 16
    if finalSize ≤ g.glyphsPerLine then
      { d with
        column := d.column + space
        currentGlyphLen := finalSize
        toNext := g.glyphsPerLine ≤ finalSize ∧ s.charAt (i + 1) ≠ newline }
    else
      let extra := extraSpacePreviousLine g d.currentGlyphLen
      let lines := (d.currentScreenLines + 1) % 2 ^ 16
      -- The `break` leaves the `switch` and not the loop.
      if screenLinesToDraw ≤ lines then { d with currentScreenLines := lines }
      else
        let glyphLen := (space + 2 ^ 16 - extra) % 2 ^ 16
        { d with
          currentScreenLines := lines
          row := rowNumber + lines
          column := glyphLen
          currentGlyphLen := glyphLen }
  else
    let glyphLen := (d.currentGlyphLen + 1) % 2 ^ 16
    { d with
      painted := d.painted ++ [⟨i, d.row, d.column⟩]
      column := d.column + 1
      currentGlyphLen := glyphLen
      currentLogicalLineLen := d.currentLogicalLineLen + 1
      toNext := d.toNext ∨ (g.glyphsPerLine ≤ glyphLen ∧ s.charAt (i + 1) ≠ newline) }

/-- The loop of `drawLines`, for the characters that are left. -/
def drawLoop (g : Geometry) (s : Screen) (screenLinesToDraw rowNumber : Nat) :
    Nat → Nat → Draw → Draw
  | 0, _, d => d
  | left + 1, i, d =>
    let d := { d with reads := d.reads ++ [i] }
    if d.toNext then
      let lines := (d.currentScreenLines + 1) % 2 ^ 16
      if screenLinesToDraw ≤ lines then { d with currentScreenLines := lines }
      else
        drawLoop g s screenLinesToDraw rowNumber left (i + 1)
          (drawChar g s screenLinesToDraw rowNumber i
            { d with
              currentScreenLines := lines
              row := rowNumber + lines
              column := 0
              currentGlyphLen := 0
              toNext := false })
    else
      drawLoop g s screenLinesToDraw rowNumber left (i + 1)
        (drawChar g s screenLinesToDraw rowNumber i d)

/-- `drawLines`. -/
def drawLines (g : Geometry) (s : Screen)
    (startIndex screenLinesToDraw currentLogicalLineLen rowNumber : Nat) : Draw :=
  let start := s.screenLines startIndex
  drawLoop g s screenLinesToDraw rowNumber (s.charCount - start) start
    { currentScreenLines := 0, row := rowNumber, column := 0, currentGlyphLen := 0,
      currentLogicalLineLen, toNext := false, painted := [], reads := [] }

/-! ## Laying out -/

/-- The variables of `fillScreenLines`, with the two arrays that it writes. -/
structure Fill where
  screenLinesCopy : Nat → Nat
  logicalLineLens : Nat → Nat
  currentScreenLineIndex : Nat
  screenLinesInWindow : Nat
  currentGlyphLen : Nat
  currentLogicalLineLen : Nat
  toNext : Bool
  reads : List Nat

/-- A screen line begins. -/
def Fill.nextScreenLine (g : Geometry) (startIndex i lineLen : Nat) (f : Fill) : Fill :=
  let next := ringIncrement f.currentScreenLineIndex g.ringGlyphsPerColumn
  { f with
    currentScreenLineIndex := next
    screenLinesCopy := Function.update f.screenLinesCopy next i
    logicalLineLens := Function.update f.logicalLineLens next lineLen
    screenLinesInWindow := (f.screenLinesInWindow + if startIndex ≤ i then 1 else 0) % 2 ^ 16 }

/-- The cases of `fillScreenLines` for a character. -/
def fillChar (g : Geometry) (s : Screen) (startIndex maxNewScreenLinesToFill i : Nat) (f : Fill) :
    Fill :=
  let ch := s.charAt i
  if ch = 0 then f
  else if ch = newline then { f with toNext := true, currentLogicalLineLen := 0 }
  else if ch = tab then
    let space := additionalSpace f.currentLogicalLineLen
    let finalSize := (f.currentGlyphLen + space) % 2 ^ 16
    if finalSize ≤ g.glyphsPerLine then
      { f with
        currentGlyphLen := finalSize
        toNext := finalSize = g.glyphsPerLine ∧ s.charAt (i + 1) ≠ newline
        currentLogicalLineLen := f.currentLogicalLineLen + space }
    -- The `break` leaves the `switch` and not the loop.
    else if maxNewScreenLinesToFill ≠ 0 ∧ maxNewScreenLinesToFill ≤ f.screenLinesInWindow then f
    else
      let extra := extraSpacePreviousLine g f.currentGlyphLen
      { f.nextScreenLine g startIndex i (f.currentLogicalLineLen + extra) with
        currentGlyphLen := (space + 2 ^ 16 - extra) % 2 ^ 16
        currentLogicalLineLen := f.currentLogicalLineLen + space }
  else
    let glyphLen := (f.currentGlyphLen + 1) % 2 ^ 16
    { f with
      currentGlyphLen := glyphLen
      currentLogicalLineLen := f.currentLogicalLineLen + 1
      toNext := f.toNext ∨ (g.glyphsPerLine ≤ glyphLen ∧ s.charAt (i + 1) ≠ newline) }

/-- The loop of `fillScreenLines`, for the characters that are left, with the position where it
ends. -/
def fillLoop (g : Geometry) (s : Screen) (startIndex maxNewScreenLinesToFill : Nat) :
    Nat → Nat → Fill → Nat × Fill
  | 0, i, f => (i, f)
  | left + 1, i, f =>
    let f := { f with reads := f.reads ++ [i] }
    if f.toNext then
      if maxNewScreenLinesToFill ≠ 0 ∧ maxNewScreenLinesToFill ≤ f.screenLinesInWindow then (i, f)
      else
        fillLoop g s startIndex maxNewScreenLinesToFill left (i + 1)
          (fillChar g s startIndex maxNewScreenLinesToFill i
            { f.nextScreenLine g startIndex i f.currentLogicalLineLen with
              currentGlyphLen := 0
              toNext := false })
    else
      fillLoop g s startIndex maxNewScreenLinesToFill left (i + 1)
        (fillChar g s startIndex maxNewScreenLinesToFill i f)

/-- `FillResult`, with the two arrays and the positions that were read. -/
structure FillResult where
  realScreenLinesWritten : Nat
  currentScreenLineIndex : Nat
  lastLineDone : Bool
  screenLinesCopy : Nat → Nat
  logicalLineLens : Nat → Nat
  reads : List Nat

/-- The variables of `fillScreenLines` before its loop. -/
def fillStart (s : Screen) (dryStartIndex startIndex : Nat) : Fill where
  screenLinesCopy := Function.update s.screenLinesCopy 0 dryStartIndex
  logicalLineLens := Function.update s.logicalLineLens 0 0
  currentScreenLineIndex := 0
  screenLinesInWindow := if startIndex ≤ dryStartIndex then 1 else 0
  currentGlyphLen := 0
  currentLogicalLineLen := 0
  toNext := false
  reads := []

/-- `fillScreenLines`. -/
def fillScreenLines (g : Geometry) (s : Screen)
    (dryStartIndex startIndex endIndexExclusive maxNewScreenLinesToFill : Nat) : FillResult :=
  let (i, f) := fillLoop g s startIndex maxNewScreenLinesToFill
    (endIndexExclusive - dryStartIndex) dryStartIndex (fillStart s dryStartIndex startIndex)
  let current := ringIncrement f.currentScreenLineIndex g.ringGlyphsPerColumn
  { realScreenLinesWritten := min f.screenLinesInWindow g.glyphsPerColumn
    currentScreenLineIndex := current
    lastLineDone := f.toNext
    screenLinesCopy := Function.update f.screenLinesCopy current i
    logicalLineLens := f.logicalLineLens
    reads := f.reads }

/-! ## Logical lines -/

/-- `toScreenLines`. -/
def toScreenLines (g : Geometry) (number : Nat) : Nat :=
  (if 0 < number then (number + (g.glyphsPerLine - 1)) / g.glyphsPerLine else 0) +
    if number = 0 then 1 else 0

/-- The loop of `I8IndexToLogicalLine`: its interval shrinks in every round. -/
def searchLogicalLines (s : Screen) (I8Index : Nat) : Nat → Nat → Nat → Nat
  | 0, left, _ => left
  | rounds + 1, left, right =>
    if 1 < ringMinus right left maxScrollbackLines then
      let mid := ringPlus left (ringMinus right left maxScrollbackLines / 2) maxScrollbackLines
      if I8Index < s.logicalLines mid then searchLogicalLines s I8Index rounds left mid
      else searchLogicalLines s I8Index rounds mid right
    else left

/-- `I8IndexToLogicalLine`. -/
def I8IndexToLogicalLine (s : Screen) (I8Index : Nat) : Nat :=
  if s.logicalLines s.logicalLineToWrite ≤ I8Index then s.logicalLineToWrite
  else
    searchLogicalLines s I8Index maxScrollbackLines
      (ringIncrement s.logicalLineToWrite maxScrollbackLines) s.logicalLineToWrite

/-- The loop of `oldestCharToParseGivenScreenLines`, for the logical lines that are left before
the oldest one. -/
def oldestLogicalLine (g : Geometry) (s : Screen) (screenLinesToProcess : Nat) :
    Nat → Nat → Nat → Nat
  | 0, logicalLineIndex, _ => logicalLineIndex
  | left + 1, logicalLineIndex, screenLinesProcessed =>
    if screenLinesProcessed < screenLinesToProcess then
      let previous := ringDecrement logicalLineIndex maxScrollbackLines
      oldestLogicalLine g s screenLinesToProcess left previous
        (screenLinesProcessed +
          toScreenLines g (s.logicalLines logicalLineIndex - s.logicalLines previous))
    else logicalLineIndex

/-- `oldestCharToParseGivenScreenLines`. -/
def oldestCharToParseGivenScreenLines (g : Geometry) (s : Screen)
    (endCharExclusive screenLinesToProcess : Nat) : Nat :=
  let oldestLogicalLineIndex := ringIncrement s.logicalLineToWrite maxScrollbackLines
  let found := I8IndexToLogicalLine s endCharExclusive
  if found = oldestLogicalLineIndex ∧ endCharExclusive ≤ s.logicalLines found then
    endCharExclusive
  else
    let logicalLineIndex :=
      if s.logicalLines found = endCharExclusive then ringDecrement found maxScrollbackLines
      else found
    let oldest := oldestLogicalLine g s screenLinesToProcess
      (ringMinus logicalLineIndex oldestLogicalLineIndex maxScrollbackLines) logicalLineIndex
      (toScreenLines g (endCharExclusive - s.logicalLines logicalLineIndex))
    let oldestCharToProcess := s.logicalLines oldest
    if g.maxCharsToProcess < endCharExclusive - oldestCharToProcess then
      endCharExclusive - g.maxCharsToProcess
    else oldestCharToProcess

/-! ## The window -/

/-- Screen lines are copied into the window. -/
def spliceScreenLines (g : Geometry) (screenLines screenLinesCopy : Nat → Nat) (dest src : Nat) :
    Nat → Nat → Nat
  | 0 => screenLines
  | count + 1 =>
    Function.update (spliceScreenLines g screenLines screenLinesCopy dest src count)
      (ringPlus dest count g.ringGlyphsPerColumn)
      (screenLinesCopy (ringPlus src count g.ringGlyphsPerColumn))

/-- The loop at the start of `toTail`: the last entry of the window that has text before it. -/
def finalScreenLine (g : Geometry) (s : Screen) : Nat → Nat → Nat
  | 0, finalScreenLineEntry => finalScreenLineEntry
  | left + 1, finalScreenLineEntry =>
    if s.screenLines finalScreenLineEntry ≤ s.screenLines s.oldestScreenLineIndex ∧
        finalScreenLineEntry ≠ s.oldestScreenLineIndex then
      finalScreenLine g s left (ringDecrement finalScreenLineEntry g.ringGlyphsPerColumn)
    else finalScreenLineEntry

/-- `toTail`, with the positions that are read. -/
def toTail (g : Geometry) (s : Screen) : Screen × List Nat :=
  let finalScreenLineEntry := finalScreenLine g s g.ringGlyphsPerColumn
    (ringPlus s.oldestScreenLineIndex (g.glyphsPerColumn - s.lastScreenlineOpen.toNat)
      g.ringGlyphsPerColumn)
  let firstCharOutsideWindow := s.screenLines finalScreenLineEntry
  let oldestCharToProcess :=
    max (oldestCharToParseGivenScreenLines g s s.charCount g.glyphsPerColumn)
      (s.logicalLines (I8IndexToLogicalLine s firstCharOutsideWindow))
  let fill := fillScreenLines g s oldestCharToProcess firstCharOutsideWindow s.charCount 0
  let startIndex := ringMinus fill.currentScreenLineIndex fill.realScreenLinesWritten
    g.ringGlyphsPerColumn
  let oldScreenLines := g.glyphsPerColumn - fill.realScreenLinesWritten
  let originalScreenLines := ringMinus finalScreenLineEntry s.oldestScreenLineIndex
    g.ringGlyphsPerColumn
  let totalLines := fill.realScreenLinesWritten + originalScreenLines
  let oldestScreenLineIndex :=
    if g.glyphsPerColumn < totalLines then
      ringPlus s.oldestScreenLineIndex (totalLines - g.glyphsPerColumn) g.ringGlyphsPerColumn
    else s.oldestScreenLineIndex
  let s := { s with
    oldestScreenLineIndex
    screenLines := spliceScreenLines g s.screenLines fill.screenLinesCopy
      (oldestScreenLineIndex + oldScreenLines) startIndex (fill.realScreenLinesWritten + 1)
    screenLinesCopy := fill.screenLinesCopy
    logicalLineLens := fill.logicalLineLens
    lastScreenlineOpen := !fill.lastLineDone }
  let draw := drawLines g s
    (ringPlus oldestScreenLineIndex oldScreenLines g.ringGlyphsPerColumn)
    fill.realScreenLinesWritten (fill.logicalLineLens startIndex) oldScreenLines
  (s, fill.reads ++ draw.reads)

/-- The body of the loop in `flushToScreen`. -/
def storeChar (s : Screen) (ch : U8) : Screen :=
  let s := { s with buf := Function.update s.buf s.nextCharInBuf ch }
  let s := if s.logicalNewline then
      let next := ringIncrement s.logicalLineToWrite maxScrollbackLines
      { s with
        logicalLineToWrite := next
        logicalLines := Function.update s.logicalLines next s.charCount
        logicalNewline := false }
    else s
  { s with
    logicalNewline := s.logicalNewline ∨ ch = newline
    nextCharInBuf := ringIncrement s.nextCharInBuf fileBufLen
    charCount := (s.charCount + 1) % 2 ^ 64 }

/-- The characters that `flushToScreen` stores. -/
def storedChars (buffer : List U8) : List U8 := buffer.drop (buffer.length - fileBufLen)

/-- `flushToScreen`, with the positions that are read. -/
def flushToScreen (g : Geometry) (s : Screen) (buffer : List U8) : Screen × List Nat :=
  let s := (storedChars buffer).foldl storeChar s
  if s.isTailing then toTail g s else (s, [])

/-- `isWindowSmallerThanScreen`. -/
def isWindowSmallerThanScreen (g : Geometry) (s : Screen) : Bool :=
  s.screenLines (ringPlus s.oldestScreenLineIndex g.glyphsPerColumn g.ringGlyphsPerColumn) ≤
    s.screenLines s.oldestScreenLineIndex

/-- `rewind`, with the positions that are read. -/
def rewind (g : Geometry) (s : Screen) (numberOfScreenLines : Nat) : Screen × List Nat :=
  if isWindowSmallerThanScreen g s then (s, [])
  else
    let currentOldestCharInWindow := s.screenLines s.oldestScreenLineIndex
    let oldestCharToProcess :=
      oldestCharToParseGivenScreenLines g s currentOldestCharInWindow numberOfScreenLines
    if oldestCharToProcess = currentOldestCharInWindow then (s, [])
    else
      let fill := fillScreenLines g s oldestCharToProcess oldestCharToProcess
        currentOldestCharInWindow 0
      let newScreenLinesOnTop := min fill.realScreenLinesWritten numberOfScreenLines
      let startIndex := ringMinus fill.currentScreenLineIndex newScreenLinesOnTop
        g.ringGlyphsPerColumn
      let oldestScreenLineIndex := ringMinus s.oldestScreenLineIndex newScreenLinesOnTop
        g.ringGlyphsPerColumn
      let s := { s with
        oldestScreenLineIndex
        screenLines := spliceScreenLines g s.screenLines fill.screenLinesCopy
          oldestScreenLineIndex startIndex newScreenLinesOnTop
        screenLinesCopy := fill.screenLinesCopy
        logicalLineLens := fill.logicalLineLens }
      let draw := drawLines g s oldestScreenLineIndex newScreenLinesOnTop
        (fill.logicalLineLens startIndex) 0
      ({ s with isTailing := false, lastScreenlineOpen := false }, fill.reads ++ draw.reads)

/-- `prowind`, with the positions that are read. -/
def prowind (g : Geometry) (s : Screen) (numberOfScreenLines : Nat) : Screen × List Nat :=
  if isWindowSmallerThanScreen g s then (s, [])
  else
    let firstCharOutsideWindow := s.screenLines
      (ringPlus s.oldestScreenLineIndex g.glyphsPerColumn g.ringGlyphsPerColumn)
    if s.charCount = firstCharOutsideWindow then (s, [])
    else
      let oldestCharToProcess := oldestCharToParseGivenScreenLines g s firstCharOutsideWindow 0
      let fill := fillScreenLines g s oldestCharToProcess firstCharOutsideWindow s.charCount
        numberOfScreenLines
      let oldScreenLines := g.glyphsPerColumn - fill.realScreenLinesWritten
      let startIndex := ringMinus fill.currentScreenLineIndex fill.realScreenLinesWritten
        g.ringGlyphsPerColumn
      let oldestScreenLineIndex := ringPlus s.oldestScreenLineIndex fill.realScreenLinesWritten
        g.ringGlyphsPerColumn
      let s := { s with
        oldestScreenLineIndex
        screenLines := spliceScreenLines g s.screenLines fill.screenLinesCopy
          (oldestScreenLineIndex + oldScreenLines) startIndex (fill.realScreenLinesWritten + 1)
        screenLinesCopy := fill.screenLinesCopy
        logicalLineLens := fill.logicalLineLens }
      let draw := drawLines g s
        (ringPlus oldestScreenLineIndex oldScreenLines g.ringGlyphsPerColumn)
        fill.realScreenLinesWritten (fill.logicalLineLens startIndex) oldScreenLines
      ({ s with
        isTailing := s.screenLines
          (ringPlus oldestScreenLineIndex g.glyphsPerColumn g.ringGlyphsPerColumn) = s.charCount
        lastScreenlineOpen := !fill.lastLineDone }, fill.reads ++ draw.reads)

/-! ## Calls -/

/-- A call of the screen. -/
inductive ScreenCall where
  | flushToScreen (buffer : List U8)
  | rewind (numberOfScreenLines : U16)
  | prowind (numberOfScreenLines : U16)

/-- The screen after a call, and the positions that the call reads. -/
def ScreenCall.run (g : Geometry) (s : Screen) : ScreenCall → Screen × List Nat
  | flushToScreen buffer => Freestanding.flushToScreen g s buffer
  | rewind numberOfScreenLines => Freestanding.rewind g s numberOfScreenLines.toNat
  | prowind numberOfScreenLines => Freestanding.prowind g s numberOfScreenLines.toNat

end Homegrown.Freestanding
