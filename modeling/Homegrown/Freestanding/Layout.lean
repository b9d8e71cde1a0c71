import Homegrown.Freestanding.LogicalLines
import Homegrown.Freestanding.ScreenLines

/-!
# The layout of a text

Where the screen lines of a text begin, without rings: a pen moves over the characters, and a
screen line begins where it breaks. Behind a newline every pen is the same, so that a text laid
out from a logical line on has the screen lines of the whole text from there on, which is what
`fillScreenLines` relies on.
-/

namespace Homegrown.Freestanding

/-! ## The pen -/

/-- The state of the layout before a character. -/
@[ext] structure Pen where
  glyphLen : Nat
  lineLen : Nat
  toNext : Bool

/-- The pen where a logical line begins. -/
def Pen.start : Pen := ⟨0, 0, false⟩

/-- The pen in the next screen line, if there is to be one. -/
def Pen.turn (p : Pen) : Pen := if p.toNext then { p with glyphLen := 0, toNext := false } else p

/-- The character is a tab that goes on in the next screen line. -/
def Pen.Overflows (g : Geometry) (ch : U8) (p : Pen) : Prop :=
  ch = tab ∧ g.glyphsPerLine < (p.glyphLen + additionalSpace p.lineLen) % 2 ^ 16

instance (g : Geometry) (ch : U8) (p : Pen) : Decidable (p.Overflows g ch) :=
  inferInstanceAs (Decidable (_ ∧ _))

/-- The pen behind a character, which may be followed by a newline. -/
def Pen.char (g : Geometry) (ch : U8) (beforeNewline : Bool) (p : Pen) : Pen :=
  if ch = 0 then p
  else if ch = newline then { p with toNext := true, lineLen := 0 }
  else if ch = tab then
    let space := additionalSpace p.lineLen
    let finalSize := (p.glyphLen + space) % 2 ^ 16
    if finalSize ≤ g.glyphsPerLine then
      ⟨finalSize, p.lineLen + space, finalSize = g.glyphsPerLine ∧ ¬ beforeNewline⟩
    else
      { p with
        glyphLen := (space + 2 ^ 16 - extraSpacePreviousLine g p.glyphLen) % 2 ^ 16
        lineLen := p.lineLen + space }
  else
    let glyphLen := (p.glyphLen + 1) % 2 ^ 16
    ⟨glyphLen, p.lineLen + 1, p.toNext ∨ (g.glyphsPerLine ≤ glyphLen ∧ ¬ beforeNewline)⟩

/-- The pen before a position, when the text is laid out from another one on. -/
def penAt (g : Geometry) (text : Nat → U8) (dry : Nat) : Nat → Pen
  | 0 => .start
  | i + 1 =>
    if i < dry then .start
    else (penAt g text dry i).turn.char g (text i) (text (i + 1) = newline)

/-- A screen line is broken before a position. -/
def Breaks (g : Geometry) (text : Nat → U8) (dry i : Nat) : Prop :=
  (penAt g text dry i).toNext = true ∨ (penAt g text dry i).turn.Overflows g (text i)

instance (g : Geometry) (text : Nat → U8) (dry i : Nat) : Decidable (Breaks g text dry i) :=
  inferInstanceAs (Decidable (_ ∨ _))

/-- The text as a function of the position. -/
def textAt (stored : List U8) (i : Nat) : U8 := stored.getD i 0

/-- A screen line of the text begins at a position. -/
def Begins (g : Geometry) (stored : List U8) (i : Nat) : Prop :=
  i = 0 ∨ Breaks g (textAt stored) 0 i

instance (g : Geometry) (stored : List U8) (i : Nat) : Decidable (Begins g stored i) :=
  inferInstanceAs (Decidable (_ ∨ _))

/-- Where the screen lines of a text begin that do not begin before a position. -/
def screenStarts (g : Geometry) (stored : List U8) (q : Nat) : List Nat :=
  (List.range' q (stored.length - q)).filter fun i => Begins g stored i

section Pen

variable {g : Geometry} {ch : U8} {p : Pen} {text text' : Nat → U8} {dry i q : Nat}

/-- `additionalSpace` goes to the next multiple of the tab size. -/
theorem additionalSpace_eq (len : Nat) : additionalSpace len = 4 - len % 4 := by
  have hbyte : ∀ x : BitVec 8, (((x + 4) &&& 252) - x).toNat = 4 - x.toNat % 4 := by decide
  have hsub (x y : BitVec 64) : (x - y).setWidth 8 = x.setWidth 8 - y.setWidth 8 := by
    rw [BitVec.sub_eq_add_neg, BitVec.setWidth_add _ _ (by decide),
      BitVec.setWidth_neg_of_le (by decide), ← BitVec.sub_eq_add_neg]
  have hmask : (255 - (tabSizeInGlyphs - 1)).setWidth 8 = (252 : BitVec 8) := by decide
  have hlen : ((BitVec.ofNat 64 len).setWidth 8).toNat % 4 = len % 4 := by
    rw [BitVec.toNat_setWidth, BitVec.toNat_ofNat]
    omega
  rw [additionalSpace, hsub, BitVec.setWidth_and, BitVec.setWidth_add _ _ (by decide), hmask,
    ← hlen]
  exact hbyte _

/-- After the turn the pen is in its line. -/
@[simp] theorem turn_toNext : p.turn.toNext = false := by
  rw [Pen.turn]
  split
  · rfl
  · rename_i h
    exact eq_false_of_ne_true h

/-- A pen that waits for the next line goes to its start. -/
theorem turn_of_toNext (h : p.toNext = true) : p.turn = ⟨0, p.lineLen, false⟩ := if_pos h

/-- Another pen stays. -/
theorem turn_of_not_toNext (h : ¬ p.toNext = true) : p.turn = p := if_neg h

/-- No tab goes on in the next screen line from the beginning of one. -/
theorem not_overflows (hline : 4 ≤ g.glyphsPerLine) (h : p.glyphLen = 0) : ¬ p.Overflows g ch := by
  rintro ⟨-, hlt⟩
  rw [h, additionalSpace_eq] at hlt
  omega

/-- Up to the first character the pen has not moved. -/
theorem penAt_of_le (h : i ≤ dry) : penAt g text dry i = .start := by
  cases i with
  | zero => rfl
  | succ i => exact if_pos (by omega)

/-- The pen after one more character. -/
theorem penAt_succ (h : dry ≤ i) : penAt g text dry (i + 1) =
    (penAt g text dry i).turn.char g (text i) (text (i + 1) = newline) :=
  if_neg (by omega)

/-- The pen depends on the characters before it and on the one that follows. -/
theorem penAt_congr (h : ∀ j, dry ≤ j → j ≤ i → text j = text' j) :
    penAt g text dry i = penAt g text' dry i := by
  induction i with
  | zero => rfl
  | succ i ih =>
    rcases Nat.lt_or_ge i dry with hlt | hge
    · rw [penAt_of_le hlt, penAt_of_le hlt]
    · rw [penAt_succ hge, penAt_succ hge, ih fun j hj hi => h j hj (by omega),
        h i hge (Nat.le_succ i), h (i + 1) (by omega) le_rfl]

/-- Whether a line breaks depends on the characters up to there. -/
theorem breaks_congr (h : ∀ j, dry ≤ j → j ≤ i → text j = text' j) :
    dry ≤ i → (Breaks g text dry i ↔ Breaks g text' dry i) := by
  intro hdry
  rw [Breaks, Breaks, penAt_congr h, h i hdry le_rfl]

/-- Nothing is broken where the layout starts. -/
theorem not_breaks_start (hline : 4 ≤ g.glyphsPerLine) : ¬ Breaks g text dry dry := by
  rw [Breaks, penAt_of_le le_rfl]
  rintro (h | h)
  · cases h
  · exact not_overflows hline rfl h

/-- Behind a newline the pen begins anew. -/
theorem penAt_turn_of_newline (hdry : dry ≤ i) (h : text i = newline) :
    (penAt g text dry (i + 1)).toNext = true ∧ (penAt g text dry (i + 1)).turn = .start := by
  have hpen : penAt g text dry (i + 1) =
      { (penAt g text dry i).turn with toNext := true, lineLen := 0 } := by
    rw [penAt_succ hdry, h]
    rfl
  rw [hpen]
  exact ⟨rfl, rfl⟩

end Pen

/-! ## Logical lines -/

section Lines

variable {g : Geometry} {stored : List U8} {dry i q : Nat}

/-- The character of the text at a place. -/
theorem textAt_of_getElem? {ch : U8} (h : stored[i]? = some ch) : textAt stored i = ch := by
  rw [textAt, List.getD_eq_getElem?_getD, h]
  rfl

/-- Where a logical line begins, the pen begins anew. -/
theorem penAt_turn_of_lineBegins (h : LineBegins stored q) (hdry : dry ≤ q) :
    (penAt g (textAt stored) dry q).turn = .start ∧
      (q = dry ∨ (penAt g (textAt stored) dry q).toNext = true) := by
  rcases Nat.eq_or_lt_of_le hdry with rfl | hlt
  · rw [penAt_of_le le_rfl]
    exact ⟨rfl, .inl rfl⟩
  · obtain ⟨i, rfl⟩ : ∃ i, q = i + 1 := ⟨q - 1, by omega⟩
    have hnewline := h.resolve_left (Nat.succ_ne_zero i)
    rw [Nat.add_sub_cancel] at hnewline
    have hpen := penAt_turn_of_newline (g := g) (Nat.lt_succ_iff.mp hlt)
      (textAt_of_getElem? hnewline)
    exact ⟨hpen.2, .inr hpen.1⟩

/-- From a logical line on, the pen does not depend on where the layout started. -/
theorem penAt_of_lineBegins (h : LineBegins stored q) (hdry : dry ≤ q) (hi : q ≤ i) :
    (penAt g (textAt stored) dry i).turn = (penAt g (textAt stored) q i).turn ∧
      (q < i → penAt g (textAt stored) dry i = penAt g (textAt stored) q i) := by
  induction i, hi using Nat.le_induction with
  | base =>
    rw [(penAt_turn_of_lineBegins h hdry).1, (penAt_turn_of_lineBegins h le_rfl).1]
    exact ⟨rfl, fun hlt => absurd hlt (lt_irrefl q)⟩
  | succ i hi ih =>
    have hpen : penAt g (textAt stored) dry (i + 1) = penAt g (textAt stored) q (i + 1) := by
      rw [penAt_succ (hdry.trans hi), penAt_succ hi, ih.1]
    exact ⟨by rw [hpen], fun _ => hpen⟩

/-- From a logical line on, screen lines begin where they do in the whole text. -/
theorem breaks_iff_begins (h : LineBegins stored q) (hdry : dry ≤ q) (hi : q ≤ i) :
    (i = dry ∨ Breaks g (textAt stored) dry i) ↔
      (i = q ∨ Breaks g (textAt stored) q i) := by
  rcases Nat.eq_or_lt_of_le hi with rfl | hlt
  · refine iff_of_true ?_ (.inl rfl)
    exact (penAt_turn_of_lineBegins h hdry).2.imp_right .inl
  · rw [Breaks, Breaks, (penAt_of_lineBegins h hdry hi).2 hlt]
    exact or_congr ⟨fun heq => by omega, fun heq => by omega⟩ Iff.rfl

/-- Behind the start of a logical line, lines begin where the pen breaks them. -/
theorem begins_iff (h : LineBegins stored q) (hi : q ≤ i) :
    Begins g stored i ↔ i = q ∨ Breaks g (textAt stored) q i :=
  breaks_iff_begins h (Nat.zero_le q) hi

/-- A screen line begins with every logical line. -/
theorem LineBegins.begins (h : LineBegins stored q) : Begins g stored q :=
  (begins_iff h le_rfl).mpr (.inl rfl)

end Lines

/-! ## Laying out -/

/-- The pen of `fillScreenLines`. -/
def Fill.pen (f : Fill) : Pen := ⟨f.currentGlyphLen, f.currentLogicalLineLen, f.toNext⟩

/-- What `fillScreenLines` has noted: the screen lines that begin at some positions, of which it
counts those from its start index on. -/
structure FillNotes (g : Geometry) (startIndex : Nat) (f : Fill) (starts : List Nat) : Prop where
  holds : ∃ lines, FillHolds g f lines ∧ lines.map Prod.fst = starts
  count : f.screenLinesInWindow = starts.countP (startIndex ≤ ·) % 2 ^ 16

section Fill

variable {g : Geometry} {s : Screen} {f f' : Fill} {starts : List Nat} {startIndex dry i : Nat}

/-- The notes depend on four fields. -/
theorem FillNotes.congr (h : FillNotes g startIndex f starts)
    (hcopy : f'.screenLinesCopy = f.screenLinesCopy)
    (hlens : f'.logicalLineLens = f.logicalLineLens)
    (hindex : f'.currentScreenLineIndex = f.currentScreenLineIndex)
    (hwindow : f'.screenLinesInWindow = f.screenLinesInWindow) :
    FillNotes g startIndex f' starts := by
  obtain ⟨lines, hlines, hfst⟩ := h.holds
  exact ⟨⟨lines, ⟨by rw [hcopy]; exact hlines.starts, by rw [hlens]; exact hlines.lens, hlines.pos,
    hindex.trans hlines.index⟩, hfst⟩, hwindow.trans h.count⟩

/-- One more line is noted. -/
theorem FillNotes.nextScreenLine (h : FillNotes g startIndex f starts) (i len : Nat) :
    FillNotes g startIndex (f.nextScreenLine g startIndex i len) (starts ++ [i]) := by
  obtain ⟨lines, hlines, hfst⟩ := h.holds
  refine ⟨⟨lines ++ [(i, len)], hlines.nextScreenLine, ?_⟩, ?_⟩
  · rw [List.map_append, hfst]
    rfl
  · rw [Fill.nextScreenLine, h.count, List.countP_append, List.countP_singleton]
    simp only [decide_eq_true_eq, Nat.mod_add_mod]

/-- `fillScreenLines` moves the pen over a character, and notes a screen line where a tab goes
on in the next one. -/
theorem FillNotes.fillChar (h : FillNotes g startIndex f starts) (s : Screen) (i : Nat) :
    (fillChar g s startIndex 0 i f).pen =
        f.pen.char g (s.charAt i) (s.charAt (i + 1) = newline) ∧
      FillNotes g startIndex (fillChar g s startIndex 0 i f)
        (starts ++ if f.pen.Overflows g (s.charAt i) then [i] else []) := by
  have hsame (hch : ¬ f.pen.Overflows g (s.charAt i)) {f' : Fill}
      (h' : FillNotes g startIndex f' starts) :
      FillNotes g startIndex f' (starts ++ if f.pen.Overflows g (s.charAt i) then [i] else []) := by
    rwa [if_neg hch, List.append_nil]
  unfold Freestanding.fillChar Pen.char
  dsimp only
  by_cases hzero : s.charAt i = 0
  · rw [if_pos hzero, if_pos hzero]
    refine ⟨rfl, hsame (fun hover => ?_) h⟩
    exact absurd (hover.1.symm.trans hzero) (by decide)
  rw [if_neg hzero, if_neg hzero]
  by_cases hnewline : s.charAt i = newline
  · rw [if_pos hnewline, if_pos hnewline]
    refine ⟨rfl, hsame (fun hover => ?_) (h.congr rfl rfl rfl rfl)⟩
    exact absurd (hover.1.symm.trans hnewline) (by decide)
  rw [if_neg hnewline, if_neg hnewline]
  by_cases htab : s.charAt i = tab
  · rw [if_pos htab, if_pos htab]
    by_cases hfits : (f.currentGlyphLen + additionalSpace f.currentLogicalLineLen) % 2 ^ 16 ≤
        g.glyphsPerLine
    · rw [if_pos hfits, if_pos (show (f.pen.glyphLen + additionalSpace f.pen.lineLen) % 2 ^ 16 ≤
        g.glyphsPerLine from hfits)]
      refine ⟨?_, hsame (fun hover => absurd hover.2 (not_lt.mpr hfits))
        (h.congr rfl rfl rfl rfl)⟩
      simp [Fill.pen]
    · rw [if_neg hfits, if_neg (show ¬ (f.pen.glyphLen + additionalSpace f.pen.lineLen) % 2 ^ 16 ≤
        g.glyphsPerLine from hfits), if_neg (by simp)]
      refine ⟨rfl, ?_⟩
      rw [if_pos ⟨htab, not_le.mp hfits⟩]
      exact (h.nextScreenLine i _).congr rfl rfl rfl rfl
  · rw [if_neg htab, if_neg htab]
    refine ⟨?_, hsame (fun hover => htab hover.1) (h.congr rfl rfl rfl rfl)⟩
    simp [Fill.pen]

/-- A round of the loop of `fillScreenLines`, without a limit. -/
def fillStep (g : Geometry) (s : Screen) (startIndex i : Nat) (f : Fill) : Fill :=
  let f := { f with reads := f.reads ++ [i] }
  if f.toNext then
    fillChar g s startIndex 0 i
      { f.nextScreenLine g startIndex i f.currentLogicalLineLen with
        currentGlyphLen := 0
        toNext := false }
  else fillChar g s startIndex 0 i f

/-- One round more of the loop without a limit. -/
theorem fillLoop_succ (left : Nat) : fillLoop g s startIndex 0 (left + 1) i f =
    fillLoop g s startIndex 0 left (i + 1) (fillStep g s startIndex i f) := by
  rw [fillLoop, fillStep]
  dsimp only
  split
  · rw [if_neg (by simp)]
  · rfl

/-- A round moves the pen over a character, behind the screen line that begins at it. -/
theorem FillNotes.fillStep (hline : 4 ≤ g.glyphsPerLine) (h : FillNotes g startIndex f starts)
    (hdry : dry ≤ i) (hpen : f.pen = penAt g s.charAt dry i) :
    (fillStep g s startIndex i f).pen = penAt g s.charAt dry (i + 1) ∧
      FillNotes g startIndex (Freestanding.fillStep g s startIndex i f)
        (starts ++ if Breaks g s.charAt dry i then [i] else []) := by
  have hbreaks : Breaks g s.charAt dry i ↔
      f.toNext = true ∨ f.pen.turn.Overflows g (s.charAt i) := by
    rw [Breaks, ← hpen]
    exact Iff.rfl
  -- The character after the screen line that begins at it was noted.
  have hstep (f₁ : Fill) (starts₁ : List Nat) (h₁ : FillNotes g startIndex f₁ starts₁)
      (hpen₁ : f₁.pen = f.pen.turn)
      (hstarts : starts₁ ++ (if f₁.pen.Overflows g (s.charAt i) then [i] else []) =
        starts ++ if Breaks g s.charAt dry i then [i] else []) :
      (Freestanding.fillChar g s startIndex 0 i f₁).pen = penAt g s.charAt dry (i + 1) ∧
        FillNotes g startIndex (Freestanding.fillChar g s startIndex 0 i f₁)
          (starts ++ if Breaks g s.charAt dry i then [i] else []) := by
    obtain ⟨hpen₂, h₂⟩ := h₁.fillChar s i
    rw [hpen₁, hpen, ← penAt_succ hdry] at hpen₂
    rw [hstarts] at h₂
    exact ⟨hpen₂, h₂⟩
  unfold Freestanding.fillStep
  dsimp only
  split
  · rename_i hnext
    refine hstep _ (starts ++ [i]) ((h.nextScreenLine i _).congr rfl rfl rfl rfl) ?_ ?_
    · rw [turn_of_toNext hnext]
      rfl
    · rw [if_neg (not_overflows hline rfl), if_pos (hbreaks.mpr (.inl hnext)), List.append_nil]
  · rename_i hnext
    have hturn : f.pen.turn = f.pen := turn_of_not_toNext hnext
    refine hstep _ starts (h.congr rfl rfl rfl rfl) hturn.symm ?_
    have hiff : f.pen.Overflows g (s.charAt i) ↔ Breaks g s.charAt dry i := by
      rw [hbreaks, hturn]
      exact ⟨.inr, fun h => h.resolve_left hnext⟩
    exact congrArg (starts ++ ·) (if_congr hiff rfl rfl)

/-- The screen lines that begin between two positions, with the first one. -/
theorem filter_breaks_succ {text : Nat → U8} (left : Nat) :
    (List.range' i (left + 1)).filter (fun j => Breaks g text dry j) =
      (if Breaks g text dry i then [i] else []) ++
        (List.range' (i + 1) left).filter fun j => Breaks g text dry j := by
  rw [List.range'_succ, List.filter_cons]
  by_cases hbreak : Breaks g text dry i <;> simp [hbreak]

/-- `fillScreenLines` notes the screen lines that begin between its bounds. -/
theorem FillNotes.fillLoop (hline : 4 ≤ g.glyphsPerLine) (left : Nat)
    (h : FillNotes g startIndex f starts) (hdry : dry ≤ i)
    (hpen : f.pen = penAt g s.charAt dry i) :
    let (e, f') := fillLoop g s startIndex 0 left i f
    e = i + left ∧ f'.pen = penAt g s.charAt dry (i + left) ∧
      FillNotes g startIndex f'
        (starts ++ (List.range' i left).filter fun j => Breaks g s.charAt dry j) := by
  induction left generalizing i f starts with
  | zero =>
    rw [List.range'_zero, List.filter_nil, List.append_nil]
    exact ⟨rfl, hpen, h⟩
  | succ left ih =>
    obtain ⟨hpen₁, h₁⟩ := h.fillStep hline hdry hpen
    have hrest := ih h₁ (Nat.le_succ_of_le hdry) hpen₁
    have hsum : i + (left + 1) = i + 1 + left := by omega
    rw [filter_breaks_succ, fillLoop_succ, hsum, ← List.append_assoc]
    exact hrest

/-- What `fillScreenLines` returns when its loop ends at a position. -/
def Fill.result (g : Geometry) (f : Fill) (i : Nat) : FillResult :=
  let current := ringIncrement f.currentScreenLineIndex g.ringGlyphsPerColumn
  { realScreenLinesWritten := min f.screenLinesInWindow g.glyphsPerColumn
    currentScreenLineIndex := current
    lastLineDone := f.toNext
    screenLinesCopy := Function.update f.screenLinesCopy current i
    logicalLineLens := f.logicalLineLens
    reads := f.reads }

/-- The filling is the loop from its start, and what it makes of the end. -/
theorem fillScreenLines_eq (g : Geometry) (s : Screen) (dry startIndex e limit : Nat) :
    fillScreenLines g s dry startIndex e limit =
      (fillLoop g s startIndex limit (e - dry) dry (fillStart s dry startIndex)).2.result g
        (fillLoop g s startIndex limit (e - dry) dry (fillStart s dry startIndex)).1 := rfl

/-- The entries that `fillScreenLines` has written: the screen lines that begin at some positions,
and the end of the last one. -/
structure FillResult.Notes (g : Geometry) (r : FillResult) (starts : List Nat) (last : Nat) :
    Prop where
  ring : RingHolds g.ringGlyphsPerColumn r.screenLinesCopy (starts ++ [last])
  index : r.currentScreenLineIndex = starts.length % g.ringGlyphsPerColumn

/-- The notes of the loop are those of the result. -/
theorem FillNotes.result (h : FillNotes g startIndex f starts) (i : Nat) :
    (f.result g i).Notes g starts i := by
  obtain ⟨lines, hlines, rfl⟩ := h.holds
  have hpos := hlines.pos
  have hcurrent : ringIncrement f.currentScreenLineIndex g.ringGlyphsPerColumn =
      (lines.map Prod.fst).length % g.ringGlyphsPerColumn := by
    rw [hlines.index, ringIncrement_mod, Nat.sub_add_cancel hpos, List.length_map]
  refine ⟨?_, hcurrent⟩
  rw [Fill.result]
  dsimp only
  rw [hcurrent]
  exact hlines.starts.push

/-- Where the screen lines begin that `fillScreenLines` notes. -/
def fillStarts (g : Geometry) (s : Screen) (dry e : Nat) : List Nat :=
  dry :: (List.range' dry (e - dry)).filter fun i => Breaks g s.charAt dry i

/-- The first line is noted. -/
theorem fillNotes_fillStart (g : Geometry) (s : Screen) (dry startIndex : Nat) :
    FillNotes g startIndex (fillStart s dry startIndex) [dry] := by
  refine ⟨⟨[(dry, 0)], fillHolds_fillStart, rfl⟩, ?_⟩
  rw [fillStart, List.countP_singleton]
  by_cases h : startIndex ≤ dry <;> simp [h]

/-- The pen at the start of the parse. -/
theorem pen_fillStart (g : Geometry) (s : Screen) (dry startIndex : Nat) :
    (fillStart s dry startIndex).pen = penAt g s.charAt dry dry :=
  (penAt_of_le le_rfl).symm

/-- The starts are the first line and what some rounds note. -/
theorem fillStarts_add (g : Geometry) (s : Screen) (dry n : Nat) :
    [dry] ++ (List.range' dry n).filter (fun j => Breaks g s.charAt dry j) =
      fillStarts g s dry (dry + n) := by
  rw [fillStarts, Nat.add_sub_cancel_left]
  rfl

/-- The loop from its start, after some rounds. -/
theorem fillLoop_fillStart (hline : 4 ≤ g.glyphsPerLine) (s : Screen) (dry startIndex n : Nat) :
    let (e, f) := fillLoop g s startIndex 0 n dry (fillStart s dry startIndex)
    e = dry + n ∧ f.pen = penAt g s.charAt dry (dry + n) ∧
      FillNotes g startIndex f (fillStarts g s dry (dry + n)) := by
  rw [← fillStarts_add]
  exact (fillNotes_fillStart g s dry startIndex).fillLoop hline n le_rfl
    (pen_fillStart g s dry startIndex)

/-- Without a limit the filling lays out every line of the text. -/
theorem fillScreenLines_layout (hline : 4 ≤ g.glyphsPerLine) (s : Screen) (startIndex : Nat)
    {dry e : Nat} (hdry : dry ≤ e) :
    let r := fillScreenLines g s dry startIndex e 0
    r.Notes g (fillStarts g s dry e) e ∧
      r.realScreenLinesWritten =
        min ((fillStarts g s dry e).countP (startIndex ≤ ·) % 2 ^ 16) g.glyphsPerColumn ∧
      r.lastLineDone = (penAt g s.charAt dry e).toNext := by
  have hloop := fillLoop_fillStart hline s dry startIndex (e - dry)
  rw [Nat.add_sub_cancel' hdry] at hloop
  rw [fillScreenLines_eq]
  generalize fillLoop g s startIndex 0 (e - dry) dry (fillStart s dry startIndex) = r at hloop ⊢
  obtain ⟨i, f⟩ := r
  obtain ⟨rfl, hpen, hnotes⟩ := hloop
  exact ⟨hnotes.result i, congrArg (min · g.glyphsPerColumn) hnotes.count,
    congrArg Pen.toNext hpen⟩

end Fill

/-! ## The screen lines of a text -/

section Starts

variable {g : Geometry} {s : Screen} {stored chunk : List U8} {dry q i : Nat}

/-- The starts are the places where lines begin. -/
theorem mem_screenStarts :
    i ∈ screenStarts g stored q ↔ (q ≤ i ∧ i < stored.length) ∧ Begins g stored i := by
  rw [screenStarts, List.mem_filter, List.mem_range'_1, decide_eq_true_iff]
  refine and_congr_left fun _ => ?_
  omega

/-- The starts rise. -/
theorem screenStarts_sorted : (screenStarts g stored q).Pairwise (· < ·) :=
  (List.pairwise_lt_range').filter _

/-- The screen lines before a position, and those from there on. -/
theorem screenStarts_split (h : q ≤ stored.length) : ∃ before,
    screenStarts g stored 0 = before ++ screenStarts g stored q ∧
      before = (List.range' 0 q).filter fun i => Begins g stored i := by
  have happend : List.range' 0 q ++ List.range' (0 + q) (stored.length - q) = _ :=
    List.range'_append_1
  rw [Nat.zero_add, Nat.add_sub_cancel' h] at happend
  refine ⟨_, ?_, rfl⟩
  rw [screenStarts, screenStarts, Nat.sub_zero, ← happend, List.filter_append]

/-- More text does not change where the earlier lines begin. -/
theorem begins_append (h : i < stored.length) :
    Begins g (stored ++ chunk) i ↔ Begins g stored i := by
  refine or_congr Iff.rfl (breaks_congr (fun j _ hj => ?_) (Nat.zero_le i))
  rw [textAt, textAt, List.getD_append _ _ _ _ (by omega)]

/-- What is stored later does not change the screen lines. -/
theorem screenStarts_append : screenStarts g (stored ++ chunk) 0 =
    screenStarts g stored 0 ++ screenStarts g (stored ++ chunk) stored.length := by
  obtain ⟨before, hsplit, rfl⟩ := screenStarts_split (g := g)
    (show stored.length ≤ (stored ++ chunk).length by rw [List.length_append]; omega)
  rw [hsplit]
  refine congrArg (· ++ _) ?_
  rw [screenStarts, Nat.sub_zero]
  refine List.filter_congr fun i hi => ?_
  have hi := List.mem_range'_1.mp hi
  rw [decide_eq_decide]
  exact begins_append (by omega)

/-- `fillScreenLines` notes the screen lines of the whole text from the first logical line on
that it reaches. -/
theorem fillStarts_eq (hline : 4 ≤ g.glyphsPerLine) (h : Stored s stored)
    (hheld : stored.length ≤ dry + fileBufLen) (hq : LineBegins stored q) (hdry : dry ≤ q)
    (hend : dry < stored.length) (hle : q ≤ stored.length) :
    ∃ before, fillStarts g s dry stored.length = before ++ screenStarts g stored q ∧
      ∀ x ∈ before, x < q := by
  have hchar (i : Nat) (hdry : dry ≤ i) (hi : i < stored.length) :
      s.charAt i = textAt stored i := by
    rw [h.charAt hi (by omega), textAt, List.getD_eq_getElem _ _ hi]
  have hbreaks (i : Nat) (hi : dry ≤ i) (hlt : i < stored.length) :
      Breaks g s.charAt dry i ↔ Breaks g (textAt stored) dry i :=
    breaks_congr (fun j hj hji => hchar j hj (by omega)) hi
  obtain ⟨n, hn⟩ : ∃ n, stored.length - dry = n + 1 := ⟨stored.length - dry - 1, by omega⟩
  have hstarts : fillStarts g s dry stored.length = (List.range' dry (stored.length - dry)).filter
      fun i => i = dry ∨ Breaks g s.charAt dry i := by
    rw [fillStarts, hn, List.range'_succ, List.filter_cons, List.filter_cons,
      if_neg (by simpa using not_breaks_start hline), if_pos (by simp)]
    congr 1
    refine List.filter_congr fun i hi => ?_
    have hi := (List.mem_range'_1.mp hi).1
    simp only [show i ≠ dry by omega, false_or]
  have hsplit : List.range' dry (stored.length - dry) =
      List.range' dry (q - dry) ++ List.range' q (stored.length - q) := by
    have happend : List.range' dry (q - dry) ++ List.range' (dry + (q - dry))
      (stored.length - q) = _ := List.range'_append_1
    rw [Nat.add_sub_cancel' hdry, show q - dry + (stored.length - q) = stored.length - dry by
      omega] at happend
    exact happend.symm
  rw [hstarts, hsplit, List.filter_append]
  refine ⟨_, congrArg (_ ++ ·) (List.filter_congr fun i hi => ?_), fun x hx => ?_⟩
  · have hi := List.mem_range'_1.mp hi
    rw [decide_eq_decide, hbreaks i (by omega) (by omega), breaks_iff_begins hq hdry hi.1,
      begins_iff hq hi.1]
  · have hx := List.mem_range'_1.mp (List.mem_filter.mp hx).1
    omega

end Starts

/-! ## Counting screen lines -/

section Count

variable {g : Geometry} {s : Screen} {text : Nat → U8} {stored : List U8} {dry e i n : Nat}

/-- On a wide screen, a screen line that is broken behind its first character ends in a newline. -/
theorem newline_of_break (hline : 9 ≤ g.glyphsPerLine) {p : Pen} {ch next : U8} {b : Bool}
    (hlen : p.glyphLen = 0) (hnext : p.toNext = false)
    (hbreak : (p.char g ch b).toNext = true ∨ (p.char g ch b).turn.Overflows g next) :
    ch = newline := by
  have hspace (len : Nat) : additionalSpace len ≤ 4 := by
    rw [additionalSpace_eq]
    omega
  by_contra hch
  -- The pen has not moved over more than four glyphs.
  have hshort : (p.char g ch b).toNext = false ∧ (p.char g ch b).glyphLen ≤ 4 := by
    have hp := hspace p.lineLen
    unfold Pen.char
    dsimp only
    rw [if_neg hch, hlen]
    split
    · exact ⟨hnext, by omega⟩
    · split
      · rw [if_pos (by omega)]
        refine ⟨?_, by dsimp only; omega⟩
        have hne : (0 + additionalSpace p.lineLen) % 2 ^ 16 ≠ g.glyphsPerLine := by omega
        simp only [hne, false_and, decide_false]
      · refine ⟨?_, by dsimp only; omega⟩
        have hlt : ¬ g.glyphsPerLine ≤ (0 + 1) % 2 ^ 16 := by omega
        simp only [hnext, hlt, false_and, Bool.false_eq_true, or_self, decide_false]
  rcases hbreak with hbreak | ⟨-, hover⟩
  · rw [hshort.1] at hbreak
    cases hbreak
  · rw [turn_of_not_toNext (ne_true_of_eq_false hshort.1)] at hover
    have hnextSpace := hspace (p.char g ch b).lineLen
    omega

/-- On a wide screen, characters that all begin screen lines are newlines. -/
theorem newline_of_forall_breaks (hline : 9 ≤ g.glyphsPerLine)
    (h : ∀ i, dry < i → i < n → Breaks g text dry i) (hdry : dry ≤ i) (hi : i + 1 < n) :
    text i = newline := by
  have hturn : ∀ i, dry ≤ i → i < n → (penAt g text dry i).turn.glyphLen = 0 := by
    intro i hdry hi
    induction i, hdry using Nat.le_induction with
    | base =>
      rw [penAt_of_le le_rfl]
      rfl
    | succ i hdry ih =>
      have hbreak := h (i + 1) (by omega) hi
      rw [Breaks, penAt_succ hdry] at hbreak
      have hnewline := newline_of_break hline (ih (by omega)) turn_toNext hbreak
      rw [(penAt_turn_of_newline hdry hnewline).2]
      rfl
  have hbreak := h (i + 1) (by omega) hi
  rw [Breaks, penAt_succ hdry] at hbreak
  exact newline_of_break hline (hturn i hdry (by omega)) turn_toNext hbreak

/-- Behind more newlines in a row than lines are held, the oldest line that is held begins behind
the first of them. -/
theorem lt_lineStart_oldestLine (he : e ≤ stored.length) (hlength : dry + maxScrollbackLines < e)
    (h : ∀ i, dry ≤ i → i + 1 < e → stored[i]? = some newline) :
    dry < lineStart stored (oldestLine stored) := by
  by_contra hle
  have hN : maxScrollbackLines = 8192 := rfl
  have hlong := maxScrollbackLines_lt_length stored
  have holdest := (isHeld_oldestLine stored).lt
  -- All of these lines would be held, and be newer than the oldest one.
  have hsubset : List.range' (dry + 1) maxScrollbackLines ⊆
      (heldLines stored).drop (oldestLine stored + 1) := by
    intro x hx
    have hx := List.mem_range'_1.mp hx
    have hbegins : LineBegins stored x := .inr (h (x - 1) (by omega) (by omega))
    obtain ⟨k, hk, rfl⟩ := List.getElem_of_mem (mem_heldLines hbegins (by omega))
    have hstart : lineStart stored k = (heldLines stored)[k] := List.getD_eq_getElem _ _ hk
    have hnewer : oldestLine stored < k := by
      by_contra hge
      have hmono := lineStart_mono (not_lt.mp hge) holdest
      omega
    refine List.mem_iff_getElem?.mpr ⟨k - (oldestLine stored + 1), ?_⟩
    rw [List.getElem?_drop, Nat.add_sub_cancel' hnewer, List.getElem?_eq_getElem hk]
  have hcount := List.Nodup.length_le_of_subset List.nodup_range' hsubset
  rw [List.length_range', List.length_drop, oldestLine] at hcount
  omega

/-- `fillScreenLines` does not count past its 16 bits. -/
theorem length_fillStarts_lt (hg : g.Admitted) (h : Stored s stored) {needed : Nat}
    (he : e ≤ stored.length) (hdry : parseStart g stored e needed ≤ dry) (hend : dry < e)
    (hheld : stored.length ≤ dry + fileBufLen) (hline : 4 ≤ g.glyphsPerLine) :
    (fillStarts g s dry e).length < 2 ^ 16 := by
  have hchars := hg.chars
  have hcolumn := hg.column
  have hfull : fileBufLen = 2 ^ 16 := rfl
  have hge := le_parseStart g stored e needed
  obtain ⟨n, hn⟩ : ∃ n, e - dry = n + 1 := ⟨e - dry - 1, by omega⟩
  have hstarts : fillStarts g s dry e = dry :: (List.range' (dry + 1) n).filter
      fun i => Breaks g s.charAt dry i := by
    rw [fillStarts, hn, List.range'_succ, List.filter_cons,
      if_neg (by simpa using not_breaks_start hline)]
  have hcount := List.length_filter_le (fun i => decide (Breaks g s.charAt dry i))
    (List.range' (dry + 1) n)
  rw [List.length_range'] at hcount
  rw [hstarts, List.length_cons]
  by_contra hlong
  -- Every one of all characters that the buffer can hold begins a screen line.
  have hall : e = dry + 2 ^ 16 := by omega
  have hsame : (List.range' (dry + 1) n).filter (fun i => Breaks g s.charAt dry i) =
      List.range' (dry + 1) n := by
    refine List.filter_sublist.eq_of_length ?_
    rw [List.length_range']
    omega
  have hevery := List.filter_eq_self.mp hsame
  have hwide : 9 ≤ g.glyphsPerLine := by
    have hmax : 2 ^ 15 ≤ g.glyphsPerLine * g.glyphsPerColumn := by
      rw [Geometry.maxCharsToProcess] at hge
      omega
    by_contra hnarrow
    have hle := Nat.mul_le_mul (show g.glyphsPerLine ≤ 8 by omega)
      (show g.glyphsPerColumn ≤ 4095 by omega)
    omega
  have hnewline (i : Nat) (hdry : dry ≤ i) (hi : i + 1 < e) : stored[i]? = some newline := by
    have hbreaks (i : Nat) (hpos : dry < i) (hlt : i < e) :
        Breaks g s.charAt dry i :=
      of_decide_eq_true (hevery i (List.mem_range'_1.mpr (by omega)))
    have hch := newline_of_forall_breaks hwide hbreaks hdry hi
    rw [h.charAt (show i < stored.length by omega) (by omega)] at hch
    rw [List.getElem?_eq_getElem (by omega), hch]
  have hN : maxScrollbackLines = 8192 := rfl
  have hnewer := lt_lineStart_oldestLine he (by omega) hnewline
  have hparse := lineStart_oldestLine_le (lt_of_le_of_lt hdry hend)
  omega

end Count

end Homegrown.Freestanding
