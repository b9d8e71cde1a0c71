import Homegrown.Freestanding.Limit

/-!
# Drawing a layout

`drawLines` breaks screen lines like `fillScreenLines` does, with variables of its own, from the
beginning of a screen line on. As long as it does not stop it has the pen of the layout, and paints
every printable character in the row and the column where the layout has it. Where the last row
ends within a tab, neither of them stops, and both leave out tabs until the row is done.
-/

namespace Homegrown.Freestanding

/-! ## Rows -/

/-- The character has a glyph. -/
def Printable (ch : U8) : Prop := ch ≠ 0 ∧ ch ≠ newline ∧ ch ≠ tab

instance (ch : U8) : Decidable (Printable ch) := inferInstanceAs (Decidable (_ ∧ _ ∧ _))

/-- The printable characters between two positions, painted in one row. -/
def rowGlyphs (text : Nat → U8) (column : Nat → Nat) (row start stop : Nat) : List Glyph :=
  ((List.range' start (stop - start)).filter fun i => Printable (text i)).map fun i =>
    ⟨i, row, column i⟩

/-- Screen lines that begin at some positions, painted in a row each. -/
def lineGlyphs (text : Nat → U8) (column : Nat → Nat) : Nat → List Nat → Nat → List Glyph
  | _, [], _ => []
  | row, start :: starts, stop =>
    rowGlyphs text column row start (starts.headD stop) ++
      lineGlyphs text column (row + 1) starts stop

section Rows

variable {text : Nat → U8} {column column' : Nat → Nat} {row start stop i left : Nat}
  {starts : List Nat}

theorem rowGlyphs_self : rowGlyphs text column row start start = [] := by
  rw [rowGlyphs, Nat.sub_self, List.range'_zero, List.filter_nil, List.map_nil]

/-- The glyphs of a row, from its first character on. -/
theorem rowGlyphs_succ (h : start < stop) : rowGlyphs text column row start stop =
    (if Printable (text start) then [⟨start, row, column start⟩] else []) ++
      rowGlyphs text column row (start + 1) stop := by
  obtain ⟨n, hn⟩ : ∃ n, stop - start = n + 1 := ⟨stop - start - 1, by omega⟩
  rw [rowGlyphs, rowGlyphs, hn, List.range'_succ, List.filter_cons,
    show stop - (start + 1) = n by omega]
  by_cases hprint : Printable (text start) <;> simp [hprint]

/-- A row in two parts. -/
theorem rowGlyphs_append (hstart : start ≤ i) (hstop : i ≤ stop) :
    rowGlyphs text column row start i ++ rowGlyphs text column row i stop =
      rowGlyphs text column row start stop := by
  have happend : List.range' start (i - start) ++ List.range' (start + (i - start)) (stop - i) =
      List.range' start (i - start + (stop - i)) := List.range'_append_1
  rw [Nat.add_sub_cancel' hstart, show i - start + (stop - i) = stop - start by omega] at happend
  rw [rowGlyphs, rowGlyphs, rowGlyphs, ← happend, List.filter_append, List.map_append]

/-- The last row goes on. -/
theorem lineGlyphs_extend (hne : starts ≠ []) (hle : ∀ x ∈ starts, x ≤ i) (hstop : i ≤ stop) :
    lineGlyphs text column row starts i ++
        rowGlyphs text column (row + (starts.length - 1)) i stop =
      lineGlyphs text column row starts stop := by
  induction starts generalizing row with
  | nil => exact absurd rfl hne
  | cons x starts ih =>
    cases starts with
    | nil =>
      rw [lineGlyphs, lineGlyphs, lineGlyphs, lineGlyphs, List.append_nil, List.append_nil]
      exact rowGlyphs_append (hle x List.mem_cons_self) hstop
    | cons y starts =>
      have hrest := @ih (row + 1) (List.cons_ne_nil y starts)
        fun z hz => hle z (List.mem_cons_of_mem x hz)
      have hcons (stop : Nat) : lineGlyphs text column row (x :: y :: starts) stop =
          rowGlyphs text column row x y ++
            lineGlyphs text column (row + 1) (y :: starts) stop := rfl
      have hrow : row + ((x :: y :: starts).length - 1) =
          row + 1 + ((y :: starts).length - 1) := by
        rw [List.length_cons, List.length_cons]
        omega
      rw [hcons, hcons, List.append_assoc, hrow, hrest]

/-- The first character of the first screen line. -/
theorem lineGlyphs_succ (h : i < starts.headD stop) :
    lineGlyphs text column row (i :: starts) stop =
    (if Printable (text i) then [⟨i, row, column i⟩] else []) ++
      lineGlyphs text column row ((i + 1) :: starts) stop := by
  rw [lineGlyphs, lineGlyphs, rowGlyphs_succ h, List.append_assoc]

/-- The next place with a property lies behind this one. -/
theorem lt_headD_filter (p : Nat → Bool) (i n : Nat) :
    i < ((List.range' (i + 1) n).filter p).headD (i + 1 + n) := by
  have hbehind : ∀ x ∈ (List.range' (i + 1) n).filter p, i < x := fun x hx =>
    (List.mem_range'_1.mp (List.mem_filter.mp hx).1).1
  cases hlines : (List.range' (i + 1) n).filter p with
  | nil => exact Nat.lt_of_lt_of_le (Nat.lt_succ_self i) (Nat.le_add_right _ _)
  | cons x lines => exact hbehind x (by rw [hlines]; exact List.mem_cons_self)

/-- Row by row. -/
theorem lineGlyphs_eq (text : Nat → U8) (column : Nat → Nat) (row : Nat) (starts : List Nat)
    (stop : Nat) : lineGlyphs text column row starts stop =
      (List.range starts.length).flatMap fun j => rowGlyphs text column (row + j)
        ((starts ++ [stop]).getD j 0) ((starts ++ [stop]).getD (j + 1) 0) := by
  induction starts generalizing row with
  | nil => rfl
  | cons x starts ih =>
    have hhead : starts.headD stop = (starts ++ [stop]).getD 0 0 := by cases starts <;> rfl
    rw [lineGlyphs, ih, List.length_cons, List.range_succ_eq_map, List.flatMap_cons,
      List.flatMap_map, hhead]
    congr 1
    refine List.flatMap_congr fun j _ => ?_
    rw [Nat.succ_eq_add_one, Nat.add_assoc, Nat.add_comm 1 j]
    rfl

end Rows

/-! ## The pen of a layout -/

section Pen

variable {g : Geometry} {s : Screen} {f : Fill} {startIndex dry i : Nat}

/-- A round of the outer loop keeps the line within the glyphs it has room for. -/
theorem Fill.Fits.fillStep (hline : 4 ≤ g.glyphsPerLine) (hbig : g.glyphsPerLine + 4 < 2 ^ 16)
    (h : f.Fits g s i) : (fillStep g s startIndex i f).Fits g s (i + 1) := by
  unfold Freestanding.fillStep
  dsimp only
  split
  · have hempty : (0 : Nat) ≠ g.glyphsPerLine := by omega
    exact Fill.Fits.fillChar hline hbig ⟨Nat.zero_le _, fun heq => absurd heq hempty⟩
      Bool.false_ne_true
  · rename_i hnext
    exact Fill.Fits.fillChar hline hbig ⟨h.le, h.full⟩ hnext

/-- No screen line of a layout gets too long, and one that is full ends. -/
theorem penAt_fits (hline : 4 ≤ g.glyphsPerLine) (hbig : g.glyphsPerLine + 4 < 2 ^ 16)
    (hdry : dry ≤ i) : (penAt g s.charAt dry i).glyphLen ≤ g.glyphsPerLine ∧
      ((penAt g s.charAt dry i).glyphLen = g.glyphsPerLine →
        (penAt g s.charAt dry i).toNext = true ∨ s.charAt i = newline) := by
  obtain ⟨f, starts, -, hpen, hfits⟩ : ∃ f starts, FillNotes g 0 f starts ∧
      f.pen = penAt g s.charAt dry i ∧ f.Fits g s i := by
    induction i, hdry using Nat.le_induction with
    | base =>
      refine ⟨_, _, fillNotes_fillStart g s dry 0, pen_fillStart g s dry 0, Nat.zero_le _,
        fun heq => ?_⟩
      exact absurd (show (0 : Nat) = g.glyphsPerLine from heq) (by omega)
    | succ i hdry ih =>
      obtain ⟨f, starts, hnotes, hpen, hfits⟩ := ih
      obtain ⟨hpen', hnotes'⟩ := hnotes.fillStep hline hdry hpen
      exact ⟨_, _, hnotes', hpen', hfits.fillStep hline hbig⟩
  rw [← hpen]
  exact ⟨hfits.le, hfits.full⟩

end Pen

/-! ## Drawing along the pen -/

/-- The pen of `drawLines`. -/
def Draw.pen (d : Draw) : Pen := ⟨d.currentGlyphLen, d.currentLogicalLineLen, d.toNext⟩

/-- The place of the pen on the screen. -/
structure Draw.Placed (rowNumber : Nat) (d : Draw) : Prop where
  row : d.row = rowNumber + d.currentScreenLines
  column : d.column = d.currentGlyphLen

section Draw

variable {g : Geometry} {s : Screen} {d : Draw} {screenLinesToDraw rowNumber dry i left : Nat}

/-- A character that does not end the last row is drawn where the layout has it. -/
theorem Draw.Placed.drawChar (hbig : g.glyphsPerLine + 4 < 2 ^ 16) (h : d.Placed rowNumber)
    (hfits : d.currentGlyphLen ≤ g.glyphsPerLine) (hdraw : screenLinesToDraw < 2 ^ 16)
    (hroom : d.pen.Overflows g (s.charAt i) → d.currentScreenLines + 1 < screenLinesToDraw) :
    let d' := drawChar g s screenLinesToDraw rowNumber i d
    d'.Placed rowNumber ∧ d'.pen = d.pen.char g (s.charAt i) (s.charAt (i + 1) = newline) ∧
      d'.currentScreenLines = d.currentScreenLines +
        (if d.pen.Overflows g (s.charAt i) then 1 else 0) ∧
      d'.painted = d.painted ++ if Printable (s.charAt i) then [⟨i, d.row, d.column⟩] else [] := by
  have hspace := additionalSpace_eq d.currentLogicalLineLen
  have hrow := h.row
  have hcolumn := h.column
  have hsame (hno : ¬ d.pen.Overflows g (s.charAt i)) : d.currentScreenLines =
      d.currentScreenLines + if d.pen.Overflows g (s.charAt i) then 1 else 0 := by
    rw [if_neg hno, Nat.add_zero]
  have hblank (hno : ¬ Printable (s.charAt i)) : d.painted =
      d.painted ++ if Printable (s.charAt i) then [⟨i, d.row, d.column⟩] else [] := by
    rw [if_neg hno, List.append_nil]
  unfold Freestanding.drawChar Pen.char
  dsimp only
  by_cases hzero : s.charAt i = 0
  · rw [if_pos hzero, if_pos hzero]
    refine ⟨h, rfl, hsame fun hover => ?_, hblank fun hprint => hprint.1 hzero⟩
    exact absurd (hover.1.symm.trans hzero) (by decide)
  rw [if_neg hzero, if_neg hzero]
  by_cases hnewline : s.charAt i = newline
  · rw [if_pos hnewline, if_pos hnewline]
    refine ⟨⟨hrow, hcolumn⟩, rfl, hsame fun hover => ?_, hblank fun hprint => hprint.2.1 hnewline⟩
    exact absurd (hover.1.symm.trans hnewline) (by decide)
  rw [if_neg hnewline, if_neg hnewline]
  by_cases htab : s.charAt i = tab
  · rw [if_pos htab, if_pos htab]
    have hno : ¬ Printable (s.charAt i) := fun hprint => hprint.2.2 htab
    by_cases hlong : (d.currentGlyphLen + additionalSpace d.currentLogicalLineLen) % 2 ^ 16 ≤
        g.glyphsPerLine
    · rw [if_pos hlong, if_pos (show (d.pen.glyphLen + additionalSpace d.pen.lineLen) % 2 ^ 16 ≤
        g.glyphsPerLine from hlong)]
      refine ⟨⟨hrow, ?_⟩, ?_, hsame fun hover => absurd hover.2 (not_lt.mpr hlong), hblank hno⟩
      · dsimp only
        omega
      · have heq : g.glyphsPerLine ≤
            (d.currentGlyphLen + additionalSpace d.currentLogicalLineLen) % 2 ^ 16 ↔
              (d.currentGlyphLen + additionalSpace d.currentLogicalLineLen) % 2 ^ 16 =
                g.glyphsPerLine := by
          omega
        refine Pen.ext rfl rfl (decide_eq_decide.mpr (and_congr heq ?_))
        simp
    · have hover : d.pen.Overflows g (s.charAt i) := ⟨htab, not_le.mp hlong⟩
      have hnext := hroom hover
      rw [if_neg hlong, if_neg (show ¬ (d.pen.glyphLen + additionalSpace d.pen.lineLen) % 2 ^ 16 ≤
        g.glyphsPerLine from hlong), Nat.mod_eq_of_lt (show d.currentScreenLines + 1 < 2 ^ 16 by
          omega), if_neg (not_le.mpr hnext)]
      refine ⟨⟨rfl, rfl⟩, ?_, by rw [if_pos hover], hblank hno⟩
      rfl
  · rw [if_neg htab, if_neg htab]
    refine ⟨⟨hrow, ?_⟩, ?_, hsame fun hover => htab hover.1, ?_⟩
    · dsimp only
      omega
    · simp [Draw.pen]
    · rw [if_pos (show Printable (s.charAt i) from ⟨hzero, hnewline, htab⟩)]

/-- So is one that is drawn after the pen has turned. -/
theorem Draw.Placed.drawTurned {d₁ : Draw} (hline : 4 ≤ g.glyphsPerLine)
    (hbig : g.glyphsPerLine + 4 < 2 ^ 16) (h : d₁.Placed rowNumber) (hdry : dry ≤ i)
    (hpen : d.pen = penAt g s.charAt dry i) (hdraw : screenLinesToDraw < 2 ^ 16)
    (hturn : d₁.pen = d.pen.turn) (hpainted : d₁.painted = d.painted)
    (hlines : d₁.currentScreenLines + (if d₁.pen.Overflows g (s.charAt i) then 1 else 0) =
      d.currentScreenLines + if Breaks g s.charAt dry i then 1 else 0)
    (hroom : d₁.pen.Overflows g (s.charAt i) → d₁.currentScreenLines + 1 < screenLinesToDraw) :
    let d' := Freestanding.drawChar g s screenLinesToDraw rowNumber i d₁
    d'.Placed rowNumber ∧ d'.pen = penAt g s.charAt dry (i + 1) ∧
      d'.currentScreenLines = d.currentScreenLines +
        (if Breaks g s.charAt dry i then 1 else 0) ∧
      d'.painted = d.painted ++ (if Printable (s.charAt i) then
        [⟨i, d'.row, (penAt g s.charAt dry i).turn.glyphLen⟩] else []) := by
  have hfits : d₁.currentGlyphLen ≤ g.glyphsPerLine := by
    have hglyph : d₁.currentGlyphLen = (penAt g s.charAt dry i).turn.glyphLen := by
      rw [← hpen]
      exact congrArg Pen.glyphLen hturn
    rw [hglyph, Pen.turn]
    split
    · exact Nat.zero_le _
    · exact (penAt_fits hline hbig hdry).1
  obtain ⟨hplaced', hpen', hlines', hpainted'⟩ := h.drawChar hbig hfits hdraw hroom
  refine ⟨hplaced', ?_, hlines'.trans hlines, ?_⟩
  · rw [hpen', hturn, hpen, penAt_succ hdry]
  · rw [hpainted', hpainted]
    by_cases hprint : Printable (s.charAt i)
    · have hno : ¬ d₁.pen.Overflows g (s.charAt i) := fun hover => hprint.2.2 hover.1
      rw [if_neg hno, Nat.add_zero] at hlines'
      rw [if_pos hprint, if_pos hprint, hplaced'.row, hlines', ← h.row, h.column, ← hpen, ← hturn]
      rfl
    · rw [if_neg hprint, if_neg hprint]

/-- A round of `drawLines` that does not end the last row. -/
theorem Draw.Placed.drawLoop_succ (hline : 4 ≤ g.glyphsPerLine)
    (hbig : g.glyphsPerLine + 4 < 2 ^ 16) (h : d.Placed rowNumber) (hdry : dry ≤ i)
    (hpen : d.pen = penAt g s.charAt dry i) (hdraw : screenLinesToDraw < 2 ^ 16)
    (hroom : Breaks g s.charAt dry i → d.currentScreenLines + 1 < screenLinesToDraw) :
    ∃ d' : Draw, d'.Placed rowNumber ∧ d'.pen = penAt g s.charAt dry (i + 1) ∧
      d'.currentScreenLines = d.currentScreenLines +
        (if Breaks g s.charAt dry i then 1 else 0) ∧
      d'.painted = d.painted ++ (if Printable (s.charAt i) then
        [⟨i, d'.row, (penAt g s.charAt dry i).turn.glyphLen⟩] else []) ∧
      ∀ left, drawLoop g s screenLinesToDraw rowNumber (left + 1) i d =
        drawLoop g s screenLinesToDraw rowNumber left (i + 1) d' := by
  have hbreaks : Breaks g s.charAt dry i ↔
      d.toNext = true ∨ d.pen.turn.Overflows g (s.charAt i) := by
    rw [Breaks, ← hpen]
    exact Iff.rfl
  by_cases hnext : d.toNext = true
  · have hbreak := hbreaks.mpr (.inl hnext)
    have hlines := hroom hbreak
    have hno : ¬ Pen.Overflows g (s.charAt i) ⟨0, d.currentLogicalLineLen, false⟩ :=
      not_overflows hline rfl
    have hturned : Draw.Placed rowNumber
        { d with
          reads := d.reads ++ [i]
          currentScreenLines := d.currentScreenLines + 1
          row := rowNumber + (d.currentScreenLines + 1)
          column := 0
          currentGlyphLen := 0
          toNext := false } := ⟨rfl, rfl⟩
    obtain ⟨hplaced, hpen', hlines', hpainted⟩ := hturned.drawTurned hline hbig hdry hpen hdraw
      (turn_of_toNext (p := d.pen) hnext).symm rfl
      (by rw [if_pos hbreak]; exact congrArg (d.currentScreenLines + 1 + ·) (if_neg hno))
      (fun hover => absurd hover hno)
    refine ⟨_, hplaced, hpen', hlines', hpainted, fun left => ?_⟩
    rw [drawLoop]
    dsimp only
    rw [if_pos hnext, Nat.mod_eq_of_lt (show d.currentScreenLines + 1 < 2 ^ 16 by omega),
      if_neg (not_le.mpr hlines)]
  · have hturn : d.pen.turn = d.pen := turn_of_not_toNext hnext
    have hover_iff : d.pen.Overflows g (s.charAt i) ↔ Breaks g s.charAt dry i := by
      rw [hbreaks, hturn]
      exact ⟨.inr, fun h => h.resolve_left hnext⟩
    have hread : Draw.Placed rowNumber { d with reads := d.reads ++ [i] } := ⟨h.row, h.column⟩
    obtain ⟨hplaced, hpen', hlines', hpainted⟩ := hread.drawTurned hline hbig hdry hpen hdraw
      hturn.symm rfl
      (congrArg (d.currentScreenLines + ·) (if_congr hover_iff rfl rfl))
      (fun hover => hroom (hover_iff.mp hover))
    refine ⟨_, hplaced, hpen', hlines', hpainted, fun left => ?_⟩
    rw [drawLoop]
    dsimp only
    rw [if_neg hnext]

/-- While there is room for the screen lines of the layout, `drawLines` paints them. -/
theorem Draw.Placed.drawLoop (hline : 4 ≤ g.glyphsPerLine) (hbig : g.glyphsPerLine + 4 < 2 ^ 16)
    {column : Nat → Nat} (n left : Nat) (h : d.Placed rowNumber) (hdry : dry ≤ i)
    (hpen : d.pen = penAt g s.charAt dry i) (hdraw : screenLinesToDraw < 2 ^ 16)
    (hroom : ((List.range' i n).filter fun j => Breaks g s.charAt dry j) ≠ [] →
      d.currentScreenLines + ((List.range' i n).filter fun j => Breaks g s.charAt dry j).length <
        screenLinesToDraw)
    (hcolumn : ∀ j, i ≤ j → j < i + n → column j = (penAt g s.charAt dry j).turn.glyphLen) :
    let breaks := (List.range' i n).filter fun j => Breaks g s.charAt dry j
    ∃ d' : Draw, d'.Placed rowNumber ∧ d'.pen = penAt g s.charAt dry (i + n) ∧
      d'.currentScreenLines = d.currentScreenLines + breaks.length ∧
      d'.painted = d.painted ++ lineGlyphs s.charAt column d.row (i :: breaks) (i + n) ∧
      Freestanding.drawLoop g s screenLinesToDraw rowNumber (n + left) i d =
        Freestanding.drawLoop g s screenLinesToDraw rowNumber left (i + n) d' := by
  induction n generalizing i d with
  | zero =>
    refine ⟨d, h, hpen, rfl, ?_, by rw [Nat.zero_add, Nat.add_zero]⟩
    rw [List.range'_zero, List.filter_nil, lineGlyphs, lineGlyphs, List.append_nil]
    exact (List.append_nil _).symm.trans (congrArg (d.painted ++ ·) rowGlyphs_self.symm)
  | succ n ih =>
    rw [filter_breaks_succ, List.length_append] at hroom
    have hfirst : Breaks g s.charAt dry i → d.currentScreenLines + 1 < screenLinesToDraw := by
      intro hbreak
      rw [if_pos hbreak, List.length_singleton] at hroom
      have hroom := hroom (List.cons_ne_nil _ _)
      omega
    obtain ⟨d₁, hplaced₁, hpen₁, hlines₁, hpainted₁, hround⟩ :=
      h.drawLoop_succ hline hbig hdry hpen hdraw hfirst
    have hcount : (if Breaks g s.charAt dry i then [i] else []).length =
        if Breaks g s.charAt dry i then 1 else 0 := by
      split <;> rfl
    obtain ⟨d', hplaced, hpen', hlines, hpainted, hrest⟩ := ih hplaced₁
      (show dry ≤ i + 1 by omega) hpen₁ (fun hne => by
        have hroom := hroom (List.append_ne_nil_of_right_ne_nil _ hne)
        omega) (fun j hj hlt => hcolumn j (by omega) (by omega))
    have hsum : i + (n + 1) = i + 1 + n := by omega
    refine ⟨d', hplaced, by rw [hsum]; exact hpen', ?_, ?_, ?_⟩
    · rw [filter_breaks_succ, List.length_append]
      omega
    · rw [hpainted, hpainted₁, List.append_assoc, filter_breaks_succ, hsum,
        ← hcolumn i le_rfl (by omega)]
      congr 1
      rw [← lineGlyphs_succ (lt_headD_filter _ i n), hplaced₁.row, hlines₁, h.row]
      split
      · rw [List.singleton_append, lineGlyphs]
        exact (List.nil_append _).symm.trans (congrArg (· ++ _) rowGlyphs_self.symm)
      · rfl
    · rw [Nat.add_right_comm, hround, hrest, hsum]

/-- The glyphs of the logical line that come before a screen line, with those of the tab that it
begins in. -/
def lenAt (g : Geometry) (text : Nat → U8) (dry i : Nat) : Nat :=
  let p := penAt g text dry i
  if p.turn.Overflows g (text i) then p.lineLen + extraSpacePreviousLine g p.glyphLen
  else p.lineLen

/-- A screen line may begin at a position of a layout. -/
def StartsLine (g : Geometry) (text : Nat → U8) (dry i : Nat) : Prop :=
  i = dry ∨ Breaks g text dry i

/-- From the beginning of a screen line on, the pen of the layout comes out of a new one. -/
theorem StartsLine.char (hline : 4 ≤ g.glyphsPerLine) (hbig : g.glyphsPerLine + 4 < 2 ^ 16)
    (h : StartsLine g s.charAt dry i) (hdry : dry ≤ i) :
    (⟨0, lenAt g s.charAt dry i, false⟩ : Pen).char g (s.charAt i) (s.charAt (i + 1) = newline) =
        penAt g s.charAt dry (i + 1) ∧
      (Printable (s.charAt i) → (penAt g s.charAt dry i).turn.glyphLen = 0) := by
  obtain ⟨hle, hfull⟩ := penAt_fits (s := s) hline hbig hdry
  rw [penAt_succ hdry, lenAt]
  by_cases hover : (penAt g s.charAt dry i).turn.Overflows g (s.charAt i)
  · have hnext : ¬ (penAt g s.charAt dry i).toNext = true := by
      intro hnext
      rw [turn_of_toNext hnext] at hover
      exact not_overflows hline rfl hover
    rw [if_pos hover]
    rw [turn_of_not_toNext hnext] at hover ⊢
    generalize penAt g s.charAt dry i = p at *
    obtain ⟨htab, hlong⟩ := hover
    refine ⟨?_, fun hprint => absurd htab hprint.2.2⟩
    have hspace := additionalSpace_eq p.lineLen
    have hlt : p.glyphLen < g.glyphsPerLine := by
      refine lt_of_le_of_ne hle fun heq => ?_
      rcases hfull heq with hdone | hnewline
      · exact hnext hdone
      · exact absurd (htab.symm.trans hnewline) (by decide)
    have hextra := extraSpacePreviousLine_eq (g := g) hle (by omega)
    have hrest := additionalSpace_eq (p.lineLen + extraSpacePreviousLine g p.glyphLen)
    have hsize : additionalSpace (p.lineLen + extraSpacePreviousLine g p.glyphLen) +
        extraSpacePreviousLine g p.glyphLen = additionalSpace p.lineLen := by
      omega
    have hshort : (0 + additionalSpace (p.lineLen + extraSpacePreviousLine g p.glyphLen)) %
        2 ^ 16 < g.glyphsPerLine := by
      omega
    have hzero : ¬ tab = (0 : U8) := by decide
    have hnewline : ¬ tab = newline := by decide
    rw [htab]
    unfold Pen.char
    dsimp only
    rw [if_neg hzero, if_neg hzero, if_neg hnewline, if_neg hnewline, if_pos rfl, if_pos rfl,
      if_pos hshort.le, if_neg (not_le.mpr hlong)]
    refine Pen.ext ?_ ?_ ?_
    · dsimp only
      omega
    · dsimp only
      omega
    · dsimp only
      rw [eq_false_of_ne_true hnext]
      exact decide_eq_false fun hsame => hshort.ne hsame.1
  · rw [if_neg hover]
    have hturn : (penAt g s.charAt dry i).turn = ⟨0, (penAt g s.charAt dry i).lineLen, false⟩ := by
      rcases h with rfl | hbreak
      · rw [penAt_of_le le_rfl]
        rfl
      · exact turn_of_toNext (hbreak.resolve_right hover)
    rw [hturn]
    exact ⟨rfl, fun _ => rfl⟩

/-- The screen lines that begin behind a position. -/
def breaksBehind (g : Geometry) (text : Nat → U8) (dry i stop : Nat) : List Nat :=
  (List.range' (i + 1) (stop - (i + 1))).filter fun j => Breaks g text dry j

/-- The variables of `drawLines` before its loop. -/
def drawStart (currentLogicalLineLen rowNumber : Nat) : Draw where
  currentScreenLines := 0
  row := rowNumber
  column := 0
  currentGlyphLen := 0
  currentLogicalLineLen
  toNext := false
  painted := []
  reads := []

/-- Drawing lines is the loop over their characters from the first line on. -/
theorem drawLines_eq (g : Geometry) (s : Screen) (startIndex len : Nat) :
    drawLines g s startIndex screenLinesToDraw len rowNumber =
      drawLoop g s screenLinesToDraw rowNumber (s.charCount - s.screenLines startIndex)
        (s.screenLines startIndex) (drawStart len rowNumber) := rfl

/-- `drawLines` paints the screen lines from one of them on, up to the one that it would end
before. -/
theorem drawLoop_follows (hline : 4 ≤ g.glyphsPerLine) (hbig : g.glyphsPerLine + 4 < 2 ^ 16)
    {column : Nat → Nat} {start stop : Nat} (hstart : StartsLine g s.charAt dry start)
    (hdry : dry ≤ start) (hlt : start < stop) (hstop : stop ≤ s.charCount)
    (hdraw : screenLinesToDraw < 2 ^ 16)
    (hroom : (breaksBehind g s.charAt dry start stop).length < screenLinesToDraw)
    (hcolumn : ∀ j, start ≤ j → j < stop → column j = (penAt g s.charAt dry j).turn.glyphLen) :
    ∃ d : Draw, d.Placed rowNumber ∧ d.pen = penAt g s.charAt dry stop ∧
      d.currentScreenLines = (breaksBehind g s.charAt dry start stop).length ∧
      d.painted = lineGlyphs s.charAt column rowNumber
        (start :: breaksBehind g s.charAt dry start stop) stop ∧
      drawLoop g s screenLinesToDraw rowNumber (s.charCount - start) start
          (drawStart (lenAt g s.charAt dry start) rowNumber) =
        drawLoop g s screenLinesToDraw rowNumber (s.charCount - stop) stop d := by
  obtain ⟨n, rfl⟩ : ∃ n, stop = start + 1 + n := ⟨stop - (start + 1), by omega⟩
  obtain ⟨hpen, hfirst⟩ := hstart.char hline hbig hdry
  have hno : ¬ Pen.Overflows g (s.charAt start) ⟨0, lenAt g s.charAt dry start, false⟩ :=
    not_overflows hline rfl
  have hplaced : Draw.Placed rowNumber
    { drawStart (lenAt g s.charAt dry start) rowNumber with reads := [] ++ [start] } := ⟨rfl, rfl⟩
  obtain ⟨hplaced₁, hpen₁, hlines₁, hpainted₁⟩ := hplaced.drawChar hbig (Nat.zero_le _) hdraw
    fun hover => absurd hover hno
  have hround (left : Nat) : drawLoop g s screenLinesToDraw rowNumber (left + 1) start
      (drawStart (lenAt g s.charAt dry start) rowNumber) =
        drawLoop g s screenLinesToDraw rowNumber left (start + 1)
          (drawChar g s screenLinesToDraw rowNumber start
            { drawStart (lenAt g s.charAt dry start) rowNumber with reads := [] ++ [start] }) := by
    rw [drawLoop]
    exact if_neg Bool.false_ne_true
  generalize drawChar g s screenLinesToDraw rowNumber start
    { drawStart (lenAt g s.charAt dry start) rowNumber with reads := [] ++ [start] } = d₁ at *
  have hlines₁ : d₁.currentScreenLines = 0 := hlines₁.trans (congrArg (0 + ·) (if_neg hno))
  have hpen₁ : d₁.pen = penAt g s.charAt dry (start + 1) := hpen₁.trans hpen
  rw [breaksBehind, Nat.add_sub_cancel_left] at hroom ⊢
  obtain ⟨d, hplaced, hpen, hlines, hpainted, hrest⟩ := hplaced₁.drawLoop hline hbig
    n (s.charCount - (start + 1 + n)) (show dry ≤ start + 1 by omega) hpen₁ hdraw
    (fun _ => by omega) (fun j hj hlt => hcolumn j (by omega) hlt)
  refine ⟨d, hplaced, hpen, by omega, ?_, ?_⟩
  · have hcell : (if Printable (s.charAt start) then [Glyph.mk start rowNumber 0] else []) =
        if Printable (s.charAt start) then [⟨start, rowNumber, column start⟩] else [] := by
      split
      · rename_i hprint
        rw [hcolumn start le_rfl (by omega), hfirst hprint]
      · rfl
    rw [hpainted, hpainted₁, lineGlyphs_succ (lt_headD_filter _ start n), ← hcell, hplaced₁.row,
      hlines₁]
    rfl
  · rw [show s.charCount - start = n + (s.charCount - (start + 1 + n)) + 1 by omega, hround, hrest]

end Draw

/-! ## The cases of a character -/

section Cases

variable {g : Geometry} {s : Screen} {f : Fill} {d : Draw}
  {screenLinesToDraw rowNumber startIndex limit i : Nat}

/-- A newline ends the row behind it. -/
theorem fillChar_newline (h : s.charAt i = newline) : fillChar g s startIndex limit i f =
    { f with toNext := true, currentLogicalLineLen := 0 } := by
  rw [fillChar, if_neg (by rw [h]; decide), if_pos h]

/-- So it does for `drawLines`. -/
theorem drawChar_newline (h : s.charAt i = newline) :
    drawChar g s screenLinesToDraw rowNumber i d =
      { d with toNext := true, currentLogicalLineLen := 0 } := by
  rw [drawChar, if_neg (by rw [h]; decide), if_pos h]

/-- A character with a glyph takes a cell. -/
theorem fillChar_printable (h : Printable (s.charAt i)) : fillChar g s startIndex limit i f =
    { f with
      currentGlyphLen := (f.currentGlyphLen + 1) % 2 ^ 16
      currentLogicalLineLen := f.currentLogicalLineLen + 1
      toNext := f.toNext ∨ (g.glyphsPerLine ≤ (f.currentGlyphLen + 1) % 2 ^ 16 ∧
        s.charAt (i + 1) ≠ newline) } := by
  rw [fillChar, if_neg h.1, if_neg h.2.1, if_neg h.2.2]

/-- It is painted there. -/
theorem drawChar_printable (h : Printable (s.charAt i)) :
    drawChar g s screenLinesToDraw rowNumber i d =
      { d with
        painted := d.painted ++ [⟨i, d.row, d.column⟩]
        column := d.column + 1
        currentGlyphLen := (d.currentGlyphLen + 1) % 2 ^ 16
        currentLogicalLineLen := d.currentLogicalLineLen + 1
        toNext := d.toNext ∨ (g.glyphsPerLine ≤ (d.currentGlyphLen + 1) % 2 ^ 16 ∧
          s.charAt (i + 1) ≠ newline) } := by
  rw [drawChar, if_neg h.1, if_neg h.2.1, if_neg h.2.2]

/-- A tab that does not fit in the last row is left out. -/
theorem drawChar_overflows (h : d.pen.Overflows g (s.charAt i))
    (hlast : screenLinesToDraw ≤ d.currentScreenLines + 1)
    (hwrap : d.currentScreenLines + 1 < 2 ^ 16) :
    drawChar g s screenLinesToDraw rowNumber i d =
      { d with
        currentLogicalLineLen := d.currentLogicalLineLen + additionalSpace d.currentLogicalLineLen
        currentScreenLines := d.currentScreenLines + 1 } := by
  obtain ⟨htab, hlong⟩ := h
  rw [drawChar, if_neg (by rw [htab]; decide), if_neg (by rw [htab]; decide), if_pos htab]
  dsimp only
  rw [if_neg (show ¬ (d.currentGlyphLen + additionalSpace d.currentLogicalLineLen) % 2 ^ 16 ≤
    g.glyphsPerLine from not_le.mpr hlong), Nat.mod_eq_of_lt hwrap, if_pos hlast]

/-- A tab that fits moves the pen as in the layout. -/
theorem drawChar_tab (htab : s.charAt i = tab) (h : ¬ d.pen.Overflows g (s.charAt i)) :
    let d' := drawChar g s screenLinesToDraw rowNumber i d
    d'.pen = d.pen.char g (s.charAt i) (s.charAt (i + 1) = newline) ∧
      d'.currentScreenLines = d.currentScreenLines ∧ d'.painted = d.painted ∧
      d'.currentGlyphLen ≤ g.glyphsPerLine := by
  have hlong : (d.currentGlyphLen + additionalSpace d.currentLogicalLineLen) % 2 ^ 16 ≤
    g.glyphsPerLine := not_lt.mp fun hover => h ⟨htab, hover⟩
  have hlong' : (d.pen.glyphLen + additionalSpace d.pen.lineLen) % 2 ^ 16 ≤ g.glyphsPerLine := hlong
  have hzero : ¬ s.charAt i = 0 := by
    rw [htab]
    decide
  have hnewline : ¬ s.charAt i = newline := by
    rw [htab]
    decide
  unfold drawChar Pen.char
  dsimp only
  rw [if_neg hzero, if_neg hzero, if_neg hnewline, if_neg hnewline, if_pos htab, if_pos htab,
    if_pos hlong, if_pos hlong']
  have heq : g.glyphsPerLine ≤ (d.currentGlyphLen + additionalSpace d.currentLogicalLineLen) %
      2 ^ 16 ↔ (d.currentGlyphLen + additionalSpace d.currentLogicalLineLen) % 2 ^ 16 =
        g.glyphsPerLine := by
    omega
  refine ⟨Pen.ext rfl rfl (decide_eq_decide.mpr (and_congr heq ?_)), rfl, rfl, hlong⟩
  simp

end Cases

/-! ## The last row -/

/-- The cells before the next character. -/
def Fill.column (f : Fill) : Nat := if f.toNext then 0 else f.currentGlyphLen

/-- Both passes are at the same cell of the last row, and no tab fits in it any more. -/
structure Fill.Stuck (g : Geometry) (s : Screen) (i : Nat) (f : Fill) (d : Draw) : Prop where
  fits : f.Fits g s i
  glyphLen : d.currentGlyphLen = f.currentGlyphLen
  toNext : d.toNext = f.toNext
  column : d.column = d.currentGlyphLen
  fill : f.toNext = false →
    g.glyphsPerLine < f.currentGlyphLen + additionalSpace f.currentLogicalLineLen
  draw : f.toNext = false →
    g.glyphsPerLine < f.currentGlyphLen + additionalSpace d.currentLogicalLineLen

/-- The last row goes on, and some glyphs are painted. -/
structure Draw.GoesOn (d d' : Draw) (glyphs : List Glyph) : Prop where
  row : d'.row = d.row
  lines_ge : d.currentScreenLines ≤ d'.currentScreenLines
  lines_le : d'.currentScreenLines ≤ d.currentScreenLines + 1
  painted : d'.painted = d.painted ++ glyphs

section Stuck

variable {g : Geometry} {s : Screen} {f : Fill} {d : Draw}
  {screenLinesToDraw rowNumber startIndex limit dry i left : Nat}

/-- A character with a glyph is painted at the cell of both passes. -/
theorem Fill.Stuck.char_printable (hline : 4 ≤ g.glyphsPerLine)
    (hbig : g.glyphsPerLine + 4 < 2 ^ 16) (h : f.Stuck g s i d) (hnext : f.toNext = false)
    (hprint : Printable (s.charAt i)) :
    let f' := fillChar g s startIndex limit i f
    let d' := drawChar g s screenLinesToDraw rowNumber i d
    f'.Stuck g s (i + 1) d' ∧ d.GoesOn d' [⟨i, d.row, f.column⟩] := by
  have hfits' : (fillChar g s startIndex limit i f).Fits g s (i + 1) :=
    h.fits.fillChar hline hbig (ne_true_of_eq_false hnext)
  have hlt : f.currentGlyphLen < g.glyphsPerLine := lt_of_le_of_ne h.fits.le fun heq =>
    (h.fits.full heq).elim (ne_true_of_eq_false hnext) hprint.2.1
  have hglyph := h.glyphLen
  have hcolumn := h.column
  have hfill := h.fill hnext
  have hdraw := h.draw hnext
  have hspace := additionalSpace_eq f.currentLogicalLineLen
  have hspaceDraw := additionalSpace_eq d.currentLogicalLineLen
  have hspaceNext := additionalSpace_eq (f.currentLogicalLineLen + 1)
  have hspaceNextDraw := additionalSpace_eq (d.currentLogicalLineLen + 1)
  rw [fillChar_printable hprint] at hfits'
  dsimp only
  rw [fillChar_printable hprint, drawChar_printable hprint]
  refine ⟨⟨hfits', ?_, ?_, ?_, fun _ => ?_, fun _ => ?_⟩, rfl, le_rfl, Nat.le_succ _, ?_⟩
  · dsimp only
    rw [hglyph]
  · dsimp only
    rw [hglyph, h.toNext]
  · dsimp only
    omega
  · dsimp only
    omega
  · dsimp only
    omega
  · rw [Fill.column, if_neg (ne_true_of_eq_false hnext), h.column, hglyph]

/-- No tab fits for either pass. -/
theorem Fill.Stuck.overflows (h : f.Stuck g s i d) (hbig : g.glyphsPerLine + 4 < 2 ^ 16)
    (hnext : f.toNext = false) (htab : s.charAt i = tab) :
    f.pen.Overflows g (s.charAt i) ∧ d.pen.Overflows g (s.charAt i) := by
  have hfill := h.fill hnext
  have hdraw := h.draw hnext
  have hle := h.fits.le
  have hglyph := h.glyphLen
  have hspace := additionalSpace_eq f.currentLogicalLineLen
  have hspaceDraw := additionalSpace_eq d.currentLogicalLineLen
  constructor
  · refine ⟨htab, ?_⟩
    change _ < (f.currentGlyphLen + additionalSpace f.currentLogicalLineLen) % 2 ^ 16
    omega
  · refine ⟨htab, ?_⟩
    change _ < (d.currentGlyphLen + additionalSpace d.currentLogicalLineLen) % 2 ^ 16
    omega

/-- A tab is left out by both passes. -/
theorem Fill.Stuck.char_tab (hline : 4 ≤ g.glyphsPerLine) (hbig : g.glyphsPerLine + 4 < 2 ^ 16)
    (h : f.Stuck g s i d) (hnext : f.toNext = false)
    (hfull : limit ≠ 0 ∧ limit ≤ f.screenLinesInWindow)
    (hlast : screenLinesToDraw ≤ d.currentScreenLines + 1)
    (hwrap : d.currentScreenLines + 1 < 2 ^ 16) (htab : s.charAt i = tab) :
    let f' := fillChar g s startIndex limit i f
    let d' := drawChar g s screenLinesToDraw rowNumber i d
    f'.Stuck g s (i + 1) d' ∧ d.GoesOn d' [] := by
  obtain ⟨hover, hoverDraw⟩ := h.overflows hbig hnext htab
  have hf : fillChar g s startIndex limit i f = f := fillChar_of_overflows hfull hover
  have hfits' : (fillChar g s startIndex limit i f).Fits g s (i + 1) :=
    h.fits.fillChar hline hbig (ne_true_of_eq_false hnext)
  have hdraw := h.draw hnext
  have hspaceDraw := additionalSpace_eq d.currentLogicalLineLen
  have hspaceNext := additionalSpace_eq
    (d.currentLogicalLineLen + additionalSpace d.currentLogicalLineLen)
  rw [hf] at hfits'
  dsimp only
  rw [hf, drawChar_overflows hoverDraw hlast hwrap]
  refine ⟨⟨hfits', h.glyphLen, h.toNext, h.column, h.fill, fun _ => ?_⟩, rfl, Nat.le_succ _,
    le_rfl, (List.append_nil _).symm⟩
  dsimp only
  omega

/-- A character of the last row. -/
theorem Fill.Stuck.char (hline : 4 ≤ g.glyphsPerLine) (hbig : g.glyphsPerLine + 4 < 2 ^ 16)
    (h : f.Stuck g s i d) (hnext : f.toNext = false)
    (hfull : limit ≠ 0 ∧ limit ≤ f.screenLinesInWindow)
    (hlast : screenLinesToDraw ≤ d.currentScreenLines + 1)
    (hwrap : d.currentScreenLines + 1 < 2 ^ 16) :
    let f' := fillChar g s startIndex limit i f
    let d' := drawChar g s screenLinesToDraw rowNumber i d
    f'.Stuck g s (i + 1) d' ∧
      d.GoesOn d' (if Printable (s.charAt i) then [⟨i, d.row, f.column⟩] else []) := by
  by_cases hprint : Printable (s.charAt i)
  · rw [if_pos hprint]
    exact h.char_printable hline hbig hnext hprint
  rw [if_neg hprint]
  have hfits' : (fillChar g s startIndex limit i f).Fits g s (i + 1) :=
    h.fits.fillChar hline hbig (ne_true_of_eq_false hnext)
  by_cases hzero : s.charAt i = 0
  · have hf : fillChar g s startIndex limit i f = f := if_pos hzero
    have hd : drawChar g s screenLinesToDraw rowNumber i d = d := if_pos hzero
    rw [hf] at hfits'
    dsimp only
    rw [hf, hd]
    exact ⟨⟨hfits', h.glyphLen, h.toNext, h.column, h.fill, h.draw⟩, rfl, le_rfl, Nat.le_succ _,
      (List.append_nil _).symm⟩
  by_cases hnewline : s.charAt i = newline
  · rw [fillChar_newline hnewline] at hfits'
    dsimp only
    rw [fillChar_newline hnewline, drawChar_newline hnewline]
    exact ⟨⟨hfits', h.glyphLen, rfl, h.column, nofun, nofun⟩, rfl, le_rfl, Nat.le_succ _,
      (List.append_nil _).symm⟩
  · have htab : s.charAt i = tab := by
      by_contra htab
      exact hprint ⟨hzero, hnewline, htab⟩
    exact h.char_tab hline hbig hnext hfull hlast hwrap htab

/-- What `drawLines` paints where `fillScreenLines` may not note the next screen line: the last row
goes on up to where the pass ends. -/
theorem Fill.Stuck.drawLoop (hline : 4 ≤ g.glyphsPerLine) (hbig : g.glyphsPerLine + 4 < 2 ^ 16)
    (h : f.Stuck g s i d) (hfull : limit ≠ 0 ∧ limit ≤ f.screenLinesInWindow)
    (hlast : screenLinesToDraw ≤ d.currentScreenLines + 1)
    (hwrap : d.currentScreenLines + left < 2 ^ 16) {column : Nat → Nat}
    (hcolumn : ∀ j, i ≤ j → j < (fillLoop g s startIndex limit left i f).1 →
      column j = (fillLoop g s startIndex limit (j - i) i f).2.column) :
    (drawLoop g s screenLinesToDraw rowNumber left i d).painted =
      d.painted ++ rowGlyphs s.charAt column d.row i
        (fillLoop g s startIndex limit left i f).1 := by
  induction left generalizing i f d with
  | zero =>
    rw [fillLoop, rowGlyphs_self, List.append_nil]
    rfl
  | succ left ih =>
    by_cases hnext : f.toNext = true
    · -- Both end.
      have hstop : fillLoop g s startIndex limit (left + 1) i f =
          (i, { f with reads := f.reads ++ [i] }) := by
        rw [fillLoop]
        dsimp only
        rw [if_pos hnext, if_pos hfull]
      have hdraw : d.toNext = true := h.toNext.trans hnext
      rw [hstop, rowGlyphs_self, List.append_nil, Freestanding.drawLoop]
      dsimp only
      rw [if_pos hdraw, Nat.mod_eq_of_lt (by omega), if_pos hlast]
    · have hround (n : Nat) : fillLoop g s startIndex limit (n + 1) i f =
          fillLoop g s startIndex limit n (i + 1)
            (fillChar g s startIndex limit i { f with reads := f.reads ++ [i] }) := by
        rw [fillLoop]
        dsimp only
        rw [if_neg hnext]
      have hdraw : ¬ d.toNext = true := by
        rw [h.toNext]
        exact hnext
      have hread : Fill.Stuck g s i { f with reads := f.reads ++ [i] }
          { d with reads := d.reads ++ [i] } :=
        ⟨⟨h.fits.le, h.fits.full⟩, h.glyphLen, h.toNext, h.column, h.fill, h.draw⟩
      obtain ⟨hstuck, ⟨hrow, hge, hle, hpainted⟩⟩ := hread.char
        hline hbig (eq_false_of_ne_true hnext) hfull hlast
        (show d.currentScreenLines + 1 < 2 ^ 16 by omega)
      have hfull' := hfull
      have hwindow : (fillChar g s startIndex limit i
          { f with reads := f.reads ++ [i] }).screenLinesInWindow = f.screenLinesInWindow :=
        (fillChar_full (f := { f with reads := f.reads ++ [i] }) hfull).2.2.2
      rw [← hwindow] at hfull'
      have hpast : i + 1 ≤ (fillLoop g s startIndex limit left (i + 1) _).1 :=
        (fillLoop_full hfull' left).1
      rw [hround] at hcolumn ⊢
      generalize hd : drawChar g s screenLinesToDraw rowNumber i
        { d with reads := d.reads ++ [i] } = d' at *
      generalize fillChar g s startIndex limit i { f with reads := f.reads ++ [i] } = f' at *
      have hfirst : column i = f.column := by
        have hat := hcolumn i le_rfl hpast
        rwa [Nat.sub_self, fillLoop] at hat
      have hrest := ih hstuck hfull' (by dsimp only at hge; omega) (by dsimp only at hle; omega)
        fun j hj hlt => by
          rw [hcolumn j (by omega) hlt, show j - i = j - (i + 1) + 1 by omega, hround]
      rw [Freestanding.drawLoop]
      dsimp only
      rw [if_neg hdraw, hd, hrest, hpainted, rowGlyphs_succ hpast, hfirst, hrow,
        List.append_assoc]
      rfl

end Stuck

/-! ## Behind the last row -/

/-- The pen behind some characters. -/
def Pen.moved (g : Geometry) (text : Nat → U8) : Nat → Nat → Pen → Pen
  | _, 0, p => p
  | i, n + 1, p => moved g text (i + 1) n (p.turn.char g (text i) (text (i + 1) = newline))

/-- The row of the pen stays blank from a position on: only zero bytes and tabs follow, up to the
end of the text, a newline, or where tabs fill the row. -/
def Pen.RestBlank (g : Geometry) (text : Nat → U8) (i left : Nat) (p : Pen) : Prop :=
  ∃ n ≤ left, (∀ l < n, text (i + l) = 0 ∨ text (i + l) = tab) ∧
    (n = left ∨ text (i + n) = newline ∨
      (p.moved g text i n).toNext = true ∧
        ∀ l < n, ¬ (p.moved g text i l).turn.Overflows g (text (i + l)))

instance (g : Geometry) (text : Nat → U8) (i left : Nat) (p : Pen) :
    Decidable (p.RestBlank g text i left) :=
  inferInstanceAs (Decidable (∃ n ≤ left, _ ∧ (_ ∨ _ ∨ _ ∧ ∀ l < n, _)))

section Blank

variable {g : Geometry} {s : Screen} {d : Draw} {p : Pen} {text : Nat → U8}
  {screenLinesToDraw rowNumber i left n : Nat}

/-- A character that leaves the row blank and does not go on in the next one. -/
theorem restBlank_succ (hnext : p.toNext = false) (hch : text i = 0 ∨ text i = tab)
    (hover : ¬ p.Overflows g (text i)) : p.RestBlank g text i (left + 1) ↔
      (p.char g (text i) (text (i + 1) = newline)).RestBlank g text (i + 1) left := by
  have hturn : p.turn = p := turn_of_not_toNext (ne_true_of_eq_false hnext)
  have hnewline : text i ≠ newline := by
    rcases hch with h | h <;> rw [h] <;> decide
  have hmoved (n : Nat) : p.moved g text i (n + 1) =
      (p.char g (text i) (text (i + 1) = newline)).moved g text (i + 1) n := by
    rw [Pen.moved, hturn]
  constructor
  · rintro ⟨n, hn, hblank, hend⟩
    cases n with
    | zero =>
      rcases hend with hend | hend | ⟨hend, -⟩
      · omega
      · exact absurd hend hnewline
      · exact absurd hend (ne_true_of_eq_false hnext)
    | succ n =>
      refine ⟨n, by omega, fun l hl => ?_, ?_⟩
      · rw [show i + 1 + l = i + (l + 1) by omega]
        exact hblank (l + 1) (by omega)
      · rw [show i + 1 + n = i + (n + 1) by omega, ← hmoved]
        refine hend.imp (by omega) (Or.imp_right (And.imp_right fun h l hl => ?_))
        rw [show i + 1 + l = i + (l + 1) by omega, ← hmoved]
        exact h (l + 1) (by omega)
  · rintro ⟨n, hn, hblank, hend⟩
    refine ⟨n + 1, by omega, fun l hl => ?_, ?_⟩
    · cases l with
      | zero => exact hch
      | succ l =>
        rw [show i + (l + 1) = i + 1 + l by omega]
        exact hblank l (by omega)
    · rw [show i + (n + 1) = i + 1 + n by omega, hmoved]
      refine hend.imp (by omega) (Or.imp_right (And.imp_right fun h l hl => ?_))
      cases l with
      | zero =>
        rw [Pen.moved, hturn]
        exact hover
      | succ l =>
        rw [show i + (l + 1) = i + 1 + l by omega, hmoved]
        exact h l (by omega)

/-- Where no tab fits in the row, tabs do not fill it. -/
theorem not_toNext_of_stuck (hbig : g.glyphsPerLine + 4 < 2 ^ 16) (hnext : p.toNext = false)
    (hle : p.glyphLen ≤ g.glyphsPerLine)
    (hstuck : g.glyphsPerLine < p.glyphLen + additionalSpace p.lineLen)
    (hblank : ∀ l < n, text (i + l) = 0 ∨ text (i + l) = tab)
    (hover : ∀ l < n, ¬ (p.moved g text i l).turn.Overflows g (text (i + l))) :
    (p.moved g text i n).toNext = false := by
  have hturn : p.turn = p := turn_of_not_toNext (ne_true_of_eq_false hnext)
  have hspace := additionalSpace_eq p.lineLen
  induction n generalizing i with
  | zero => exact hnext
  | succ n ih =>
    have hfirst := hover 0 (Nat.succ_pos n)
    rw [Pen.moved, hturn, Nat.add_zero] at hfirst
    rcases hblank 0 (Nat.succ_pos n) with hzero | htab
    · have hchar : p.char g (text i) (text (i + 1) = newline) = p := if_pos hzero
      have hmoved (l : Nat) : p.moved g text i (l + 1) = p.moved g text (i + 1) l := by
        rw [Pen.moved, hturn, hchar]
      rw [hmoved]
      refine ih (fun l hl => ?_) fun l hl => ?_
      · rw [show i + 1 + l = i + (l + 1) by omega]
        exact hblank (l + 1) (by omega)
      · rw [show i + 1 + l = i + (l + 1) by omega, ← hmoved]
        exact hover (l + 1) (by omega)
    · exact absurd ⟨htab, by omega⟩ hfirst

/-- A tab that is left out. -/
theorem restBlank_overflows (hbig : g.glyphsPerLine + 4 < 2 ^ 16) (hnext : p.toNext = false)
    (hle : p.glyphLen ≤ g.glyphsPerLine) (hover : p.Overflows g (text i)) :
    p.RestBlank g text i (left + 1) ↔
      (⟨p.glyphLen, p.lineLen + additionalSpace p.lineLen, false⟩ : Pen).RestBlank g text
        (i + 1) left := by
  have hturn : p.turn = p := turn_of_not_toNext (ne_true_of_eq_false hnext)
  obtain ⟨htab, hlong⟩ := hover
  have hspace := additionalSpace_eq p.lineLen
  have hspaceNext := additionalSpace_eq (p.lineLen + additionalSpace p.lineLen)
  constructor
  · rintro ⟨n, hn, hblank, hend⟩
    cases n with
    | zero =>
      rcases hend with hend | hend | ⟨hend, -⟩
      · omega
      · exact absurd (htab.symm.trans hend) (by decide)
      · exact absurd hend (ne_true_of_eq_false hnext)
    | succ n =>
      refine ⟨n, by omega, fun l hl => ?_, ?_⟩
      · rw [show i + 1 + l = i + (l + 1) by omega]
        exact hblank (l + 1) (by omega)
      · rw [show i + 1 + n = i + (n + 1) by omega]
        rcases hend with hend | hend | ⟨-, hend⟩
        · exact .inl (by omega)
        · exact .inr (.inl hend)
        · have hfirst := hend 0 (Nat.succ_pos n)
          rw [Pen.moved, hturn] at hfirst
          exact absurd ⟨htab, hlong⟩ hfirst
  · rintro ⟨n, hn, hblank, hend⟩
    refine ⟨n + 1, by omega, fun l hl => ?_, ?_⟩
    · cases l with
      | zero => exact .inr htab
      | succ l =>
        rw [show i + (l + 1) = i + 1 + l by omega]
        exact hblank l (by omega)
    · rw [show i + (n + 1) = i + 1 + n by omega]
      rcases hend with hend | hend | ⟨hend, hfits⟩
      · exact .inl (by omega)
      · exact .inr (.inl hend)
      · have hstuck := not_toNext_of_stuck
          (p := ⟨p.glyphLen, p.lineLen + additionalSpace p.lineLen, false⟩) hbig rfl hle
          (by dsimp only; omega) hblank hfits
        exact absurd hend (ne_true_of_eq_false hstuck)

/-- What was painted stays painted. -/
theorem prefix_drawLoop (g : Geometry) (s : Screen) (screenLinesToDraw rowNumber left i : Nat)
    (d : Draw) : d.painted <+: (drawLoop g s screenLinesToDraw rowNumber left i d).painted := by
  have hchar (i : Nat) (d : Draw) :
      d.painted <+: (drawChar g s screenLinesToDraw rowNumber i d).painted := by
    unfold drawChar
    dsimp only
    split_ifs
    all_goals first
      | exact List.prefix_rfl
      | exact List.prefix_append _ _
  induction left generalizing i d with
  | zero => exact List.prefix_rfl
  | succ left ih =>
    have hstep (d₁ : Draw) (hpainted : d₁.painted = d.painted) :
        d.painted <+: (drawLoop g s screenLinesToDraw rowNumber left (i + 1)
          (drawChar g s screenLinesToDraw rowNumber i d₁)).painted := by
      rw [← hpainted]
      exact (hchar i d₁).trans (ih (i + 1) _)
    rw [drawLoop]
    dsimp only
    split
    · split
      · exact List.prefix_rfl
      · exact hstep _ rfl
    · exact hstep _ rfl

/-- A row stays blank where it ends. -/
theorem restBlank_of_end (h : left = 0 ∨ text i = newline ∨ p.toNext = true) :
    p.RestBlank g text i left :=
  ⟨0, Nat.zero_le _, fun l hl => absurd hl (Nat.not_lt_zero l), h.imp Eq.symm
    (Or.imp_right fun hnext => ⟨hnext, fun l hl => absurd hl (Nat.not_lt_zero l)⟩)⟩

/-- It does not stay blank where a glyph is next. -/
theorem not_restBlank_of_printable (hnext : p.toNext = false) (hprint : Printable (text i)) :
    ¬ p.RestBlank g text i (left + 1) := by
  rintro ⟨n, hn, hblank, hend⟩
  cases n with
  | zero =>
    rcases hend with hend | hend | ⟨hend, -⟩
    · omega
    · exact hprint.2.1 hend
    · exact absurd hend (ne_true_of_eq_false hnext)
  | succ n => exact (hblank 0 (Nat.succ_pos n)).elim hprint.1 hprint.2.2

/-- In the last row `drawLines` paints nothing more exactly if the row stays blank. -/
theorem drawLoop_painted_iff (hbig : g.glyphsPerLine + 4 < 2 ^ 16)
    (hle : d.currentGlyphLen ≤ g.glyphsPerLine)
    (hlast : screenLinesToDraw ≤ d.currentScreenLines + 1)
    (hwrap : d.currentScreenLines + left < 2 ^ 16) :
    (drawLoop g s screenLinesToDraw rowNumber left i d).painted = d.painted ↔
      d.pen.RestBlank g s.charAt i left := by
  induction left generalizing i d with
  | zero => exact iff_of_true rfl (restBlank_of_end (.inl rfl))
  | succ left ih =>
    by_cases hnext : d.toNext = true
    · have hstop : (drawLoop g s screenLinesToDraw rowNumber (left + 1) i d).painted =
          d.painted := by
        rw [drawLoop]
        dsimp only
        rw [if_pos hnext, Nat.mod_eq_of_lt (by omega), if_pos hlast]
      exact iff_of_true hstop (restBlank_of_end (.inr (.inr hnext)))
    have hround : drawLoop g s screenLinesToDraw rowNumber (left + 1) i d =
        drawLoop g s screenLinesToDraw rowNumber left (i + 1)
          (drawChar g s screenLinesToDraw rowNumber i { d with reads := d.reads ++ [i] }) := by
      rw [drawLoop]
      dsimp only
      rw [if_neg hnext]
    have hnext' : d.pen.toNext = false := eq_false_of_ne_true hnext
    rw [hround]
    by_cases hprint : Printable (s.charAt i)
    · refine iff_of_false (fun hsame => ?_) (not_restBlank_of_printable hnext' hprint)
      have hprefix := prefix_drawLoop g s screenLinesToDraw rowNumber left (i + 1)
        (drawChar g s screenLinesToDraw rowNumber i { d with reads := d.reads ++ [i] })
      rw [hsame, drawChar_printable hprint] at hprefix
      have hlength := hprefix.length_le
      rw [List.length_append, List.length_singleton] at hlength
      exact Nat.not_succ_le_self _ hlength
    by_cases hzero : s.charAt i = 0
    · have hd : drawChar g s screenLinesToDraw rowNumber i { d with reads := d.reads ++ [i] } =
          { d with reads := d.reads ++ [i] } := if_pos hzero
      have hchar : d.pen.char g (s.charAt i) (s.charAt (i + 1) = newline) = d.pen := if_pos hzero
      have hover : ¬ d.pen.Overflows g (s.charAt i) := fun hover =>
        absurd (hover.1.symm.trans hzero) (by decide)
      rw [hd, restBlank_succ hnext' (.inl hzero) hover, hchar]
      exact ih hle hlast (by dsimp only; omega)
    by_cases hnewline : s.charAt i = newline
    · rw [drawChar_newline hnewline]
      refine iff_of_true ?_ (restBlank_of_end (.inr (.inl hnewline)))
      exact (ih
        (d := { d with reads := d.reads ++ [i], toNext := true, currentLogicalLineLen := 0 })
        hle hlast (by dsimp only; omega)).mpr (restBlank_of_end (.inr (.inr rfl)))
    have htab : s.charAt i = tab := by
      by_contra htab
      exact hprint ⟨hzero, hnewline, htab⟩
    by_cases hover : d.pen.Overflows g (s.charAt i)
    · have hpen : (⟨d.pen.glyphLen, d.pen.lineLen + additionalSpace d.pen.lineLen, false⟩ : Pen) =
          ⟨d.currentGlyphLen, d.currentLogicalLineLen + additionalSpace d.currentLogicalLineLen,
            d.toNext⟩ := Pen.ext rfl rfl hnext'.symm
      rw [drawChar_overflows (d := { d with reads := d.reads ++ [i] }) hover hlast
        (by dsimp only; omega), restBlank_overflows hbig hnext' hle hover, hpen]
      exact ih hle (by dsimp only; omega) (by dsimp only; omega)
    · obtain ⟨hpen, hlines, hpainted, hglyph⟩ := @drawChar_tab g s
        { d with reads := d.reads ++ [i] } screenLinesToDraw rowNumber i htab hover
      generalize drawChar g s screenLinesToDraw rowNumber i { d with reads := d.reads ++ [i] } =
        d' at hpen hlines hpainted hglyph ⊢
      dsimp only at hlines hpainted
      have hrest : d.pen.char g (s.charAt i) (s.charAt (i + 1) = newline) = d'.pen := hpen.symm
      rw [restBlank_succ hnext' (.inr htab) hover, hrest, ← hpainted]
      exact ih hglyph (by omega) (by omega)

end Blank

end Homegrown.Freestanding
