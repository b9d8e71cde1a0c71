import Homegrown.Freestanding.Layout

/-!
# A limited layout

With a limit, `fillScreenLines` goes on as without one until the screen line behind the last one
that it may note. Where that one begins behind a newline or a full line, it stops. Where it begins
within a tab, the tab is left out and the last line goes on: the `break` at the limit leaves the
`switch` and not the loop. `fillScreenLines_limited_iff` says so.
-/

namespace Homegrown.Freestanding

/-! ## Up to the limit -/

section Limit

variable {g : Geometry} {s : Screen} {f f' : Fill} {starts : List Nat}
  {startIndex limit dry i e left : Nat}

/-- Below the limit a character is laid out as without one. -/
theorem fillChar_of_lt (h : f.screenLinesInWindow < limit) :
    fillChar g s startIndex limit i f = fillChar g s startIndex 0 i f := by
  have hlimit : ¬ (limit ≠ 0 ∧ limit ≤ f.screenLinesInWindow) := fun hmax => by omega
  have hnone : ¬ ((0 : Nat) ≠ 0 ∧ 0 ≤ f.screenLinesInWindow) := fun hmax => hmax.1 rfl
  unfold fillChar
  dsimp only
  rw [if_neg hlimit, if_neg hnone]

/-- So is one that does not go on in the next screen line. -/
theorem fillChar_of_not_overflows (h : ¬ f.pen.Overflows g (s.charAt i)) :
    fillChar g s startIndex limit i f = fillChar g s startIndex 0 i f := by
  unfold fillChar
  dsimp only
  by_cases htab : s.charAt i = tab
  · have hfits : (f.currentGlyphLen + additionalSpace f.currentLogicalLineLen) % 2 ^ 16 ≤
        g.glyphsPerLine := not_lt.mp fun hover => h ⟨htab, hover⟩
    simp only [if_pos hfits]
  · simp only [if_neg htab]

/-- At the limit, a tab that goes on in the next screen line is left out. -/
theorem fillChar_of_overflows (hlimit : limit ≠ 0 ∧ limit ≤ f.screenLinesInWindow)
    (h : f.pen.Overflows g (s.charAt i)) : fillChar g s startIndex limit i f = f := by
  obtain ⟨htab, hover⟩ := h
  have hlong : ¬ (f.currentGlyphLen + additionalSpace f.currentLogicalLineLen) % 2 ^ 16 ≤
    g.glyphsPerLine := not_le.mpr hover
  have hzero : ¬ s.charAt i = 0 := by
    rw [htab]
    decide
  have hnewline : ¬ s.charAt i = newline := by
    rw [htab]
    decide
  unfold fillChar
  dsimp only
  rw [if_neg hzero, if_neg hnewline, if_pos htab, if_neg hlong, if_pos hlimit]

/-- A round below the limit. -/
theorem fillLoop_succ_of_lt (hline : 4 ≤ g.glyphsPerLine) (h : f.screenLinesInWindow < limit) :
    fillLoop g s startIndex limit (left + 1) i f =
      fillLoop g s startIndex limit left (i + 1) (fillStep g s startIndex i f) := by
  rw [fillLoop, fillStep]
  dsimp only
  split
  · rw [if_neg (by omega), fillChar_of_not_overflows (not_overflows hline rfl)]
  · rw [fillChar_of_lt (f := { f with reads := f.reads ++ [i] }) h]

/-- A round at which no screen line begins. -/
theorem fillLoop_succ_of_not_begins (hnext : ¬ f.toNext = true)
    (hover : ¬ f.pen.Overflows g (s.charAt i)) :
    fillLoop g s startIndex limit (left + 1) i f =
      fillLoop g s startIndex limit left (i + 1) (fillStep g s startIndex i f) := by
  rw [fillLoop, fillStep]
  dsimp only
  rw [if_neg hnext, if_neg hnext,
    fillChar_of_not_overflows (f := { f with reads := f.reads ++ [i] }) hover]

/-- A pass that has not ended goes on from where it is. -/
theorem fillLoop_add {n : Nat} (h : (fillLoop g s startIndex limit n i f).1 = i + n) (left : Nat) :
    fillLoop g s startIndex limit (n + left) i f =
      fillLoop g s startIndex limit left (i + n) (fillLoop g s startIndex limit n i f).2 := by
  induction n generalizing i f with
  | zero => rw [Nat.zero_add, fillLoop, Nat.add_zero]
  | succ n ih =>
    rw [fillLoop] at h
    rw [Nat.add_right_comm, fillLoop, fillLoop]
    dsimp only at h ⊢
    split at h
    · rename_i hnext
      rw [if_pos hnext, if_pos hnext]
      split at h
      · omega
      · rename_i hlimit
        rw [if_neg hlimit, if_neg hlimit, ih (by omega), Nat.add_right_comm, Nat.add_assoc]
    · rename_i hnext
      rw [if_neg hnext, if_neg hnext, ih (by omega), Nat.add_right_comm, Nat.add_assoc]

/-- A pass with a limit is one without up to its end, or up to the first screen line that it may
not note. -/
theorem fillLoop_limited (hline : 4 ≤ g.glyphsPerLine) (hlimit : limit < 2 ^ 16) (left : Nat)
    (h : FillNotes g startIndex f starts) (hcount : starts.countP (startIndex ≤ ·) ≤ limit)
    (hdry : dry ≤ i) (hpen : f.pen = penAt g s.charAt dry i) :
    ∃ n ≤ left, let noted := starts ++ (List.range' i n).filter fun j => Breaks g s.charAt dry j
      noted.countP (startIndex ≤ ·) ≤ limit ∧
        (∀ m ≤ n, fillLoop g s startIndex limit m i f = fillLoop g s startIndex 0 m i f) ∧
        (n = left ∨
          n < left ∧ noted.countP (startIndex ≤ ·) = limit ∧ Breaks g s.charAt dry (i + n)) := by
  induction left generalizing i f starts with
  | zero =>
    refine ⟨0, le_rfl, ?_, fun m hm => ?_, .inl rfl⟩
    · rwa [List.range'_zero, List.filter_nil, List.append_nil]
    · rw [Nat.le_zero.mp hm, fillLoop, fillLoop]
  | succ left ih =>
    have hbreaks : Breaks g s.charAt dry i ↔
        f.toNext = true ∨ f.pen.turn.Overflows g (s.charAt i) := by
      rw [Breaks, ← hpen]
      exact Iff.rfl
    have hwindow : f.screenLinesInWindow = starts.countP (startIndex ≤ ·) := by
      rw [h.count, Nat.mod_eq_of_lt (lt_of_le_of_lt hcount hlimit)]
    by_cases hstop : starts.countP (startIndex ≤ ·) = limit ∧ Breaks g s.charAt dry i
    · refine ⟨0, Nat.zero_le _, ?_, fun m hm => ?_, .inr ⟨Nat.succ_pos left, ?_, hstop.2⟩⟩
      · rwa [List.range'_zero, List.filter_nil, List.append_nil]
      · rw [Nat.le_zero.mp hm, fillLoop, fillLoop]
      · rw [List.range'_zero, List.filter_nil, List.append_nil]
        exact hstop.1
    · obtain ⟨hpen₁, h₁⟩ := h.fillStep hline hdry hpen
      have hcount₁ : (starts ++ if Breaks g s.charAt dry i then [i] else []).countP
          (startIndex ≤ ·) ≤ limit := by
        rw [List.countP_append]
        split
        · rename_i hbreak
          have hmore := List.countP_le_length (p := fun j => decide (startIndex ≤ j)) (l := [i])
          have hne : starts.countP (startIndex ≤ ·) ≠ limit := fun heq => hstop ⟨heq, hbreak⟩
          rw [List.length_singleton] at hmore
          omega
        · rwa [List.countP_nil, Nat.add_zero]
      have hround (left : Nat) : fillLoop g s startIndex limit (left + 1) i f =
          fillLoop g s startIndex limit left (i + 1) (fillStep g s startIndex i f) := by
        by_cases hlt : f.screenLinesInWindow < limit
        · exact fillLoop_succ_of_lt hline hlt
        · have hno : ¬ Breaks g s.charAt dry i := fun hbreak => hstop ⟨by omega, hbreak⟩
          rw [hbreaks, not_or] at hno
          have hover := hno.2
          rw [turn_of_not_toNext hno.1] at hover
          exact fillLoop_succ_of_not_begins hno.1 hover
      obtain ⟨n, hn, hnoted, hsame, hend⟩ := ih h₁ hcount₁ (Nat.le_succ_of_le hdry) hpen₁
      have hsum : i + (n + 1) = i + 1 + n := by omega
      refine ⟨n + 1, Nat.succ_le_succ hn, ?_⟩
      rw [filter_breaks_succ, ← List.append_assoc]
      refine ⟨hnoted, fun m hm => ?_, ?_⟩
      · cases m with
        | zero => rw [fillLoop, fillLoop]
        | succ m => rw [hround, fillLoop_succ, hsame m (Nat.le_of_succ_le_succ hm)]
      · rw [hsum]
        exact hend.imp (congrArg (· + 1)) (And.imp_left Nat.succ_lt_succ)

/-- At the limit, a character begins no screen line. -/
theorem fillChar_full (hfull : limit ≠ 0 ∧ limit ≤ f.screenLinesInWindow) :
    (fillChar g s startIndex limit i f).screenLinesCopy = f.screenLinesCopy ∧
      (fillChar g s startIndex limit i f).logicalLineLens = f.logicalLineLens ∧
      (fillChar g s startIndex limit i f).currentScreenLineIndex = f.currentScreenLineIndex ∧
      (fillChar g s startIndex limit i f).screenLinesInWindow = f.screenLinesInWindow := by
  unfold fillChar
  dsimp only
  rw [if_pos hfull]
  split_ifs <;> exact ⟨rfl, rfl, rfl, rfl⟩

/-- At the limit no screen line is noted any more. -/
theorem fillLoop_full (hfull : limit ≠ 0 ∧ limit ≤ f.screenLinesInWindow) (left : Nat) :
    let (e, f') := fillLoop g s startIndex limit left i f
    i ≤ e ∧ f'.screenLinesCopy = f.screenLinesCopy ∧ f'.logicalLineLens = f.logicalLineLens ∧
      f'.currentScreenLineIndex = f.currentScreenLineIndex ∧
      f'.screenLinesInWindow = f.screenLinesInWindow := by
  induction left generalizing i f with
  | zero => exact ⟨le_rfl, rfl, rfl, rfl, rfl⟩
  | succ left ih =>
    rw [fillLoop]
    dsimp only
    split
    · exact ⟨le_rfl, rfl, rfl, rfl, rfl⟩
    · obtain ⟨hcopy, hlens, hindex, hwindow⟩ := fillChar_full (g := g) (s := s) (i := i)
        (f := { f with reads := f.reads ++ [i] }) hfull
      have hrest := ih (i := i + 1) (f := fillChar g s startIndex limit i
        { f with reads := f.reads ++ [i] }) (by rw [hwindow]; exact hfull)
      rw [hcopy, hlens, hindex, hwindow] at hrest
      exact ⟨(Nat.le_succ i).trans hrest.1, hrest.2⟩

/-- So the notes stay. -/
theorem FillNotes.fillLoop_full (h : FillNotes g startIndex f starts)
    (hfull : limit ≠ 0 ∧ limit ≤ f.screenLinesInWindow) (left : Nat) :
    FillNotes g startIndex (Freestanding.fillLoop g s startIndex limit left i f).2 starts := by
  obtain ⟨-, hcopy, hlens, hindex, hwindow⟩ :=
    Freestanding.fillLoop_full (g := g) (s := s) (i := i) hfull left
  exact h.congr hcopy hlens hindex hwindow

end Limit

/-! ## Prefixes -/

/-- The screen lines up to the last one that may be noted: those before the start index, and as many
more as the limit says. -/
def linesUpTo (startIndex limit : Nat) (starts : List Nat) : List Nat :=
  starts.take (starts.countP (· < startIndex) + limit)

/-- Where the screen line behind them begins, if there is one. -/
def lineAfter? (startIndex limit : Nat) (starts : List Nat) : Option Nat :=
  starts[starts.countP (· < startIndex) + limit]?

/-- A screen line begins within the tab at a position. -/
def SplitsTab (g : Geometry) (text : Nat → U8) (dry i : Nat) : Prop :=
  (penAt g text dry i).turn.Overflows g (text i)

instance (g : Geometry) (text : Nat → U8) (dry i : Nat) : Decidable (SplitsTab g text dry i) :=
  inferInstanceAs (Decidable (Pen.Overflows ..))

section Prefix

variable {g : Geometry} {s : Screen} {startIndex limit dry e x : Nat}
  {starts before after : List Nat}

/-- The starts of the parse: where it begins, and where lines break. -/
theorem mem_fillStarts {y : Nat} (hdry : dry ≤ e) : y ∈ fillStarts g s dry e ↔
    y = dry ∨ (dry ≤ y ∧ y < e) ∧ Breaks g s.charAt dry y := by
  rw [fillStarts, List.mem_cons, List.mem_filter, List.mem_range'_1, decide_eq_true_iff,
    Nat.add_sub_cancel' hdry]

/-- Screen lines begin one behind the other. -/
theorem fillStarts_sorted (hline : 4 ≤ g.glyphsPerLine) :
    (fillStarts g s dry e).Pairwise (· < ·) := by
  refine List.pairwise_cons.mpr ⟨fun y hy => ?_, (List.pairwise_lt_range').filter _⟩
  obtain ⟨hrange, hbreak⟩ := List.mem_filter.mp hy
  refine lt_of_le_of_ne (List.mem_range'_1.mp hrange).1 ?_
  rintro rfl
  exact not_breaks_start hline (of_decide_eq_true hbreak)

/-- The starts lie within the parse. -/
theorem le_of_mem_fillStarts {y : Nat} (hdry : dry ≤ e) (hy : y ∈ fillStarts g s dry e) :
    dry ≤ y ∧ y ≤ e := by
  rcases (mem_fillStarts hdry).mp hy with rfl | ⟨⟨hge, hlt⟩, -⟩
  · exact ⟨le_rfl, hdry⟩
  · exact ⟨hge, hlt.le⟩

/-- The screen lines before and behind one of them. -/
theorem fillStarts_split (hx : dry ≤ x) (hlt : x < e) (hbreak : Breaks g s.charAt dry x) :
    ∃ after, fillStarts g s dry e = fillStarts g s dry x ++ x :: after ∧ ∀ y ∈ after, x < y := by
  have hsplit : List.range' dry (e - dry) =
      List.range' dry (x - dry) ++ x :: List.range' (x + 1) (e - x - 1) := by
    have happend : List.range' dry (x - dry) ++ List.range' (dry + (x - dry)) (e - x - 1 + 1) =
      List.range' dry (x - dry + (e - x - 1 + 1)) := List.range'_append_1
    rw [Nat.add_sub_cancel' hx, List.range'_succ] at happend
    rw [happend]
    congr 1
    omega
  refine ⟨(List.range' (x + 1) (e - x - 1)).filter fun y => Breaks g s.charAt dry y, ?_,
    fun y hy => (List.mem_range'_1.mp (List.mem_filter.mp hy).1).1⟩
  rw [fillStarts, hsplit, List.filter_append, List.filter_cons, if_pos (decide_eq_true hbreak)]
  rfl

/-- Every start lies before an index or from it on. -/
theorem countP_add_countP (startIndex : Nat) (starts : List Nat) :
    starts.countP (· < startIndex) + starts.countP (startIndex ≤ ·) = starts.length := by
  rw [List.length_eq_countP_add_countP (fun y => decide (y < startIndex))]
  simp

/-- All screen lines are noted if the limit is not exceeded. -/
theorem linesUpTo_of_le (h : starts.countP (startIndex ≤ ·) ≤ limit) :
    linesUpTo startIndex limit starts = starts ∧ lineAfter? startIndex limit starts = none := by
  have hcount := countP_add_countP startIndex starts
  exact ⟨List.take_of_length_le (by omega), List.getElem?_eq_none (by omega)⟩

/-- As many as the limit says are noted before a screen line that begins at or behind the start
index. -/
theorem linesUpTo_append (hcount : before.countP (startIndex ≤ ·) = limit) (hx : startIndex ≤ x)
    (hafter : ∀ y ∈ after, x < y) : linesUpTo startIndex limit (before ++ x :: after) = before ∧
      lineAfter? startIndex limit (before ++ x :: after) = some x := by
  have hsum := countP_add_countP startIndex before
  have hnone : (x :: after).countP (· < startIndex) = 0 := by
    rw [List.countP_eq_zero]
    intro y hy
    rw [decide_eq_true_iff, not_lt]
    rcases List.mem_cons.mp hy with rfl | hy
    · exact hx
    · exact hx.trans (hafter y hy).le
  have hlength : (before ++ x :: after).countP (· < startIndex) + limit = before.length := by
    rw [List.countP_append, hnone]
    omega
  rw [linesUpTo, lineAfter?, hlength]
  exact ⟨List.take_left, by rw [List.getElem?_append_right le_rfl, Nat.sub_self]; rfl⟩

/-- A screen line begins behind a newline or a full line, or within a tab. -/
theorem splitsTab_iff (hline : 4 ≤ g.glyphsPerLine) (hbreak : Breaks g s.charAt dry x) :
    SplitsTab g s.charAt dry x ↔ ¬ (penAt g s.charAt dry x).toNext = true := by
  constructor
  · intro hsplit hnext
    rw [SplitsTab, turn_of_toNext hnext] at hsplit
    exact not_overflows hline rfl hsplit
  · exact hbreak.resolve_left

/-- At the first screen line that it may not note a pass stops, or goes on behind the tab. -/
theorem fillLoop_atLimit {f : Fill} (hline : 4 ≤ g.glyphsPerLine) (startIndex left : Nat)
    (hfull : limit ≠ 0 ∧ limit ≤ f.screenLinesInWindow)
    (hpen : f.pen = penAt g s.charAt dry x) (hbreak : Breaks g s.charAt dry x) :
    let (last, _) := fillLoop g s startIndex limit (left + 1) x f
    if SplitsTab g s.charAt dry x then x < last else last = x := by
  have hturn : f.toNext = (penAt g s.charAt dry x).toNext := congrArg Pen.toNext hpen
  have hsplits := splitsTab_iff hline hbreak
  rw [← hturn] at hsplits
  rw [fillLoop]
  dsimp only
  by_cases hnext : f.toNext = true
  · rw [if_neg fun h => hsplits.mp h hnext, if_pos hnext, if_pos hfull]
  · rw [if_pos (hsplits.mpr hnext), if_neg hnext]
    obtain ⟨-, -, -, hwindow⟩ := fillChar_full (g := g) (s := s) (i := x)
      (f := { f with reads := f.reads ++ [x] }) hfull
    exact (fillLoop_full (by rw [hwindow]; exact hfull) left).1

/-- What a pass with a limit notes, and where it ends. -/
theorem fillScreenLines_limited (hline : 4 ≤ g.glyphsPerLine) (hlimit : 1 ≤ limit)
    (hbig : limit < 2 ^ 16) (s : Screen) (hdry : dry ≤ startIndex) (hend : startIndex ≤ e) :
    let r := fillScreenLines g s dry startIndex e limit
    let starts := fillStarts g s dry e
    ∃ last, r.Notes g (linesUpTo startIndex limit starts) last ∧
      r.realScreenLinesWritten = min ((linesUpTo startIndex limit starts).countP (startIndex ≤ ·))
        g.glyphsPerColumn ∧
      (lineAfter? startIndex limit starts = none →
        last = e ∧ r.lastLineDone = (penAt g s.charAt dry e).toNext) ∧
      ∀ x, lineAfter? startIndex limit starts = some x →
        if SplitsTab g s.charAt dry x then x < last else last = x := by
  intro r starts
  have hr : r = _ := fillScreenLines_eq g s dry startIndex e limit
  have hone : [dry].countP (startIndex ≤ ·) ≤ limit := List.countP_le_length.trans hlimit
  obtain ⟨n, hn, hcount, hsame, hrun⟩ := fillLoop_limited hline hbig (e - dry)
    (fillNotes_fillStart g s dry startIndex) hone le_rfl (pen_fillStart g s dry startIndex)
  rw [fillStarts_add] at hcount hrun
  -- The pass up to there is one without a limit.
  have hrounds := fillLoop_fillStart hline s dry startIndex n
  rw [← hsame n le_rfl] at hrounds
  obtain ⟨hat, hpen, hnotes⟩ := hrounds
  have hwritten {f : Fill} (h : FillNotes g startIndex f (fillStarts g s dry (dry + n))) :
      f.screenLinesInWindow = (fillStarts g s dry (dry + n)).countP (startIndex ≤ ·) := by
    rw [h.count, Nat.mod_eq_of_lt (lt_of_le_of_lt hcount hbig)]
  rcases hrun with rfl | ⟨hlt, hfull, hbreak⟩
  · rw [Nat.add_sub_cancel' (hdry.trans hend)] at hat hpen hcount hnotes hwritten
    obtain ⟨hlines, hnone⟩ := linesUpTo_of_le hcount
    rw [hlines, hnone, hr, hat]
    exact ⟨e, hnotes.result e, congrArg (min · g.glyphsPerColumn) (hwritten hnotes),
      fun _ => ⟨rfl, congrArg Pen.toNext hpen⟩, fun x hx => by cases hx⟩
  · have hx : dry + n < e := by omega
    obtain ⟨a, ha, hage⟩ := List.countP_pos_iff.mp (hfull ▸ hlimit)
    have hstartx : startIndex ≤ dry + n :=
      (of_decide_eq_true hage).trans (le_of_mem_fillStarts (Nat.le_add_right dry n) ha).2
    obtain ⟨after, hsplit, hafter⟩ := fillStarts_split (Nat.le_add_right dry n) hx hbreak
    obtain ⟨hlines, hline'⟩ := linesUpTo_append hfull hstartx hafter
    rw [← hsplit] at hlines hline'
    obtain ⟨left, hleft⟩ : ∃ left, e - dry = n + (left + 1) := ⟨e - dry - n - 1, by omega⟩
    rw [hleft, fillLoop_add hat] at hr
    generalize (fillLoop g s startIndex limit n dry (fillStart s dry startIndex)).2 = f at *
    have hatLimit : limit ≠ 0 ∧ limit ≤ f.screenLinesInWindow := by
      rw [hwritten hnotes, hfull]
      exact ⟨by omega, le_rfl⟩
    have hnotes' := hnotes.fillLoop_full (s := s) (i := dry + n) hatLimit (left + 1)
    rw [hlines, hline', hr]
    refine ⟨_, hnotes'.result _, congrArg (min · g.glyphsPerColumn) (hwritten hnotes'),
      (fun hnone => by cases hnone), fun x hx => ?_⟩
    obtain rfl := Option.some.inj hx
    exact fillLoop_atLimit hline startIndex left hatLimit hpen hbreak

end Prefix

/-! ## Cells -/

/-- The cells of the screen line that a pass is in when it has come to a position. -/
def cellsAt (g : Geometry) (s : Screen) (dry startIndex limit i : Nat) : Nat :=
  (fillLoop g s startIndex limit (i - dry) dry (fillStart s dry startIndex)).2.currentGlyphLen

/-- The screen line is not too long, and if it is full it ends before the next character or behind
a newline. -/
structure Fill.Fits (g : Geometry) (s : Screen) (i : Nat) (f : Fill) : Prop where
  le : f.currentGlyphLen ≤ g.glyphsPerLine
  full : f.currentGlyphLen = g.glyphsPerLine → f.toNext = true ∨ s.charAt i = newline

section Cells

variable {g : Geometry} {s : Screen} {f : Fill} {startIndex limit dry i e : Nat}

/-- The glyphs that a tab leaves on its first line. -/
theorem extraSpacePreviousLine_eq {glyphLen : Nat} (hle : glyphLen ≤ g.glyphsPerLine)
    (hmore : g.glyphsPerLine < glyphLen + 4) :
    extraSpacePreviousLine g glyphLen = g.glyphsPerLine - glyphLen := by
  rw [extraSpacePreviousLine]
  omega

/-- A character keeps the line within the glyphs it has room for. -/
theorem Fill.Fits.fillChar (hline : 4 ≤ g.glyphsPerLine) (hbig : g.glyphsPerLine + 4 < 2 ^ 16)
    (h : f.Fits g s i) (hnext : ¬ f.toNext = true) :
    (fillChar g s startIndex limit i f).Fits g s (i + 1) := by
  have hle := h.le
  have hlt (hch : s.charAt i ≠ newline) : f.currentGlyphLen < g.glyphsPerLine :=
    lt_of_le_of_ne hle fun heq => (h.full heq).elim hnext hch
  have hspace := additionalSpace_eq f.currentLogicalLineLen
  unfold Freestanding.fillChar
  dsimp only
  split
  · rename_i hzero
    have hlt := hlt (by rw [hzero]; decide)
    exact ⟨hle, fun heq => absurd heq hlt.ne⟩
  · split
    · exact ⟨hle, fun _ => .inl rfl⟩
    · rename_i hnewline
      have hlt := hlt hnewline
      split
      · split
        · rename_i hfits
          refine ⟨hfits, fun heq => ?_⟩
          dsimp only at heq ⊢
          rw [decide_eq_true_iff]
          exact (em _).symm.imp_left fun hne => ⟨heq, hne⟩
        · split
          · exact ⟨hle, fun heq => absurd heq hlt.ne⟩
          · rename_i hlong _
            have hextra := extraSpacePreviousLine_eq (g := g) hle (by omega)
            refine ⟨?_, fun heq => ?_⟩
            · dsimp only
              omega
            · dsimp only at heq
              omega
      · refine ⟨?_, fun heq => ?_⟩
        · dsimp only
          omega
        · dsimp only at heq ⊢
          rw [decide_eq_true_iff]
          exact (em (s.charAt (i + 1) = newline)).symm.imp_left fun hne => .inr ⟨heq.ge, hne⟩

/-- No screen line gets too long. -/
theorem Fill.Fits.fillLoop (hline : 4 ≤ g.glyphsPerLine) (hbig : g.glyphsPerLine + 4 < 2 ^ 16)
    (left : Nat) (h : f.Fits g s i) :
    (fillLoop g s startIndex limit left i f).2.currentGlyphLen ≤ g.glyphsPerLine := by
  induction left generalizing i f with
  | zero => exact h.le
  | succ left ih =>
    rw [Freestanding.fillLoop]
    dsimp only
    split
    · split
      · exact h.le
      · have hempty : (0 : Nat) ≠ g.glyphsPerLine := by omega
        exact ih (Fill.Fits.fillChar hline hbig ⟨Nat.zero_le _, fun heq => absurd heq hempty⟩
          Bool.false_ne_true)
    · rename_i hnext
      exact ih (Fill.Fits.fillChar hline hbig ⟨h.le, h.full⟩ hnext)

/-- A line has no more cells than the screen has glyphs in a line. -/
theorem cellsAt_le (hline : 4 ≤ g.glyphsPerLine) (hbig : g.glyphsPerLine + 4 < 2 ^ 16)
    (s : Screen) (dry startIndex limit i : Nat) :
    cellsAt g s dry startIndex limit i ≤ g.glyphsPerLine := by
  refine Fill.Fits.fillLoop hline hbig _ (i := dry) ⟨Nat.zero_le _, fun heq => ?_⟩
  exact absurd (show (0 : Nat) = g.glyphsPerLine from heq) (by omega)

end Cells

/-! ## A limited pass is a prefix -/

/-- The pass with a limit notes the first screen lines of the one without, and where the next one
begins; in both no screen line is too long, and none begins before one that was noted earlier. -/
structure LimitedAgrees (g : Geometry) (s : Screen) (dry startIndex e limit : Nat) : Prop where
  unlimited : (fillScreenLines g s dry startIndex e 0).Notes g (fillStarts g s dry e) e
  limited : (fillScreenLines g s dry startIndex e limit).Notes g
    (linesUpTo startIndex limit (fillStarts g s dry e))
    ((lineAfter? startIndex limit (fillStarts g s dry e)).getD e)
  cells : ∀ max ∈ [0, limit], ∀ i ≤ e, cellsAt g s dry startIndex max i ≤ g.glyphsPerLine
  sorted : (fillStarts g s dry e ++ [e]).Pairwise (· ≤ ·)
  sortedLimited : (linesUpTo startIndex limit (fillStarts g s dry e) ++
    [(lineAfter? startIndex limit (fillStarts g s dry e)).getD e]).Pairwise (· ≤ ·)

section Agree

variable {g : Geometry} {s : Screen} {startIndex limit dry e : Nat}

/-- The last character of the noted lines is determined. -/
theorem FillResult.Notes.last_eq {r : FillResult} {starts : List Nat} {last last' : Nat}
    (hring : 0 < g.ringGlyphsPerColumn) (h : r.Notes g starts last) (h' : r.Notes g starts last') :
    last = last' := by
  have hentry {x : Nat} (hx : r.Notes g starts x) :
      r.screenLinesCopy (starts.length % g.ringGlyphsPerColumn) = x := by
    refine hx.ring _ _ ?_ ?_
    · rw [List.getElem?_append_right le_rfl, Nat.sub_self]
      rfl
    · rw [List.length_append, List.length_singleton]
      omega
  exact (hentry h).symm.trans (hentry h')

/-- The lines up to the limit rise, and the next one lies behind them. -/
theorem linesUpTo_sorted {starts : List Nat} (h : (starts ++ [e]).Pairwise (· ≤ ·)) :
    (linesUpTo startIndex limit starts ++
      [(lineAfter? startIndex limit starts).getD e]).Pairwise (· ≤ ·) := by
  rw [linesUpTo, lineAfter?]
  generalize starts.countP (· < startIndex) + limit = k
  cases hk : starts[k]? with
  | none =>
    rw [List.take_of_length_le (List.getElem?_eq_none_iff.mp hk)]
    exact h
  | some x =>
    obtain ⟨hlt, rfl⟩ := List.getElem?_eq_some_iff.mp hk
    rw [Option.getD_some, List.take_append_getElem]
    exact (List.pairwise_append.mp h).1.sublist (List.take_sublist _ _)

/-- A limited pass is a prefix of the unlimited one exactly when the screen line behind its last
one does not begin within a tab. -/
theorem fillScreenLines_limited_iff (hg : g.Admitted) (hline : 4 ≤ g.glyphsPerLine)
    (hdry : dry ≤ startIndex) (hend : startIndex ≤ e) (hlimit : 1 ≤ limit)
    (hcolumn : limit ≤ g.glyphsPerColumn) :
    LimitedAgrees g s dry startIndex e limit ↔
      ∀ x ∈ lineAfter? startIndex limit (fillStarts g s dry e), ¬ SplitsTab g s.charAt dry x := by
  have hring := hg.ring
  have hchars := hg.chars
  have hdryEnd := hdry.trans hend
  have hwide : g.glyphsPerLine + 4 < 2 ^ 16 := by
    have hmul := Nat.mul_le_mul_left g.glyphsPerLine (hlimit.trans hcolumn)
    have hfull : fileBufLen = 2 ^ 16 := rfl
    rw [Geometry.maxCharsToProcess] at hchars
    omega
  obtain ⟨last, hnotes, -, hnone, hsome⟩ := fillScreenLines_limited hline hlimit (by omega) s hdry
    hend
  constructor
  · intro h x hx hsplits
    have hlast := hnotes.last_eq (by omega) h.limited
    rw [Option.mem_def] at hx
    have hpast := hsome x hx
    rw [if_pos hsplits] at hpast
    rw [hlast, hx, Option.getD_some] at hpast
    exact hpast.false
  · intro h
    have hsorted : (fillStarts g s dry e ++ [e]).Pairwise (· ≤ ·) := by
      refine List.pairwise_append.mpr ⟨(fillStarts_sorted hline).imp le_of_lt,
        List.pairwise_singleton _ _, fun y hy z hz => ?_⟩
      rw [List.mem_singleton.mp hz]
      exact (le_of_mem_fillStarts hdryEnd hy).2
    have hlast : last = (lineAfter? startIndex limit (fillStarts g s dry e)).getD e := by
      cases hx : lineAfter? startIndex limit (fillStarts g s dry e) with
      | none => exact (hnone hx).1
      | some x =>
        have hat := hsome x hx
        rwa [if_neg (h x hx)] at hat
    exact ⟨(fillScreenLines_layout hline s startIndex hdryEnd).1, hlast ▸ hnotes,
      fun max _ i _ => cellsAt_le hline hwide s dry startIndex max i, hsorted,
      linesUpTo_sorted hsorted⟩

/-- A letter on every other line, and two screen lines of them. -/
theorem fillScreenLines_limited_iff_letters :
    LimitedAgrees ⟨8, 4⟩ (initialScreen fun i => if i % 2 = 0 then 97 else newline) 0 2 10 2 :=
  (fillScreenLines_limited_iff ⟨by decide, by decide, by decide⟩ (by decide) (by decide)
    (by decide) (by decide) (by decide)).mpr (by decide +kernel)

/-- Two tabs on a line of five glyphs: the second one goes on in the next screen line, and with a
limit of one screen line the pass ends behind it. -/
theorem fillScreenLines_limited_split :
    ¬ ∀ (g : Geometry) (s : Screen) (dry startIndex e limit : Nat), g.Admitted →
      4 ≤ g.glyphsPerLine → dry ≤ startIndex → startIndex ≤ e → 1 ≤ limit →
      limit ≤ g.glyphsPerColumn → LimitedAgrees g s dry startIndex e limit := by
  intro h
  have hagrees := h ⟨5, 4⟩ (initialScreen fun _ => tab) 0 0 2 1 ⟨by decide, by decide, by decide⟩
    (by decide) (by decide) (by decide) (by decide) (by decide)
  have hlines : linesUpTo 0 1 (fillStarts ⟨5, 4⟩ (initialScreen fun _ => tab) 0 2) ++
      [(lineAfter? 0 1 (fillStarts ⟨5, 4⟩ (initialScreen fun _ => tab) 0 2)).getD 2] = [0, 1] := by
    decide +kernel
  have hentry := hagrees.limited.ring 1 1 (by rw [hlines]; rfl) (by rw [hlines]; decide +kernel)
  revert hentry
  decide +kernel

end Agree

end Homegrown.Freestanding
