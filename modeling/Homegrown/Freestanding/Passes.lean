import Homegrown.Freestanding.Drawing

/-!
# Passes of the layout

A pass of `fillScreenLines` notes the screen lines of the layout up to its end, or up to where it
may not note the next one. With every screen line it notes the length of its logical line before
it, from which `drawLines` goes on.
-/

namespace Homegrown.Freestanding

/-! ## The glyphs before a screen line -/

/-- The rings hold how many glyphs of its logical line come before every screen line. -/
structure FillLens (g : Geometry) (s : Screen) (dry : Nat) (f : Fill) (starts : List Nat) :
    Prop where
  ring : RingHolds g.ringGlyphsPerColumn f.logicalLineLens (starts.map (lenAt g s.charAt dry))
  index : f.currentScreenLineIndex = (starts.length - 1) % g.ringGlyphsPerColumn
  pos : 0 < starts.length
  untouched : ∀ i, starts.length ≤ i → i < g.ringGlyphsPerColumn →
    f.logicalLineLens i = s.logicalLineLens i

/-- The length that lies behind those that were noted: an older one, or one that is left from the
pass before. -/
def lenLeft (g : Geometry) (s : Screen) (dry : Nat) (starts : List Nat) : Nat :=
  if starts.length < g.ringGlyphsPerColumn then s.logicalLineLens starts.length
  else lenAt g s.charAt dry (starts.getD (starts.length - g.ringGlyphsPerColumn) 0)

section Lens

variable {g : Geometry} {s : Screen} {f f' : Fill} {starts : List Nat} {startIndex dry i n : Nat}

/-- The lengths depend on two fields. -/
theorem FillLens.congr (h : FillLens g s dry f starts)
    (hlens : f'.logicalLineLens = f.logicalLineLens)
    (hindex : f'.currentScreenLineIndex = f.currentScreenLineIndex) :
    FillLens g s dry f' starts :=
  ⟨by rw [hlens]; exact h.ring, hindex.trans h.index, h.pos, by rw [hlens]; exact h.untouched⟩

/-- The length of one more line is noted. -/
theorem FillLens.nextScreenLine (h : FillLens g s dry f starts) {len : Nat}
    (hlen : len = lenAt g s.charAt dry i) :
    FillLens g s dry (f.nextScreenLine g startIndex i len) (starts ++ [i]) := by
  have hpos := h.pos
  have hnext : ringIncrement f.currentScreenLineIndex g.ringGlyphsPerColumn =
      starts.length % g.ringGlyphsPerColumn := by
    rw [h.index, ringIncrement_mod, Nat.sub_add_cancel hpos]
  refine ⟨?_, ?_, by simp, fun k hk hlt => ?_⟩
  · have hpush : RingHolds g.ringGlyphsPerColumn _
        (starts.map (lenAt g s.charAt dry) ++ [lenAt g s.charAt dry i]) := h.ring.push
    rw [List.length_map, ← hnext, ← hlen] at hpush
    rw [List.map_append, List.map_singleton, ← hlen]
    exact hpush
  · rw [List.length_append, List.length_singleton, Nat.add_sub_cancel]
    exact hnext
  · rw [List.length_append, List.length_singleton] at hk
    have hne : k ≠ ringIncrement f.currentScreenLineIndex g.ringGlyphsPerColumn := by
      rw [hnext, Nat.mod_eq_of_lt (by omega)]
      omega
    exact (Function.update_of_ne hne _ _).trans (h.untouched k (by omega) hlt)

/-- A character of the layout. -/
theorem FillLens.fillChar (h : FillLens g s dry f starts)
    (hlen : f.pen.Overflows g (s.charAt i) → f.currentLogicalLineLen +
      extraSpacePreviousLine g f.currentGlyphLen = lenAt g s.charAt dry i) :
    FillLens g s dry (fillChar g s startIndex 0 i f)
      (starts ++ if f.pen.Overflows g (s.charAt i) then [i] else []) := by
  by_cases hover : f.pen.Overflows g (s.charAt i)
  · have hnext : FillLens g s dry (f.nextScreenLine g startIndex i _) (starts ++ [i]) :=
      h.nextScreenLine (hlen hover)
    obtain ⟨htab, hlong⟩ := hover
    have hzero : ¬ s.charAt i = 0 := by
      rw [htab]
      decide
    have hnewline : ¬ s.charAt i = newline := by
      rw [htab]
      decide
    rw [if_pos ⟨htab, hlong⟩, Freestanding.fillChar, if_neg hzero, if_neg hnewline, if_pos htab]
    dsimp only
    rw [if_neg (show ¬ (f.currentGlyphLen + additionalSpace f.currentLogicalLineLen) % 2 ^ 16 ≤
      g.glyphsPerLine from not_le.mpr hlong), if_neg (by simp)]
    exact hnext.congr rfl rfl
  · rw [if_neg hover, List.append_nil]
    unfold Freestanding.fillChar
    dsimp only
    split
    · exact h
    · split
      · exact h.congr rfl rfl
      · split
        · rename_i htab
          rw [if_pos (show (f.currentGlyphLen + additionalSpace f.currentLogicalLineLen) % 2 ^ 16 ≤
            g.glyphsPerLine from not_lt.mp fun hlong => hover ⟨htab, hlong⟩)]
          exact h.congr rfl rfl
        · exact h.congr rfl rfl

/-- A round of the layout. -/
theorem FillLens.fillStep (hline : 4 ≤ g.glyphsPerLine) (h : FillLens g s dry f starts)
    (hpen : f.pen = penAt g s.charAt dry i) :
    FillLens g s dry (fillStep g s startIndex i f)
      (starts ++ if Breaks g s.charAt dry i then [i] else []) := by
  have hbreaks : Breaks g s.charAt dry i ↔
      f.toNext = true ∨ f.pen.turn.Overflows g (s.charAt i) := by
    rw [Breaks, ← hpen]
    exact Iff.rfl
  have hstep (f₁ : Fill) (starts₁ : List Nat) (h₁ : FillLens g s dry f₁ starts₁)
      (hpen₁ : f₁.pen = f.pen.turn)
      (hstarts : starts₁ ++ (if f₁.pen.Overflows g (s.charAt i) then [i] else []) =
        starts ++ if Breaks g s.charAt dry i then [i] else []) :
      FillLens g s dry (Freestanding.fillChar g s startIndex 0 i f₁)
        (starts ++ if Breaks g s.charAt dry i then [i] else []) := by
    rw [← hstarts]
    refine h₁.fillChar fun hover => ?_
    rw [hpen₁, hpen] at hover
    have hnext : ¬ (penAt g s.charAt dry i).toNext = true := by
      intro hnext
      rw [turn_of_toNext hnext] at hover
      exact not_overflows hline rfl hover
    rw [lenAt, if_pos hover]
    rw [hpen, turn_of_not_toNext hnext] at hpen₁
    rw [← hpen₁]
    rfl
  unfold Freestanding.fillStep
  dsimp only
  split
  · rename_i hnext
    have hlen : f.currentLogicalLineLen = lenAt g s.charAt dry i := by
      rw [lenAt, ← hpen, turn_of_toNext (p := f.pen) hnext, if_neg (not_overflows hline rfl)]
      rfl
    have hnoted : FillLens g s dry (f.nextScreenLine g startIndex i f.currentLogicalLineLen)
        (starts ++ [i]) := h.nextScreenLine hlen
    refine hstep _ (starts ++ [i]) (hnoted.congr rfl rfl) ?_ ?_
    · rw [turn_of_toNext (p := f.pen) hnext]
      rfl
    · rw [if_neg (not_overflows hline rfl), if_pos (hbreaks.mpr (.inl hnext)), List.append_nil]
  · rename_i hnext
    have hturn : f.pen.turn = f.pen := turn_of_not_toNext hnext
    have hiff : f.pen.Overflows g (s.charAt i) ↔ Breaks g s.charAt dry i := by
      rw [hbreaks, hturn]
      exact ⟨.inr, fun h => h.resolve_left hnext⟩
    exact hstep _ starts (h.congr rfl rfl) hturn.symm
      (congrArg (starts ++ ·) (if_congr hiff rfl rfl))

/-- The layout up to a position. -/
theorem FillLens.fillLoop (hline : 4 ≤ g.glyphsPerLine) (n : Nat) (h : FillLens g s dry f starts)
    (hnotes : FillNotes g startIndex f starts) (hdry : dry ≤ i)
    (hpen : f.pen = penAt g s.charAt dry i) :
    FillLens g s dry (fillLoop g s startIndex 0 n i f).2
      (starts ++ (List.range' i n).filter fun j => Breaks g s.charAt dry j) := by
  induction n generalizing i f starts with
  | zero =>
    rw [List.range'_zero, List.filter_nil, List.append_nil]
    exact h
  | succ n ih =>
    obtain ⟨hpen₁, hnotes₁⟩ := hnotes.fillStep hline hdry hpen
    rw [filter_breaks_succ, fillLoop_succ, ← List.append_assoc]
    exact ih (h.fillStep hline hpen) hnotes₁ (by omega) hpen₁

/-- At the start the first line is noted. -/
theorem fillLens_fillStart (hline : 4 ≤ g.glyphsPerLine) (s : Screen) (dry startIndex : Nat) :
    FillLens g s dry (fillStart s dry startIndex) [dry] := by
  have hzero : lenAt g s.charAt dry dry = 0 := by
    rw [lenAt, penAt_of_le le_rfl]
    exact if_neg (not_overflows hline rfl)
  have hholds : FillHolds g (fillStart s dry startIndex) [(dry, 0)] := fillHolds_fillStart
  refine ⟨?_, hholds.index, Nat.one_pos, fun i hi _ => ?_⟩
  · rw [List.map_singleton, hzero]
    exact hholds.lens
  · rw [List.length_singleton] at hi
    exact Function.update_of_ne (show i ≠ 0 by omega) _ _

/-- The length that is passed on with a screen line. -/
theorem FillLens.get (h : FillLens g s dry f starts) {m : Nat} (hm : 0 < m)
    (hlength : m ≤ starts.length) (hring : m < g.ringGlyphsPerColumn) :
    f.logicalLineLens (ringMinus (starts.length % g.ringGlyphsPerColumn) m g.ringGlyphsPerColumn) =
      lenAt g s.charAt dry (starts.getD (starts.length - m) 0) := by
  have hlt : starts.length - m < (starts.map (lenAt g s.charAt dry)).length := by
    rw [List.length_map]
    omega
  rw [ringMinus_mod (by omega) hlength, h.ring.get hlt (by rw [List.length_map]; omega),
    List.getElem_map, List.getD_eq_getElem]

/-- The length behind those that were noted. -/
theorem FillLens.get_left (h : FillLens g s dry f starts) (hring : 0 < g.ringGlyphsPerColumn) :
    f.logicalLineLens (starts.length % g.ringGlyphsPerColumn) = lenLeft g s dry starts := by
  rw [lenLeft]
  split
  · rename_i hlt
    rw [Nat.mod_eq_of_lt hlt]
    exact h.untouched _ le_rfl hlt
  · rename_i hge
    have hlt : starts.length - g.ringGlyphsPerColumn <
        (starts.map (lenAt g s.charAt dry)).length := by
      rw [List.length_map]
      have hpos := h.pos
      omega
    rw [Nat.mod_eq_sub_mod (not_lt.mp hge), h.ring.get hlt (by rw [List.length_map]; omega),
      List.getElem_map, List.getD_eq_getElem]

/-- The lengths of the loop are those of the result. -/
theorem FillLens.result_get (h : FillLens g s dry f starts)
    (hnotes : FillNotes g startIndex f starts) (last : Nat) {m : Nat} (hm : 0 < m)
    (hlength : m ≤ starts.length) (hring : m < g.ringGlyphsPerColumn) :
    (f.result g last).logicalLineLens
        (ringMinus (f.result g last).currentScreenLineIndex m g.ringGlyphsPerColumn) =
      lenAt g s.charAt dry (starts.getD (starts.length - m) 0) := by
  rw [(hnotes.result last).index]
  exact h.get hm hlength hring

/-- And so is the one behind them. -/
theorem FillLens.result_get_left (h : FillLens g s dry f starts)
    (hnotes : FillNotes g startIndex f starts) (last : Nat) (hring : 0 < g.ringGlyphsPerColumn) :
    (f.result g last).logicalLineLens (f.result g last).currentScreenLineIndex =
      lenLeft g s dry starts := by
  rw [(hnotes.result last).index]
  exact h.get_left hring

/-- The screen lines that the result counts were noted. -/
theorem FillNotes.written_le (h : FillNotes g startIndex f starts) (last : Nat) :
    (f.result g last).realScreenLinesWritten ≤ min starts.length g.glyphsPerColumn := by
  refine min_le_min ?_ le_rfl
  rw [h.count]
  exact (Nat.mod_le _ _).trans List.countP_le_length

end Lens

/-! ## Passes -/

/-- The cells before a character when `fillScreenLines` comes to it. -/
def columnAt (g : Geometry) (s : Screen)
    (dryStartIndex startIndex maxNewScreenLinesToFill i : Nat) :
    Nat :=
  (fillLoop g s startIndex maxNewScreenLinesToFill (i - dryStartIndex) dryStartIndex
    (fillStart s dryStartIndex startIndex)).2.column

/-- A pass of `fillScreenLines`: it has noted the screen lines of the layout that begin before a
position, where it ends or leaves out a tab. -/
structure Passes (g : Geometry) (s : Screen) (dry first e limit stop last : Nat) : Prop where
  bounds : dry ≤ stop ∧ stop ≤ last ∧ last ≤ e
  notes : (fillScreenLines g s dry first e limit).Notes g (fillStarts g s dry stop) last
  written : (fillScreenLines g s dry first e limit).realScreenLinesWritten ≤
    min (fillStarts g s dry stop).length g.glyphsPerColumn
  lens : ∀ m, 0 < m → m ≤ (fillStarts g s dry stop).length → m < g.ringGlyphsPerColumn →
    (fillScreenLines g s dry first e limit).logicalLineLens
        (ringMinus (fillScreenLines g s dry first e limit).currentScreenLineIndex m
          g.ringGlyphsPerColumn) =
      lenAt g s.charAt dry
        ((fillStarts g s dry stop).getD ((fillStarts g s dry stop).length - m) 0)
  lenLeft : (fillScreenLines g s dry first e limit).logicalLineLens
      (fillScreenLines g s dry first e limit).currentScreenLineIndex =
    lenLeft g s dry (fillStarts g s dry stop)
  columns : ∀ i, dry ≤ i → i ≤ stop →
    columnAt g s dry first limit i = (penAt g s.charAt dry i).turn.glyphLen
  ends : stop = e ∨ ∃ f : Fill, f.pen = penAt g s.charAt dry stop ∧
    Breaks g s.charAt dry stop ∧ (limit ≠ 0 ∧ limit ≤ f.screenLinesInWindow) ∧
    (0 < g.glyphsPerColumn → 0 < (fillScreenLines g s dry first e limit).realScreenLinesWritten) ∧
    last = (fillLoop g s first limit (e - stop) stop f).1 ∧
    ∀ i, stop ≤ i → columnAt g s dry first limit i =
      (fillLoop g s first limit (i - stop) stop f).2.column

section Pass

variable {g : Geometry} {s : Screen} {f : Fill} {dry first e limit stop last i : Nat}

/-- The column is where the pen is after its turn. -/
theorem Fill.column_eq (f : Fill) : f.column = f.pen.turn.glyphLen := by
  by_cases hnext : f.toNext = true
  · rw [Fill.column, if_pos hnext, turn_of_toNext (p := f.pen) hnext]
  · rw [Fill.column, if_neg hnext, turn_of_not_toNext (p := f.pen) hnext]
    rfl

/-- The loop does not go beyond the characters it was given. -/
theorem fillLoop_le {startIndex : Nat} (left : Nat) :
    (fillLoop g s startIndex limit left i f).1 ≤ i + left := by
  induction left generalizing i f with
  | zero => exact le_rfl
  | succ left ih =>
    rw [fillLoop]
    dsimp only
    split
    · split
      · exact Nat.le_add_right _ _
      · exact ih.trans (by omega)
    · exact ih.trans (by omega)

/-- Where a pass ends or stops to note screen lines. -/
theorem exists_stop (hline : 4 ≤ g.glyphsPerLine) (s : Screen) (dry first : Nat)
    (hlimit : limit < 2 ^ 16) (left : Nat) : ∃ n ≤ left,
      (∀ m ≤ n, fillLoop g s first limit m dry (fillStart s dry first) =
        fillLoop g s first 0 m dry (fillStart s dry first)) ∧
      (n = left ∨ n < left ∧ limit ≠ 0 ∧ Breaks g s.charAt dry (dry + n) ∧
        (fillStarts g s dry (dry + n)).countP (first ≤ ·) = limit) := by
  rcases Nat.eq_zero_or_pos limit with rfl | hpos
  · exact ⟨left, le_rfl, fun m _ => rfl, .inl rfl⟩
  · have hone : [dry].countP (first ≤ ·) ≤ limit := List.countP_le_length.trans hpos
    obtain ⟨n, hn, -, hsame, hrun⟩ := fillLoop_limited hline hlimit left
      (fillNotes_fillStart g s dry first) hone le_rfl (pen_fillStart g s dry first)
    refine ⟨n, hn, hsame, hrun.imp_right fun ⟨hlt, hfull, hbreak⟩ => ⟨hlt, by omega, hbreak, ?_⟩⟩
    rw [← hfull, ← fillStarts_add]

/-- Where a limit has changed nothing the column is the one of the layout. -/
theorem columnAt_eq (hline : 4 ≤ g.glyphsPerLine) (hi : dry ≤ i)
    (hsame : fillLoop g s first limit (i - dry) dry (fillStart s dry first) =
      fillLoop g s first 0 (i - dry) dry (fillStart s dry first)) :
    columnAt g s dry first limit i = (penAt g s.charAt dry i).turn.glyphLen := by
  obtain ⟨-, hpen, -⟩ := fillLoop_fillStart hline s dry first (i - dry)
  rw [Nat.add_sub_cancel' hi] at hpen
  rw [columnAt, hsame, Fill.column_eq, hpen]

/-- Every pass is one of these. -/
theorem exists_passes (hg : g.Admitted) (hline : 4 ≤ g.glyphsPerLine) (s : Screen) (first : Nat)
    (hdry : dry ≤ e) (hlimit : limit < 2 ^ 16) :
    ∃ stop last, Passes g s dry first e limit stop last := by
  have hring : 0 < g.ringGlyphsPerColumn := (Nat.zero_le _).trans_lt hg.ring.1
  obtain ⟨n, hn, hsame, hrun⟩ := exists_stop hline s dry first hlimit (e - dry)
  -- The pass up to there is one without a limit.
  obtain ⟨hat, hpen, hnotes⟩ := fillLoop_fillStart hline s dry first n
  have hlens := (fillLens_fillStart hline s dry first).fillLoop hline n
    (fillNotes_fillStart g s dry first) le_rfl (pen_fillStart g s dry first)
  rw [fillStarts_add] at hlens
  rw [← hsame n le_rfl] at hat hpen hnotes hlens
  have hcolumns : ∀ i, dry ≤ i → i ≤ dry + n →
      columnAt g s dry first limit i = (penAt g s.charAt dry i).turn.glyphLen :=
    fun i hi hle => columnAt_eq hline hi (hsame _ (by omega))
  have hr := fillScreenLines_eq g s dry first e limit
  rcases hrun with rfl | ⟨hlt, hzero, hbreak, hfull⟩
  · have hall : dry + (e - dry) = e := Nat.add_sub_cancel' hdry
    rw [hat] at hr
    exact ⟨_, _, ⟨⟨Nat.le_add_right _ _, le_rfl, hall.le⟩, hr ▸ hnotes.result _,
      hr ▸ hnotes.written_le _, fun m hm hle hm' => hr ▸ hlens.result_get hnotes _ hm hle hm',
      hr ▸ hlens.result_get_left hnotes _ hring, hcolumns, .inl hall⟩⟩
  · have hadd (left : Nat) := fillLoop_add hat left
    generalize (fillLoop g s first limit n dry (fillStart s dry first)).2 = f at *
    have hatLimit : limit ≠ 0 ∧ limit ≤ f.screenLinesInWindow := by
      rw [hnotes.count, hfull, Nat.mod_eq_of_lt hlimit]
      exact ⟨hzero, le_rfl⟩
    obtain ⟨hpast, -, hlens₁, hindex, hwindow⟩ := fillLoop_full (g := g) (s := s) (f := f)
      (i := dry + n) hatLimit (e - (dry + n))
    have hnotes' := hnotes.fillLoop_full (s := s) (i := dry + n) hatLimit (e - (dry + n))
    have hlens' := hlens.congr hlens₁ hindex
    rw [show e - dry = n + (e - (dry + n)) by omega, hadd] at hr
    have hle : (fillLoop g s first limit (e - (dry + n)) (dry + n) f).1 ≤
      dry + n + (e - (dry + n)) := fillLoop_le _
    refine ⟨_, _, ⟨⟨Nat.le_add_right _ _, hpast, by omega⟩, hr ▸ hnotes'.result _,
      hr ▸ hnotes'.written_le _, fun m hm hle hm' => hr ▸ hlens'.result_get hnotes' _ hm hle hm',
      hr ▸ hlens'.result_get_left hnotes' _ hring, hcolumns,
      .inr ⟨f, hpen, hbreak, hatLimit, fun hcolumn => ?_, rfl, fun i hi => ?_⟩⟩⟩
    · rw [hr, Fill.result]
      dsimp only
      rw [hwindow]
      exact lt_min (by omega) hcolumn
    · rw [columnAt, show i - dry = n + (i - (dry + n)) by omega, hadd]

/-- A pass without a limit ends where it is told to. -/
theorem Passes.of_unlimited (h : Passes g s dry first e 0 stop last) : stop = e ∧ last = e := by
  obtain ⟨-, hle, hle'⟩ := h.bounds
  rcases h.ends with hstop | ⟨_, _, _, hlimit, _⟩
  · exact ⟨hstop, by omega⟩
  · exact absurd rfl hlimit.1

end Pass


end Homegrown.Freestanding
