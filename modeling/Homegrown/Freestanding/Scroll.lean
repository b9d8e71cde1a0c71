import Homegrown.Freestanding.Limit
import Homegrown.Freestanding.Window

/-!
# Scrolling back and forth

While the window shows screen lines of the text that follow each other, and text is laid out from
a logical line on, `rewind` moves the window up by the screen lines that it laid out, and `prowind`
down by those behind the window. They are inverse to each other with the exceptions that
`scrollsBackAndForth_iff` lists: `rewind` goes back by no more screen lines than the screen has, and
no more than it laid out; `prowind` of no screen line goes to the end; and a limited pass does not
end before a screen line that begins within a tab.
-/

namespace Homegrown.Freestanding

/-! ## The screen lines of a text -/

/-- Where the screen lines of a text begin between two positions. -/
def linesBetween (g : Geometry) (stored : List U8) (q e : Nat) : List Nat :=
  (List.range' q (e - q)).filter fun i => Begins g stored i

/-- Where the screen lines of a text begin, and its end. -/
def lineEntries (g : Geometry) (stored : List U8) : List Nat :=
  screenStarts g stored 0 ++ [stored.length]

section Lines

variable {g : Geometry} {s : Screen} {stored : List U8} {q e l a b x : Nat}

/-- Lines in two parts of the text. -/
theorem linesBetween_append (hq : q ≤ e) (he : e ≤ l) :
    linesBetween g stored q e ++ linesBetween g stored e l = linesBetween g stored q l := by
  have happend : List.range' q (e - q) ++ List.range' (q + (e - q)) (l - e) =
      List.range' q (e - q + (l - e)) := List.range'_append_1
  rw [Nat.add_sub_cancel' hq, show e - q + (l - e) = l - q by omega] at happend
  rw [linesBetween, linesBetween, linesBetween, ← happend, List.filter_append]

/-- The lines between two places are those that begin there. -/
theorem mem_linesBetween : x ∈ linesBetween g stored q e ↔
    (q ≤ x ∧ x < e) ∧ Begins g stored x := by
  rw [linesBetween, List.mem_filter, List.mem_range'_1, decide_eq_true_iff]
  refine and_congr_left fun _ => ?_
  omega

/-- There are no more lines than characters. -/
theorem length_linesBetween_le : (linesBetween g stored q e).length ≤ e - q := by
  refine (List.length_filter_le _ _).trans_eq ?_
  rw [List.length_range']

/-- The entries rise. -/
theorem lineEntries_sorted : (lineEntries g stored).Pairwise (· < ·) := by
  refine List.pairwise_append.mpr ⟨screenStarts_sorted, List.pairwise_singleton _ _, ?_⟩
  intro x hx y hy
  rw [List.mem_singleton.mp hy]
  exact (mem_screenStarts.mp hx).1.2

/-- An entry has behind it the screen lines that begin before it. -/
theorem lineEntries_of_mem (h : e ∈ lineEntries g stored) :
    e ≤ stored.length ∧ ∃ after,
      lineEntries g stored = linesBetween g stored 0 e ++ e :: after ∧
        linesBetween g stored e stored.length ++ [stored.length] = e :: after := by
  obtain ⟨hle, after, hafter⟩ : e ≤ stored.length ∧ ∃ after,
      linesBetween g stored e stored.length ++ [stored.length] = e :: after := by
    rcases List.mem_append.mp h with hmem | hmem
    · obtain ⟨⟨-, hlt⟩, hbegins⟩ := mem_screenStarts.mp hmem
      obtain ⟨n, hn⟩ : ∃ n, stored.length - e = n + 1 := ⟨stored.length - e - 1, by omega⟩
      refine ⟨hlt.le, (List.range' (e + 1) n).filter (fun i => Begins g stored i) ++
        [stored.length], ?_⟩
      rw [linesBetween, hn, List.range'_succ, List.filter_cons, if_pos (decide_eq_true hbegins),
        List.cons_append]
    · obtain rfl := List.mem_singleton.mp hmem
      refine ⟨le_rfl, [], ?_⟩
      rw [linesBetween, Nat.sub_self, List.range'_zero, List.filter_nil, List.nil_append]
  refine ⟨hle, after, ?_, hafter⟩
  rw [← hafter, ← List.append_assoc, linesBetween_append (Nat.zero_le e) hle]
  rfl

/-- An entry comes behind the lines that begin before it. -/
theorem lineEntries_getElem? (h : e ∈ lineEntries g stored) :
    (lineEntries g stored)[(linesBetween g stored 0 e).length]? = some e := by
  obtain ⟨-, after, hsplit, -⟩ := lineEntries_of_mem h
  rw [hsplit, List.getElem?_append_right le_rfl, Nat.sub_self]
  rfl

/-- Entries are all different. -/
theorem lineEntries_inj (ha : (lineEntries g stored)[a]? = some e)
    (hb : (lineEntries g stored)[b]? = some e) : a = b := by
  obtain ⟨ha, hea⟩ := List.getElem?_eq_some_iff.mp ha
  obtain ⟨hb, heb⟩ := List.getElem?_eq_some_iff.mp hb
  have hnodup : (lineEntries g stored).Nodup := lineEntries_sorted.imp fun hlt => hlt.ne
  exact (List.getElem_inj hnodup).mp (hea.trans heb.symm)

/-- The place of an entry is how many screen lines begin before it. -/
theorem length_linesBetween (h : (lineEntries g stored)[a]? = some e) :
    (linesBetween g stored 0 e).length = a :=
  lineEntries_inj (lineEntries_getElem? (List.mem_of_getElem? h)) h

/-- From a logical line on that the buffer holds, `fillScreenLines` notes the screen lines of the
text. -/
theorem fillStarts_of_lineBegins (hline : 4 ≤ g.glyphsPerLine) (h : Stored s stored)
    (hq : LineBegins stored q) (hlt : q < e) (he : e ≤ stored.length)
    (hheld : stored.length ≤ q + fileBufLen) :
    fillStarts g s q e = linesBetween g stored q e := by
  have hchar (i : Nat) (hge : q ≤ i) (hi : i < stored.length) :
      s.charAt i = textAt stored i := by
    rw [h.charAt hi (by omega), textAt, List.getD_eq_getElem _ _ hi]
  obtain ⟨n, hn⟩ : ∃ n, e - q = n + 1 := ⟨e - q - 1, by omega⟩
  rw [fillStarts, linesBetween, hn, List.range'_succ, List.filter_cons, List.filter_cons,
    if_neg (by simpa using not_breaks_start hline), if_pos (decide_eq_true hq.begins)]
  congr 1
  refine List.filter_congr fun i hi => ?_
  have hi := List.mem_range'_1.mp hi
  have hbreaks : Breaks g s.charAt q i ↔ Breaks g (textAt stored) q i :=
    breaks_congr (fun j hj hji => hchar j hj (by omega)) (by omega)
  have hne : i ≠ q := by omega
  rw [decide_eq_decide, hbreaks, begins_iff hq (by omega), or_iff_right hne]

/-- From a logical line on that the buffer holds, a screen line begins within a tab where it does in
the text. -/
theorem splitsTab_text (h : Stored s stored) (hq : LineBegins stored q) (hx : q ≤ x)
    (hlt : x < stored.length) (hheld : stored.length ≤ q + fileBufLen) :
    SplitsTab g s.charAt q x ↔ SplitsTab g (textAt stored) 0 x := by
  have hchar (i : Nat) (hge : q ≤ i) (hi : i ≤ x) : s.charAt i = textAt stored i := by
    rw [h.charAt (show i < stored.length by omega) (by omega), textAt,
      List.getD_eq_getElem _ _ (by omega)]
  rw [SplitsTab, SplitsTab, penAt_congr hchar, hchar x hx le_rfl,
    (penAt_of_lineBegins hq (Nat.zero_le q) hx).1]

end Lines

/-! ## The window in the text -/

/-- The window shows screen lines that follow each other, behind so many others. -/
def ShowsLines (g : Geometry) (s : Screen) (stored : List U8) (a : Nat) : Prop :=
  ∀ j ≤ g.glyphsPerColumn, (lineEntries g stored)[a + j]? = some (windowEntry g s j)

/-- Text before a position is laid out from a logical line on, and the buffer holds it. -/
structure ParsesLine (g : Geometry) (stored : List U8) (e needed : Nat) : Prop where
  line : LineBegins stored (parseStart g stored e needed)
  held : stored.length ≤ parseStart g stored e needed + fileBufLen

/-- What it takes for a parse to lay out the line. -/
theorem parsesLine_iff {g : Geometry} {stored : List U8} {e needed : Nat} :
    ParsesLine g stored e needed ↔ LineBegins stored (parseStart g stored e needed) ∧
      stored.length ≤ parseStart g stored e needed + fileBufLen :=
  ⟨fun h => ⟨h.line, h.held⟩, fun h => ⟨h.1, h.2⟩⟩

instance (g : Geometry) (stored : List U8) (e needed : Nat) :
    Decidable (ParsesLine g stored e needed) :=
  decidable_of_iff' _ parsesLine_iff

section Window

variable {g : Geometry} {s : Screen} {stored : List U8} {a n : Nat}

/-- Later entries of the window are later in the text. -/
theorem ShowsLines.lt (h : ShowsLines g s stored a) {j k : Nat} (hjk : j < k)
    (hk : k ≤ g.glyphsPerColumn) : windowEntry g s j < windowEntry g s k := by
  obtain ⟨hj', hj⟩ := List.getElem?_eq_some_iff.mp (h j (by omega))
  obtain ⟨hk', hk⟩ := List.getElem?_eq_some_iff.mp (h k hk)
  rw [← hj, ← hk]
  exact List.pairwise_iff_getElem.mp lineEntries_sorted _ _ _ _ (by omega)

/-- Such a window is not smaller than the screen. -/
theorem ShowsLines.not_small (h : ShowsLines g s stored a) (hcolumn : 0 < g.glyphsPerColumn)
    (hindex : s.oldestScreenLineIndex < g.ringGlyphsPerColumn) :
    ¬ isWindowSmallerThanScreen g s = true := by
  have hlt := h.lt hcolumn le_rfl
  rw [isWindowSmallerThanScreen, decide_eq_true_iff, ← windowEntry_zero hindex]
  exact not_le.mpr hlt

/-- The window when screen lines have been copied in front of it. -/
theorem windowEntry_up (hg : g.Admitted) {s' : Screen} {copy : Nat → Nat} {m src j : Nat}
    (hm : m ≤ g.glyphsPerColumn) (hlines : s'.screenLines = spliceScreenLines g s.screenLines copy
      (ringMinus s.oldestScreenLineIndex m g.ringGlyphsPerColumn) src m)
    (hindex : s'.oldestScreenLineIndex = ringMinus s.oldestScreenLineIndex m g.ringGlyphsPerColumn)
    (hj : j ≤ g.glyphsPerColumn) : windowEntry g s' j =
      if j < m then copy (ringPlus src j g.ringGlyphsPerColumn) else windowEntry g s (j - m) := by
  have hring := hg.ring.1
  rw [windowEntry, hlines, hindex]
  split
  · rename_i hlt
    exact spliceScreenLines_of_lt hlt (by omega)
  · rename_i hge
    have hplace : ringPlus (ringMinus s.oldestScreenLineIndex m g.ringGlyphsPerColumn) j
        g.ringGlyphsPerColumn = ringPlus s.oldestScreenLineIndex (j - m) g.ringGlyphsPerColumn := by
      rw [ringPlus, ringPlus, ringMinus, Nat.mod_add_mod,
        Nat.mod_eq_of_lt (show m < g.ringGlyphsPerColumn by omega),
        show s.oldestScreenLineIndex + (g.ringGlyphsPerColumn - m) + j =
          s.oldestScreenLineIndex + (j - m) + g.ringGlyphsPerColumn by omega, Nat.add_mod_right]
    rw [windowEntry, ← hplace]
    exact spliceScreenLines_of_ne fun k hk => (mod_ne_of_lt (by omega) (by omega)).symm

/-- The pass of `rewind` notes the screen lines between the parse and the window. -/
theorem ParsesLine.fills {top : Nat} (hparse : ParsesLine g stored top n)
    (hline : 4 ≤ g.glyphsPerLine) (hin : InText g s stored) (htop : top < stored.length)
    (hne : parseStart g stored top n ≠ top) :
    let dry := parseStart g stored top n
    let r := fillScreenLines g s dry dry top 0
    r.Notes g (linesBetween g stored dry top) top ∧
      r.realScreenLinesWritten =
        min (linesBetween g stored dry top).length g.glyphsPerColumn := by
  intro dry r
  obtain ⟨hdryLine, hheld⟩ := hparse
  have hfull : fileBufLen = 2 ^ 16 := rfl
  have hle : dry ≤ top := parseStart_le
  have hlt : dry < top := lt_of_le_of_ne hle hne
  have hlen : (linesBetween g stored dry top).length ≤ top - dry := length_linesBetween_le
  have hlenLt : (linesBetween g stored dry top).length < 2 ^ 16 := by
    have hback : top < dry + fileBufLen := htop.trans_le hheld
    generalize dry = start at *
    omega
  have hlines := fillStarts_of_lineBegins hline hin.stored hdryLine hlt htop.le hheld
  obtain ⟨hnotes, hreal, -⟩ := fillScreenLines_layout hline s dry hle
  have hall : (linesBetween g stored dry top).countP (dry ≤ ·) =
      (linesBetween g stored dry top).length :=
    List.countP_eq_length.mpr fun x hx => decide_eq_true (mem_linesBetween.mp hx).1.1
  rw [hlines] at hnotes hreal
  rw [hall, Nat.mod_eq_of_lt hlenLt] at hreal
  exact ⟨hnotes, hreal⟩

/-- How far `rewind` moves the window up. -/
def linesRewound (g : Geometry) (s : Screen) (stored : List U8) (n : Nat) : Nat :=
  let top := windowEntry g s 0
  min (min (linesBetween g stored (parseStart g stored top n) top).length g.glyphsPerColumn) n

/-- `rewind` moves the window up by the screen lines that it laid out, but no further than a
screen. -/
theorem ShowsLines.rewind (hg : g.Admitted) (hline : 4 ≤ g.glyphsPerLine)
    (hcolumn : 0 < g.glyphsPerColumn) (hin : InText g s stored) (h : ShowsLines g s stored a)
    (hparse : ParsesLine g stored (windowEntry g s 0) n) :
    linesRewound g s stored n ≤ a ∧
      ShowsLines g (rewind g s n).1 stored (a - linesRewound g s stored n) ∧
      ∀ j, linesRewound g s stored n ≤ j → j ≤ g.glyphsPerColumn →
        windowEntry g (Freestanding.rewind g s n).1 j =
          windowEntry g s (j - linesRewound g s stored n) := by
  have hring := hg.ring.1
  have htop : s.screenLines s.oldestScreenLineIndex = windowEntry g s 0 :=
    (windowEntry_zero hin.index).symm
  have hsmall := h.not_small hcolumn hin.index
  have hcount := length_linesBetween (h 0 (Nat.zero_le _))
  obtain ⟨-, after, hsplit, -⟩ :=
    lineEntries_of_mem (List.mem_of_getElem? (h 0 (Nat.zero_le _)))
  rw [Nat.add_zero] at hcount
  have hbehind : windowEntry g s 0 < stored.length :=
    ((h.lt hcolumn le_rfl).trans_le (hin.lines _)).trans_eq hin.stored.charCount
  have hfills := hparse.fills hline hin hbehind
  have hle : parseStart g stored (windowEntry g s 0) n ≤ windowEntry g s 0 := parseStart_le
  have hbefore : linesBetween g stored 0 (parseStart g stored (windowEntry g s 0) n) ++
      linesBetween g stored (parseStart g stored (windowEntry g s 0) n) (windowEntry g s 0) =
        linesBetween g stored 0 (windowEntry g s 0) := linesBetween_append (Nat.zero_le _) hle
  have hlen : (linesBetween g stored (parseStart g stored (windowEntry g s 0) n)
      (windowEntry g s 0)).length ≤ _ := length_linesBetween_le
  unfold Freestanding.rewind
  simp only [hin.stored.oldestCharToParse, htop, linesRewound]
  rw [if_neg hsmall]
  generalize hdry : parseStart g stored (windowEntry g s 0) n = dry at *
  generalize htopEq : windowEntry g s 0 = top at *
  by_cases hsame : dry = top
  · rw [if_pos hsame, show (linesBetween g stored dry top).length = 0 by omega, Nat.zero_min,
      Nat.zero_min]
    exact ⟨Nat.zero_le _, h, fun j _ _ => rfl⟩
  rw [if_neg hsame]
  obtain ⟨hnotes, hreal⟩ := hfills hsame
  rw [← hbefore] at hcount hsplit
  rw [List.length_append] at hcount
  rw [hreal]
  generalize fillScreenLines g s dry dry top 0 = r at *
  generalize linesBetween g stored dry top = lines at *
  generalize hm : min (min lines.length g.glyphsPerColumn) n = m
  have hmLe : m ≤ lines.length ∧ m ≤ g.glyphsPerColumn := by omega
  -- The entries from the `m`-th last screen line that was laid out on, and then the old ones.
  have hentry (j : Nat) (hj : j ≤ g.glyphsPerColumn) : windowEntry g
      { s with
        oldestScreenLineIndex := ringMinus s.oldestScreenLineIndex m g.ringGlyphsPerColumn
        screenLines := spliceScreenLines g s.screenLines r.screenLinesCopy
          (ringMinus s.oldestScreenLineIndex m g.ringGlyphsPerColumn)
          (ringMinus r.currentScreenLineIndex m g.ringGlyphsPerColumn) m
        screenLinesCopy := r.screenLinesCopy
        logicalLineLens := r.logicalLineLens
        isTailing := false
        lastScreenlineOpen := false } j =
      if j < m then r.screenLinesCopy (ringPlus (ringMinus r.currentScreenLineIndex m
        g.ringGlyphsPerColumn) j g.ringGlyphsPerColumn) else windowEntry g s (j - m) :=
    windowEntry_up hg hmLe.2 rfl rfl hj
  refine ⟨by omega, fun j hj => ?_, fun j hmj hj => (hentry j hj).trans (if_neg (by omega))⟩
  refine Eq.trans ?_ (congrArg some (hentry j hj)).symm
  split
  · rename_i hjm
    have hlast : (lines ++ [top]).length = lines.length + 1 := List.length_append
    have hfromEnd := entry_fromEnd hnotes.ring (show m < (lines ++ [top]).length by omega)
      (by omega) (show j ≤ m by omega)
    rw [hlast, Nat.add_sub_cancel, ← hnotes.index] at hfromEnd
    rw [← hfromEnd, hsplit, List.append_assoc, List.getElem?_append_right (by omega),
      List.getElem?_append_left (by omega), List.getElem?_append_left (by omega)]
    congr 1
    omega
  · rename_i hjm
    rw [show a - m + j = a + (j - m) by omega]
    exact h (j - m) (by omega)

/-- Behind the end of the text there is nothing to go to. -/
theorem prowind_of_end (hin : InText g s stored)
    (hend : windowEntry g s g.glyphsPerColumn = stored.length) (n : Nat) :
    prowind g s n = (s, []) := by
  have houtside : s.screenLines (ringPlus s.oldestScreenLineIndex g.glyphsPerColumn
    g.ringGlyphsPerColumn) = windowEntry g s g.glyphsPerColumn := rfl
  unfold prowind
  simp only [houtside]
  rw [if_pos (hin.stored.charCount.trans hend.symm), ite_self]

/-- The window after `prowind`: the entries behind the lines that move out of it, and the screen
lines that were laid out. -/
theorem prowind_window (hg : g.Admitted) (hin : InText g s stored)
    (hsmall : ¬ isWindowSmallerThanScreen g s = true) {e : Nat}
    (he : windowEntry g s g.glyphsPerColumn = e) (hend : e < stored.length) (n : Nat) :
    let s' := (prowind g s n).1
    let r := fillScreenLines g s (parseStart g stored e 0) e stored.length n
    s'.isTailing = decide (windowEntry g s' g.glyphsPerColumn = stored.length) ∧
      s'.lastScreenlineOpen = !r.lastLineDone ∧
      ∀ starts last, r.Notes g starts last → r.realScreenLinesWritten ≤ starts.length →
        r.realScreenLinesWritten ≤ g.glyphsPerColumn → ∀ j ≤ g.glyphsPerColumn,
          windowEntry g s' j = if j < g.glyphsPerColumn - r.realScreenLinesWritten then
            windowEntry g s (r.realScreenLinesWritten + j)
          else (starts ++ [last]).getD (starts.length + j - g.glyphsPerColumn) 0 := by
  subst he
  have houtside : s.screenLines (ringPlus s.oldestScreenLineIndex g.glyphsPerColumn
      g.ringGlyphsPerColumn) = windowEntry g s g.glyphsPerColumn := rfl
  unfold prowind
  simp only [hin.stored.oldestCharToParse, houtside]
  rw [if_neg hsmall, if_neg (by rw [hin.stored.charCount]; omega), hin.stored.charCount]
  refine ⟨rfl, rfl, fun starts last hnotes hwritten hcolumn j hj => ?_⟩
  have hplace (w : Nat) : ringPlus (ringPlus s.oldestScreenLineIndex w g.ringGlyphsPerColumn) j
      g.ringGlyphsPerColumn = ringPlus s.oldestScreenLineIndex (w + j) g.ringGlyphsPerColumn := by
    rw [ringPlus, ringPlus, ringPlus, Nat.mod_add_mod, Nat.add_assoc]
  rw [windowEntry_splice hg hnotes hwritten hcolumn rfl rfl hj, hplace]
  rfl

/-- The screen lines that a pass of `prowind` may note behind the window. -/
def linesAhead (g : Geometry) (stored : List U8) (e n : Nat) : Nat :=
  if n = 0 then (linesBetween g stored e stored.length).length
  else min n (linesBetween g stored e stored.length).length

/-- `prowind` notes screen lines of the text, up to its limit. -/
theorem prowind_pass (hline : 4 ≤ g.glyphsPerLine) (hstored : Stored s stored) {e : Nat}
    (hn : n < 2 ^ 16) (he : e < stored.length) (hparse : ParsesLine g stored e 0) :
    let dry := parseStart g stored e 0
    let behind := linesBetween g stored e stored.length
    let r := fillScreenLines g s dry e stored.length n
    ∃ last, r.Notes g (linesBetween g stored dry e ++ behind.take (linesAhead g stored e n)) last ∧
      r.realScreenLinesWritten = min (linesAhead g stored e n % 2 ^ 16) g.glyphsPerColumn ∧
      (behind[linesAhead g stored e n]? = none →
        last = stored.length ∧ r.lastLineDone = (penAt g s.charAt dry stored.length).toNext) ∧
      ∀ x, behind[linesAhead g stored e n]? = some x →
        if SplitsTab g (textAt stored) 0 x then x < last else last = x := by
  intro dry behind r
  obtain ⟨hdryLine, hheld⟩ := hparse
  have hle : dry ≤ e := parseStart_le
  have hstarts : fillStarts g s dry stored.length = linesBetween g stored dry e ++ behind := by
    rw [fillStarts_of_lineBegins hline hstored hdryLine (by omega) le_rfl hheld]
    exact (linesBetween_append hle he.le).symm
  have hbefore : ∀ x ∈ linesBetween g stored dry e, x < e := fun x hx =>
    (mem_linesBetween.mp hx).1.2
  have hbehind : ∀ x ∈ behind, e ≤ x := fun x hx => (mem_linesBetween.mp hx).1.1
  rcases Nat.eq_zero_or_pos n with rfl | hpos
  · have hahead : linesAhead g stored e 0 = behind.length := if_pos rfl
    obtain ⟨hnotes, hreal, hdone⟩ := fillScreenLines_layout hline s e (show dry ≤ stored.length by
      omega)
    have hcount : (linesBetween g stored dry e ++ behind).countP (e ≤ ·) = behind.length := by
      rw [List.countP_append, List.countP_eq_zero.mpr fun x hx => by simpa using hbefore x hx,
        Nat.zero_add]
      exact List.countP_eq_length.mpr fun x hx => decide_eq_true (hbehind x hx)
    rw [hstarts] at hnotes hreal
    rw [hcount] at hreal
    rw [hahead, List.take_length]
    refine ⟨_, hnotes, hreal, fun _ => ⟨rfl, hdone⟩, fun x hx => ?_⟩
    rw [List.getElem?_eq_none le_rfl] at hx
    cases hx
  · have hahead : linesAhead g stored e n = min n behind.length := if_neg hpos.ne'
    obtain ⟨last, hnotes, hreal, hnone, hsome⟩ := fillScreenLines_limited hline hpos hn s hle he.le
    have hfirst : (linesBetween g stored dry e ++ behind).countP (· < e) =
        (linesBetween g stored dry e).length := by
      have hnone : behind.countP (· < e) = 0 :=
        List.countP_eq_zero.mpr fun x hx => by simpa using hbehind x hx
      rw [List.countP_append, hnone, Nat.add_zero]
      exact List.countP_eq_length.mpr fun x hx => decide_eq_true (hbefore x hx)
    have hupTo : linesUpTo e n (linesBetween g stored dry e ++ behind) =
        linesBetween g stored dry e ++ behind.take (min n behind.length) := by
      rw [linesUpTo, hfirst, List.take_length_add_append, List.take_eq_take_min]
    have hafter : lineAfter? e n (linesBetween g stored dry e ++ behind) =
        behind[min n behind.length]? := by
      rw [lineAfter?, hfirst, List.getElem?_append_right (Nat.le_add_right _ _),
        Nat.add_sub_cancel_left]
      rcases Nat.le_total n behind.length with hle | hge
      · rw [min_eq_left hle]
      · rw [min_eq_right hge, List.getElem?_eq_none hge, List.getElem?_eq_none le_rfl]
    have hcount : (linesBetween g stored dry e ++ behind.take (min n behind.length)).countP
        (e ≤ ·) = min n behind.length := by
      rw [List.countP_append, List.countP_eq_zero.mpr fun x hx => by simpa using hbefore x hx,
        Nat.zero_add, List.countP_eq_length.mpr fun x hx =>
          decide_eq_true (hbehind x (List.mem_of_mem_take hx)), List.length_take]
      omega
    rw [hstarts, hupTo] at hnotes hreal
    rw [hstarts, hafter] at hnone
    rw [hcount] at hreal
    rw [hahead, Nat.mod_eq_of_lt (by omega)]
    refine ⟨last, hnotes, hreal, hnone, fun x hx => ?_⟩
    have hx' := hsome x (by rw [hstarts, hafter, hx])
    have hmem := mem_linesBetween.mp (List.mem_of_getElem? hx)
    have hsplits := splitsTab_text (g := g) hstored hdryLine (hle.trans hmem.1.1) hmem.1.2 hheld
    exact (if_congr hsplits rfl rfl).mp hx'

/-- No more lines are ahead than there are. -/
theorem linesAhead_le (g : Geometry) (stored : List U8) (e n : Nat) :
    linesAhead g stored e n ≤ (linesBetween g stored e stored.length).length := by
  rw [linesAhead]
  split
  · exact le_rfl
  · exact min_le_right _ _

/-- The window of `prowind` ends where the pass did. -/
theorem prowind_last (hg : g.Admitted) (hline : 4 ≤ g.glyphsPerLine) (hin : InText g s stored)
    (hsmall : ¬ isWindowSmallerThanScreen g s = true) (hn : n < 2 ^ 16) {e : Nat}
    (he : windowEntry g s g.glyphsPerColumn = e) (hend : e < stored.length)
    (hparse : ParsesLine g stored e 0) :
    let behind := linesBetween g stored e stored.length
    let last := windowEntry g (prowind g s n).1 g.glyphsPerColumn
    (behind[linesAhead g stored e n]? = none → last = stored.length) ∧
      ∀ x, behind[linesAhead g stored e n]? = some x →
        if SplitsTab g (textAt stored) 0 x then x < last else last = x := by
  obtain ⟨-, -, hwindow⟩ := prowind_window hg hin hsmall he hend n
  obtain ⟨last, hnotes, hreal, hnone, hsome⟩ := prowind_pass hline hin.stored hn hend hparse
  have hahead := linesAhead_le g stored e n
  have hmod := Nat.mod_le (linesAhead g stored e n) (2 ^ 16)
  have hlength : (linesBetween g stored (parseStart g stored e 0) e ++
      (linesBetween g stored e stored.length).take (linesAhead g stored e n)).length =
        (linesBetween g stored (parseStart g stored e 0) e).length + linesAhead g stored e n := by
    rw [List.length_append, List.length_take, min_eq_left hahead]
  have hlast := hwindow _ _ hnotes (by omega) (by omega) _ le_rfl
  rw [if_neg (by omega), Nat.add_sub_cancel, List.getD_append_right _ _ _ _ le_rfl,
    Nat.sub_self] at hlast
  rw [hlast]
  exact ⟨fun h => (hnone h).1, hsome⟩

/-- A window of screen lines that ends with the text shows its end. -/
theorem ShowsLines.showsEnd (h : ShowsLines g s stored a) (hin : InText g s stored)
    (htailing : s.isTailing = true) (hend : windowEntry g s g.glyphsPerColumn = stored.length)
    (hclosed : 0 < g.glyphsPerColumn → stored = [] ∨ stored.getLast? = some newline →
      s.lastScreenlineOpen = false) : ShowsEnd g s stored := by
  refine ⟨hin, htailing, fun j hj => ?_, hclosed⟩
  have hlast := h g.glyphsPerColumn le_rfl
  rw [hend] at hlast
  have hcount : (screenStarts g stored 0).length = a + g.glyphsPerColumn :=
    length_linesBetween hlast
  rw [shownEntry_of_le (by omega), List.getD_eq_getElem?_getD,
    show (screenStarts g stored 0).length + j - g.glyphsPerColumn = a + j by omega]
  exact (congrArg (Option.getD · 0) (h j hj)).symm

/-- A window at the end shows the last lines. -/
theorem ShowsEnd.showsLines (h : ShowsEnd g s stored)
    (hlines : g.glyphsPerColumn ≤ (screenStarts g stored 0).length) :
    ShowsLines g s stored ((screenStarts g stored 0).length - g.glyphsPerColumn) := by
  intro j hj
  have hlen : (lineEntries g stored).length = (screenStarts g stored 0).length + 1 :=
    List.length_append
  rw [h.entries j hj, shownEntry_of_le (by omega), ← lineEntries, List.getD_eq_getElem?_getD,
    List.getElem?_eq_getElem (by omega), List.getElem?_eq_getElem (by omega), Option.getD_some]
  congr 2
  omega

/-- What was noted up to some screen line is a part of all entries. -/
theorem getElem?_noted {lead noted behind : List Nat} {c i last length : Nat}
    (hc : c ≤ behind.length) (hlast : (behind ++ [length])[c]? = some last)
    (hi : i ≤ noted.length + c) : (lead ++ noted ++ (behind ++ [length]))[lead.length + i]? =
      some ((noted ++ behind.take c ++ [last]).getD i 0) := by
  have hcut : behind ++ [length] =
      behind.take c ++ ([last] ++ (behind ++ [length]).drop (c + 1)) := by
    obtain ⟨hlt, hget⟩ := List.getElem?_eq_some_iff.mp hlast
    have htake : (behind ++ [length]).take c = behind.take c := List.take_append_of_le_length hc
    rw [← htake, ← hget, List.singleton_append,
      ← List.drop_eq_getElem_cons hlt, List.take_append_drop]
  have hlength : (noted ++ behind.take c ++ [last]).length = noted.length + c + 1 := by
    rw [List.length_append, List.length_append, List.length_take, min_eq_left hc,
      List.length_singleton]
  rw [hcut, List.append_assoc, List.getElem?_append_right (Nat.le_add_right _ _),
    Nat.add_sub_cancel_left, ← List.append_assoc, ← List.append_assoc,
    List.getElem?_append_left (by omega), List.getElem?_eq_getElem (by omega),
    List.getD_eq_getElem _ _ (by omega)]

/-- `prowind` moves the window down by the screen lines behind it, up to its limit, if the next one
does not begin within a tab. -/
theorem ShowsLines.prowind (hg : g.Admitted) (hline : 4 ≤ g.glyphsPerLine)
    (hcolumn : 0 < g.glyphsPerColumn) (hin : InText g s stored) (h : ShowsLines g s stored a)
    (hn : n < 2 ^ 16) {e : Nat} (he : windowEntry g s g.glyphsPerColumn = e)
    (hend : e < stored.length) (hparse : ParsesLine g stored e 0)
    (hcount : linesAhead g stored e n < 2 ^ 16)
    (hsplits : ∀ x, (linesBetween g stored e stored.length)[linesAhead g stored e n]? = some x →
      ¬ SplitsTab g (textAt stored) 0 x) :
    ShowsLines g (prowind g s n).1 stored (a + linesAhead g stored e n) ∧
      ((prowind g s n).1.isTailing = true → ShowsEnd g (prowind g s n).1 stored) := by
  have hsmall := h.not_small hcolumn hin.index
  obtain ⟨htailing, hopen, hwindow⟩ := prowind_window hg hin hsmall he hend n
  obtain ⟨last, hnotes, hreal, hnone, hsome⟩ := prowind_pass hline hin.stored hn hend hparse
  have hat := h _ le_rfl
  rw [he] at hat
  have hbefore := length_linesBetween hat
  obtain ⟨-, after, hsplit, hafter⟩ := lineEntries_of_mem (List.mem_of_getElem? hat)
  have hdry : parseStart g stored e 0 ≤ e := parseStart_le
  have hlead : linesBetween g stored 0 (parseStart g stored e 0) ++
      linesBetween g stored (parseStart g stored e 0) e = linesBetween g stored 0 e :=
    linesBetween_append (Nat.zero_le _) hdry
  have hc := linesAhead_le g stored e n
  obtain ⟨-, hsomeLast⟩ := prowind_last hg hline hin hsmall hn he hend hparse
  rw [← hafter, ← hlead] at hsplit
  rw [← hlead, List.length_append] at hbefore
  rw [Nat.mod_eq_of_lt hcount] at hreal
  generalize parseStart g stored e 0 = dry at *
  generalize linesAhead g stored e n = c at *
  have hlast : (linesBetween g stored e stored.length ++ [stored.length])[c]? = some last := by
    cases hx : (linesBetween g stored e stored.length)[c]? with
    | none =>
      have hge := List.getElem?_eq_none_iff.mp hx
      rw [(hnone hx).1, List.getElem?_append_right hge, Nat.sub_eq_zero_of_le hc]
      rfl
    | some x =>
      have hat := hsome x hx
      rw [if_neg (hsplits x hx)] at hat
      rw [List.getElem?_append_left (List.getElem?_eq_some_iff.mp hx).1, hx, hat]
  have hlength : (linesBetween g stored dry e ++
      (linesBetween g stored e stored.length).take c).length =
        (linesBetween g stored dry e).length + c := by
    rw [List.length_append, List.length_take, min_eq_left hc]
  have hentry := hwindow _ _ hnotes (by omega) (by omega)
  rw [hreal] at hentry
  have hshows : ShowsLines g (Freestanding.prowind g s n).1 stored (a + c) := by
    intro j hj
    rw [hentry j hj]
    split
    · rw [min_eq_left (by omega), Nat.add_assoc]
      exact h _ (by omega)
    · rw [← getElem?_noted hc hlast (by omega), ← hsplit]
      congr 1
      omega
  refine ⟨hshows, fun htail => ?_⟩
  rw [htailing, decide_eq_true_iff] at htail
  have hin' : InText g (Freestanding.prowind g s n).1 stored := by
    rcases prowind_readsFrom hg hin n with ⟨hsame, -⟩ | ⟨-, hfrom, -⟩
    · exact absurd hsame (not_or.mpr ⟨hsmall, fun h => hend.ne' (hin.stored.charCount ▸ h ▸ he)⟩)
    · exact hfrom.inText
  refine hshows.showsEnd hin' ?_ htail ?_
  · rw [htailing, decide_eq_true_iff]
    exact htail
  · rintro - (rfl | hnewline)
    · exact absurd hend (Nat.not_lt_zero e)
    -- The pass has come to the end of the text.
    · have hnoneLeft : (linesBetween g stored e stored.length)[c]? = none := by
        by_contra hne
        obtain ⟨x, hx⟩ := Option.ne_none_iff_exists'.mp hne
        have hat := hsomeLast x hx
        rw [if_neg (hsplits x hx), htail] at hat
        have hmem := mem_linesBetween.mp (List.mem_of_getElem? hx)
        omega
      rw [hopen, (hnone hnoneLeft).2, toNext_of_getLast? hin.stored (by omega) hnewline]
      rfl

end Window

/-! ## Back and forth -/

/-- `rewind` moves the top of the window up by so many screen lines, and `prowind` of as many shows
the window again. -/
structure ScrollsBackAndForth (g : Geometry) (s : Screen) (stored : List U8) (n : Nat) : Prop where
  up : ∃ k, (lineEntries g stored)[k]? = some (windowEntry g (rewind g s n).1 0) ∧
    (lineEntries g stored)[k + n]? = some (windowEntry g s 0)
  restored : visibleWindow g (prowind g (rewind g s n).1 n).1 = visibleWindow g s

/-- So many screen lines are no more than the screen has, and no more than `rewind` lays out; and
the window ends with the text, or they are some and it does not end within a tab. -/
structure WithinReach (g : Geometry) (s : Screen) (stored : List U8) (n : Nat) : Prop where
  column : n ≤ g.glyphsPerColumn
  lines : n ≤ (linesBetween g stored (parseStart g stored (windowEntry g s 0) n)
    (windowEntry g s 0)).length
  forward : windowEntry g s g.glyphsPerColumn = stored.length ∨
    0 < n ∧ ¬ SplitsTab g (textAt stored) 0 (windowEntry g s g.glyphsPerColumn)

section Scroll

variable {g : Geometry} {s s' : Screen} {stored : List U8} {a n : Nat}

/-- Two windows on the same lines show the same. -/
theorem ShowsLines.visibleWindow_eq (h : ShowsLines g s stored a) (h' : ShowsLines g s' stored a) :
    visibleWindow g s' = visibleWindow g s := by
  refine List.map_congr_left fun j hj => ?_
  have hle : j ≤ g.glyphsPerColumn := Nat.le_of_lt_succ (List.mem_range.mp hj)
  exact Option.some.inj ((h' j hle).symm.trans (h j hle))

/-- Windows that show the same have the same entries. -/
theorem windowEntry_of_visibleWindow_eq (h : visibleWindow g s' = visibleWindow g s) {j : Nat}
    (hj : j ≤ g.glyphsPerColumn) : windowEntry g s' j = windowEntry g s j :=
  List.map_inj_left.mp h j (List.mem_range.mpr (Nat.lt_succ_of_le hj))

/-- Scrolling back stays in the text. -/
theorem InText.rewind (hg : g.Admitted) (h : InText g s stored) (n : Nat) :
    InText g (rewind g s n).1 stored := by
  rcases rewind_readsFrom hg h n with ⟨-, hsame⟩ | ⟨-, hfrom, -⟩
  · rw [hsame]
    exact h
  · exact hfrom.inText

/-- So does scrolling forth. -/
theorem InText.prowind (hg : g.Admitted) (h : InText g s stored) (n : Nat) :
    InText g (prowind g s n).1 stored := by
  rcases prowind_readsFrom hg h n with ⟨-, hsame⟩ | ⟨-, hfrom, -⟩
  · rw [hsame]
    exact h
  · exact hfrom.inText

/-- The screen line that follows so many entries behind another one. -/
theorem linesBetween_getElem? {e x k : Nat} (he : (lineEntries g stored)[k]? = some e)
    (hx : (lineEntries g stored)[k + n]? = some x) :
    (linesBetween g stored e stored.length ++ [stored.length])[n]? = some x := by
  have hcount := length_linesBetween he
  obtain ⟨-, after, hsplit, hafter⟩ := lineEntries_of_mem (List.mem_of_getElem? he)
  rw [hafter, ← hx, hsplit, List.getElem?_append_right (by omega)]
  congr 1
  omega

/-- A window that shows the same shows the same lines. -/
theorem ShowsLines.of_visibleWindow_eq (h : ShowsLines g s stored a)
    (heq : visibleWindow g s' = visibleWindow g s) : ShowsLines g s' stored a := by
  intro j hj
  rw [windowEntry_of_visibleWindow_eq heq hj]
  exact h j hj

/-- `prowind` moves a window down by so many screen lines exactly if it then ends with the text, or
not within a tab. -/
theorem ShowsLines.prowind_iff (hg : g.Admitted) (hline : 4 ≤ g.glyphsPerLine)
    (hcolumn : 0 < g.glyphsPerColumn) (hin : InText g s stored) (h : ShowsLines g s stored a)
    (hn : n < 2 ^ 16) (hparse : ParsesLine g stored (windowEntry g s g.glyphsPerColumn) 0) {x : Nat}
    (hx : (lineEntries g stored)[a + g.glyphsPerColumn + n]? = some x) :
    ShowsLines g (Freestanding.prowind g s n).1 stored (a + n) ↔
      x = stored.length ∨ 0 < n ∧ ¬ SplitsTab g (textAt stored) 0 x := by
  have hsmall := h.not_small hcolumn hin.index
  have hnext := linesBetween_getElem? (h _ le_rfl) hx
  have hle : windowEntry g s g.glyphsPerColumn ≤ stored.length :=
    (hin.lines _).trans_eq hin.stored.charCount
  have hshown (hafter : ShowsLines g (Freestanding.prowind g s n).1 stored (a + n)) :
      windowEntry g (Freestanding.prowind g s n).1 g.glyphsPerColumn = x := by
    have hat := hafter _ le_rfl
    rw [Nat.add_right_comm, hx] at hat
    exact (Option.some.inj hat).symm
  rcases Nat.eq_or_lt_of_le hle with hend | hend
  · -- Nothing follows the window.
    have hlen := (List.getElem?_eq_some_iff.mp hnext).1
    rw [hend, linesBetween, Nat.sub_self, List.range'_zero, List.filter_nil, List.nil_append]
      at hnext hlen
    obtain rfl : n = 0 := Nat.lt_one_iff.mp hlen
    rw [prowind_of_end hin hend]
    exact iff_of_true h (.inl (Option.some.inj hnext).symm)
  obtain ⟨hnone, hsome⟩ := prowind_last hg hline hin hsmall hn rfl hend hparse
  rcases Nat.eq_zero_or_pos n with rfl | hpos
  · -- Without a limit everything that follows the window is laid out.
    have hxEnd : x = windowEntry g s g.glyphsPerColumn :=
      Option.some.inj (hx.symm.trans (h _ le_rfl))
    have hlast := hnone (List.getElem?_eq_none (if_pos rfl).ge)
    refine iff_of_false (fun hafter => ?_) ?_
    · rw [hshown hafter] at hlast
      omega
    · omega
  have hlen := (List.getElem?_eq_some_iff.mp hnext).1
  rw [List.length_append, List.length_singleton] at hlen
  have hahead : linesAhead g stored (windowEntry g s g.glyphsPerColumn) n = n := by
    rw [linesAhead, if_neg hpos.ne']
    omega
  have hmoves (hsplits : ∀ y, (linesBetween g stored (windowEntry g s g.glyphsPerColumn)
      stored.length)[n]? = some y → ¬ SplitsTab g (textAt stored) 0 y) :
      ShowsLines g (Freestanding.prowind g s n).1 stored (a + n) := by
    have hafter := (h.prowind hg hline hcolumn hin hn rfl hend hparse (by omega)
      (by rwa [hahead])).1
    rwa [hahead] at hafter
  rw [hahead] at hsome
  rcases Nat.lt_or_ge n (linesBetween g stored (windowEntry g s g.glyphsPerColumn)
      stored.length).length with hlt | hge
  · rw [List.getElem?_append_left hlt] at hnext
    have hxlt := (mem_linesBetween.mp (List.mem_of_getElem? hnext)).1.2
    constructor
    · intro hafter
      refine .inr ⟨hpos, fun hsplit => ?_⟩
      have hpast := hsome x hnext
      rw [if_pos hsplit, hshown hafter] at hpast
      exact lt_irrefl x hpast
    · rintro (rfl | ⟨-, hsplit⟩)
      · exact absurd hxlt (lt_irrefl _)
      · refine hmoves fun y hy => ?_
        rw [← Option.some.inj (hnext.symm.trans hy)]
        exact hsplit
  · rw [List.getElem?_append_right hge, Nat.sub_eq_zero_of_le (by omega)] at hnext
    refine iff_of_true (hmoves fun y hy => ?_) (.inl (Option.some.inj hnext).symm)
    rw [List.getElem?_eq_none hge] at hy
    cases hy

/-- A window of screen lines comes back exactly if it is within reach. -/
theorem ShowsLines.scrollsBackAndForth_iff (hg : g.Admitted) (hline : 4 ≤ g.glyphsPerLine)
    (hcolumn : 0 < g.glyphsPerColumn) (hin : InText g s stored) (h : ShowsLines g s stored a)
    (hn : n < 2 ^ 16) (hback : ParsesLine g stored (windowEntry g s 0) n)
    (hforth : ParsesLine g stored (windowEntry g s (g.glyphsPerColumn - n)) 0) :
    ScrollsBackAndForth g s stored n ↔ WithinReach g s stored n := by
  obtain ⟨hma, hup, hold⟩ := h.rewind hg hline hcolumn hin hback
  have hmoved : linesRewound g s stored n = min (min (linesBetween g stored
    (parseStart g stored (windowEntry g s 0) n) (windowEntry g s 0)).length g.glyphsPerColumn) n :=
    rfl
  have hup_iff : (∃ k, (lineEntries g stored)[k]? =
        some (windowEntry g (Freestanding.rewind g s n).1 0) ∧
      (lineEntries g stored)[k + n]? = some (windowEntry g s 0)) ↔
        linesRewound g s stored n = n := by
    constructor
    · rintro ⟨k, hk, hkn⟩
      have hka := lineEntries_inj hk (hup 0 (Nat.zero_le _))
      have hna := lineEntries_inj hkn (h 0 (Nat.zero_le _))
      omega
    · intro hm
      rw [hm] at hma hup
      refine ⟨a - n, hup 0 (Nat.zero_le _), ?_⟩
      rw [Nat.sub_add_cancel hma]
      exact h 0 (Nat.zero_le _)
  have hrestored_iff (hm : linesRewound g s stored n = n) :
      visibleWindow g (Freestanding.prowind g (Freestanding.rewind g s n).1 n).1 =
          visibleWindow g s ↔
        windowEntry g s g.glyphsPerColumn = stored.length ∨
          0 < n ∧ ¬ SplitsTab g (textAt stored) 0 (windowEntry g s g.glyphsPerColumn) := by
    rw [hm] at hma hup hold
    have hends := hold g.glyphsPerColumn (by omega) le_rfl
    have hback_iff := hup.prowind_iff hg hline hcolumn (hin.rewind hg n) hn (hends ▸ hforth)
      (x := windowEntry g s g.glyphsPerColumn)
      (by rw [Nat.add_right_comm, Nat.sub_add_cancel hma]; exact h _ le_rfl)
    rw [Nat.sub_add_cancel hma] at hback_iff
    rw [← hback_iff]
    exact ⟨h.of_visibleWindow_eq, h.visibleWindow_eq⟩
  constructor
  · rintro ⟨hk, hrestored⟩
    have hm := hup_iff.mp hk
    exact ⟨by omega, by omega, (hrestored_iff hm).mp hrestored⟩
  · rintro ⟨hcol, hlines, hforward⟩
    have hm : linesRewound g s stored n = n := by omega
    exact ⟨hup_iff.mpr hm, (hrestored_iff hm).mpr hforward⟩

/-- A window that is not full of screen lines stays where it is. -/
theorem ShowsEnd.rewind_of_short (h : ShowsEnd g s stored)
    (hshort : g.glyphsPerColumn = 0 ∨ (screenStarts g stored 0).length < g.glyphsPerColumn)
    (n : Nat) : Freestanding.rewind g s n = (s, []) ∧ windowEntry g s 0 ∈ lineEntries g stored ∧
      (n ≤ g.glyphsPerColumn →
        n ≤ (linesBetween g stored (parseStart g stored (windowEntry g s 0) n)
        (windowEntry g s 0)).length → n = 0) := by
  have htop : s.screenLines s.oldestScreenLineIndex = windowEntry g s 0 :=
    (windowEntry_zero h.inText.index).symm
  rcases hshort with hzero | hshort
  · have hsmall : isWindowSmallerThanScreen g s = true := by
      rw [isWindowSmallerThanScreen, hzero, htop]
      exact decide_eq_true le_rfl
    have hlast : windowEntry g s 0 = stored.length := by
      rw [h.entries 0 (Nat.zero_le _), ← hzero, shownEntry_last]
    refine ⟨if_pos hsmall, ?_, fun hn _ => by omega⟩
    rw [hlast]
    exact List.mem_append_right _ (List.mem_singleton_self _)
  · have hzero : windowEntry g s 0 = 0 :=
      (h.entries 0 (Nat.zero_le _)).trans (shownEntry_of_lt hshort)
    have hparse : parseStart g stored 0 n = 0 := Nat.le_zero.mp parseStart_le
    rw [hzero, hparse]
    refine ⟨?_, ?_, fun _ hn => Nat.le_zero.mp hn⟩
    · unfold Freestanding.rewind
      simp only [h.inText.stored.oldestCharToParse, htop, hzero, hparse, if_true, ite_self]
    · rcases Nat.eq_zero_or_pos stored.length with hnil | hpos
      · rw [lineEntries, hnil]
        exact List.mem_append_right _ (List.mem_singleton_self _)
      · exact List.mem_append_left _ (mem_screenStarts.mpr ⟨⟨le_rfl, hpos⟩, .inl rfl⟩)

/-- Behind the last line of a window at the end is the end of the text. -/
theorem ShowsEnd.windowEntry_last (h : ShowsEnd g s stored) :
    windowEntry g s g.glyphsPerColumn = stored.length :=
  (h.entries _ le_rfl).trans shownEntry_last

/-! ## Runs -/

/-- The window shows the end of the text while the screen tails, and screen lines of it
otherwise. -/
def ShowsText (g : Geometry) (s : Screen) (stored : List U8) : Prop :=
  ShowsEnd g s stored ∨ 0 < g.glyphsPerColumn ∧ s.isTailing = false ∧ InText g s stored ∧
    ∃ a, ShowsLines g s stored a

/-- Scrolling back and forth leads to the same window exactly within reach. -/
theorem ShowsText.scrollsBackAndForth_iff (hg : g.Admitted) (hline : 4 ≤ g.glyphsPerLine)
    (h : ShowsText g s stored) (hn : n < 2 ^ 16) (hback : ParsesLine g stored (windowEntry g s 0) n)
    (hforth : ParsesLine g stored (windowEntry g s (g.glyphsPerColumn - n)) 0) :
    ScrollsBackAndForth g s stored n ↔ WithinReach g s stored n := by
  have hlines (hcolumn : 0 < g.glyphsPerColumn) (hin : InText g s stored) {a : Nat}
      (hshows : ShowsLines g s stored a) :=
    hshows.scrollsBackAndForth_iff hg hline hcolumn hin hn hback hforth
  rcases h with h | ⟨hcolumn, -, hin, a, hshows⟩
  · by_cases hshort : g.glyphsPerColumn = 0 ∨ (screenStarts g stored 0).length < g.glyphsPerColumn
    · obtain ⟨hrewind, hmem, hnone⟩ := h.rewind_of_short hshort n
      have hat := lineEntries_getElem? hmem
      have hprowind := prowind_of_end h.inText h.windowEntry_last n
      constructor
      · rintro ⟨⟨k, hk, hkn⟩, -⟩
        rw [hrewind] at hk
        have hka := lineEntries_inj hk hat
        have hna := lineEntries_inj hkn hat
        exact ⟨by omega, by omega, .inl h.windowEntry_last⟩
      · rintro ⟨hcol, hle, -⟩
        obtain rfl := hnone hcol hle
        refine ⟨⟨_, ?_, hat⟩, ?_⟩
        · rw [hrewind]
          exact hat
        · rw [hrewind, hprowind]
    · rw [not_or, not_lt] at hshort
      exact hlines (Nat.pos_of_ne_zero hshort.1) h.inText (h.showsLines hshort.2)
  · exact hlines hcolumn hin hshows

end Scroll

/-- A flush at the tail stores text and reaches back, and another one does not go on in the screen
line that the window ends with; a scroll lays out text from a logical line on, and `prowind` does
not stop before a screen line that begins within a tab. -/
def ScreenStep.KeepsLines (g : Geometry) (step : ScreenStep) : Prop :=
  let s := step.screen
  let stored := step.stored
  let outside := windowEntry g s g.glyphsPerColumn
  match step.call with
  | .flushToScreen buffer =>
    if s.isTailing then
      storedChars buffer ≠ [] ∧ ReachesBack g stored (stored ++ storedChars buffer)
    else outside < stored.length ∨ storedChars buffer = [] ∨
      Begins g (stored ++ storedChars buffer) stored.length
  | .rewind numberOfScreenLines =>
    ParsesLine g stored (windowEntry g s 0) numberOfScreenLines.toNat
  | .prowind numberOfScreenLines =>
    let ahead := linesAhead g stored outside numberOfScreenLines.toNat
    outside = stored.length ∨ ParsesLine g stored outside 0 ∧ ahead < 2 ^ 16 ∧
      ∀ x ∈ (linesBetween g stored outside stored.length)[ahead]?,
        ¬ SplitsTab g (textAt stored) 0 x

section

variable {g : Geometry} {s : Screen} {stored buffer : List U8} {n : U16}

/-- What a flush needs while the window shows the end. -/
theorem ScreenStep.keepsLines_of_tailing (h : s.isTailing = true) :
    ScreenStep.KeepsLines g ⟨s, stored, .flushToScreen buffer⟩ ↔ storedChars buffer ≠ [] ∧
      ReachesBack g stored (stored ++ storedChars buffer) := by
  unfold ScreenStep.KeepsLines
  dsimp only
  rw [if_pos h]

/-- What a flush needs while the window is scrolled back. -/
theorem ScreenStep.keepsLines_of_not_tailing (h : s.isTailing = false) :
    ScreenStep.KeepsLines g ⟨s, stored, .flushToScreen buffer⟩ ↔
      windowEntry g s g.glyphsPerColumn < stored.length ∨ storedChars buffer = [] ∨
        Begins g (stored ++ storedChars buffer) stored.length := by
  unfold ScreenStep.KeepsLines
  dsimp only
  rw [if_neg (ne_true_of_eq_false h)]

/-- What scrolling back needs. -/
theorem ScreenStep.keepsLines_rewind : ScreenStep.KeepsLines g ⟨s, stored, .rewind n⟩ ↔
    ParsesLine g stored (windowEntry g s 0) n.toNat :=
  Iff.rfl

/-- What scrolling forth needs. -/
theorem ScreenStep.keepsLines_prowind : ScreenStep.KeepsLines g ⟨s, stored, .prowind n⟩ ↔
    let outside := windowEntry g s g.glyphsPerColumn
    let ahead := linesAhead g stored outside n.toNat
    outside = stored.length ∨ ParsesLine g stored outside 0 ∧ ahead < 2 ^ 16 ∧
      ∀ x ∈ (linesBetween g stored outside stored.length)[ahead]?,
        ¬ SplitsTab g (textAt stored) 0 x :=
  Iff.rfl

end

instance decidableKeepsLines (g : Geometry) : (step : ScreenStep) →
    Decidable (ScreenStep.KeepsLines g step)
  | ⟨s, stored, .flushToScreen buffer⟩ =>
    inferInstanceAs (Decidable (if s.isTailing then storedChars buffer ≠ [] ∧
      ReachesBack g stored (stored ++ storedChars buffer)
    else windowEntry g s g.glyphsPerColumn < stored.length ∨ storedChars buffer = [] ∨
      Begins g (stored ++ storedChars buffer) stored.length))
  | ⟨s, stored, .rewind n⟩ =>
    inferInstanceAs (Decidable (ParsesLine g stored (windowEntry g s 0) n.toNat))
  | ⟨s, stored, .prowind _⟩ =>
    inferInstanceAs (Decidable (windowEntry g s g.glyphsPerColumn = stored.length ∨ _ ∧ _ ∧ _))

/-- The screen after a run. -/
def runScreen (g : Geometry) (s : Screen) (calls : List ScreenCall) : Screen :=
  calls.foldl (fun s call => (call.run g s).1) s

section Run

variable {g : Geometry} {s : Screen} {stored chunk : List U8} {a : Nat}

/-- What is stored later leaves the window behind the same screen lines. -/
theorem ShowsLines.foldl (h : ShowsLines g s stored a)
    (hend : windowEntry g s g.glyphsPerColumn < stored.length ∨ chunk = [] ∨
      Begins g (stored ++ chunk) stored.length) :
    ShowsLines g (chunk.foldl storeChar s) (stored ++ chunk) a := by
  obtain ⟨hlines, hindex, -, -⟩ := foldl_storeChar_window chunk s
  have hlength : (stored ++ chunk).length = stored.length + chunk.length := List.length_append
  intro j hj
  have hentry : windowEntry g (chunk.foldl storeChar s) j = windowEntry g s j := by
    rw [windowEntry, windowEntry, hlines, hindex]
  rw [hentry]
  have hat := h j hj
  have hle : windowEntry g s j ≤ stored.length :=
    (lineEntries_of_mem (List.mem_of_getElem? hat)).1
  have hmem : windowEntry g s j ∈ lineEntries g (stored ++ chunk) := by
    rcases Nat.eq_or_lt_of_le hle with heq | hlt
    · have hlast : ¬ windowEntry g s g.glyphsPerColumn < stored.length := by
        rcases Nat.eq_or_lt_of_le hj with rfl | hlt
        · exact heq.not_lt
        · have hbehind := h.lt hlt le_rfl
          omega
      rw [heq]
      rcases hend.resolve_left hlast with hnil | hbegins
      · rw [hnil, List.append_nil]
        exact List.mem_append_right _ (List.mem_singleton_self _)
      · rcases Nat.eq_zero_or_pos chunk.length with hzero | hpos
        · rw [List.eq_nil_of_length_eq_zero hzero, List.append_nil]
          exact List.mem_append_right _ (List.mem_singleton_self _)
        · exact List.mem_append_left _ (mem_screenStarts.mpr ⟨⟨Nat.zero_le _, by omega⟩, hbegins⟩)
    · rcases List.mem_append.mp (List.mem_of_getElem? hat) with hmem | hmem
      · refine List.mem_append_left _ (mem_screenStarts.mpr ⟨⟨Nat.zero_le _, by omega⟩, ?_⟩)
        exact (begins_append hlt).mpr (mem_screenStarts.mp hmem).2
      · exact absurd (List.mem_singleton.mp hmem) hlt.ne
  have hbefore : linesBetween g (stored ++ chunk) 0 (windowEntry g s j) =
      linesBetween g stored 0 (windowEntry g s j) := by
    refine List.filter_congr fun i hi => ?_
    have hi := (List.mem_range'_1.mp hi).2
    rw [decide_eq_decide]
    exact begins_append (by omega)
  rw [← length_linesBetween hat, ← hbefore]
  exact lineEntries_getElem? hmem

/-- Scrolling back does nothing, or leaves the end. -/
theorem rewind_isTailing (g : Geometry) (s : Screen) (n : Nat) :
    rewind g s n = (s, []) ∨ (rewind g s n).1.isTailing = false := by
  unfold rewind
  dsimp only
  split
  · exact .inl rfl
  · split
    · exact .inl rfl
    · exact .inr rfl

/-- A call that keeps the screen lines shows text of the screen again. -/
theorem ShowsText.step (hg : g.Admitted) (hline : 4 ≤ g.glyphsPerLine) (h : ShowsText g s stored)
    (call : ScreenCall) (hcount : stored.length + call.chars.length < 2 ^ 64)
    (hkeeps : ScreenStep.KeepsLines g ⟨s, stored, call⟩) :
    ShowsText g (call.run g s).1 (stored ++ call.chars) := by
  cases call with
  | flushToScreen buffer =>
    rw [ScreenCall.chars_flushToScreen] at hcount ⊢
    have htailing := (foldl_storeChar_window (storedChars buffer) s).2.2.1
    rw [ScreenCall.run_flushToScreen, htailing]
    rcases h with h | ⟨hcolumn, htail, hin, a, h⟩
    · obtain ⟨hne, hreach⟩ := (ScreenStep.keepsLines_of_tailing h.isTailing).mp hkeeps
      rw [if_pos h.isTailing]
      have hlength : (stored ++ storedChars buffer).length < 2 ^ 64 := by
        rwa [List.length_append]
      exact .inl (h.toTail hg hline hne hlength hreach)
    · have hend := (ScreenStep.keepsLines_of_not_tailing htail).mp hkeeps
      rw [htail, if_neg Bool.false_ne_true]
      dsimp only
      exact .inr ⟨hcolumn, htailing.trans htail, hin.foldl hcount, a, h.foldl hend⟩
  | rewind n =>
    change ShowsText g (Freestanding.rewind g s n.toNat).1 (stored ++ [])
    rw [List.append_nil]
    rw [ScreenStep.keepsLines_rewind] at hkeeps
    rcases rewind_isTailing g s n.toNat with hsame | htail
    · rw [hsame]
      exact h
    · have hlines (hcolumn : 0 < g.glyphsPerColumn) (hin : InText g s stored) {a : Nat}
          (h : ShowsLines g s stored a) : ShowsText g (Freestanding.rewind g s n.toNat).1 stored :=
        .inr ⟨hcolumn, htail, hin.rewind hg _, _, (h.rewind hg hline hcolumn hin hkeeps).2.1⟩
      rcases h with h | ⟨hcolumn, -, hin, a, h⟩
      · by_cases hshort : g.glyphsPerColumn = 0 ∨
            (screenStarts g stored 0).length < g.glyphsPerColumn
        · rw [(h.rewind_of_short hshort n.toNat).1]
          exact .inl h
        · rw [not_or, not_lt] at hshort
          exact hlines (Nat.pos_of_ne_zero hshort.1) h.inText (h.showsLines hshort.2)
      · exact hlines hcolumn hin h
  | prowind n =>
    change ShowsText g (Freestanding.prowind g s n.toNat).1 (stored ++ [])
    rw [List.append_nil]
    rw [ScreenStep.keepsLines_prowind] at hkeeps
    rcases h with h | ⟨hcolumn, htail, hin, a, h⟩
    · rw [prowind_of_end h.inText h.windowEntry_last]
      exact .inl h
    by_cases hend : windowEntry g s g.glyphsPerColumn = stored.length
    · rw [prowind_of_end hin hend]
      exact .inr ⟨hcolumn, htail, hin, a, h⟩
    obtain ⟨hparse, hahead, hsplits⟩ := hkeeps.resolve_left hend
    have hle : windowEntry g s g.glyphsPerColumn ≤ stored.length :=
      (hin.lines _).trans_eq hin.stored.charCount
    obtain ⟨hmoved, htailing⟩ := h.prowind hg hline hcolumn hin n.isLt rfl
      (lt_of_le_of_ne hle hend) hparse hahead hsplits
    cases htail' : (Freestanding.prowind g s n.toNat).1.isTailing with
    | true => exact .inl (htailing htail')
    | false => exact .inr ⟨hcolumn, htail', hin.prowind hg _, _, hmoved⟩

/-- A run of calls that all keep the screen lines ends with a window that shows text. -/
theorem ShowsText.runScreen (hg : g.Admitted) (hline : 4 ≤ g.glyphsPerLine)
    (h : ShowsText g s stored) {calls : List ScreenCall}
    (hcount : stored.length + (calls.flatMap ScreenCall.chars).length < 2 ^ 64)
    (hkeeps : ∀ step ∈ runSteps g s stored calls, step.KeepsLines g) :
    ShowsText g (Freestanding.runScreen g s calls) (stored ++ calls.flatMap ScreenCall.chars) := by
  induction calls generalizing s stored with
  | nil => rwa [List.flatMap_nil, List.append_nil]
  | cons call calls ih =>
    rw [List.flatMap_cons, List.length_append] at hcount
    rw [runSteps, List.forall_mem_cons] at hkeeps
    have hstep := h.step hg hline call (by omega) hkeeps.1
    rw [List.flatMap_cons, ← List.append_assoc]
    exact ih hstep (by rw [List.length_append]; omega) hkeeps.2

/-- In every state of a run whose calls all keep the screen lines, as far as the text involved is
laid out from logical lines on, scrolling back and forth by so many screen lines is the identity
exactly if they are within reach. -/
theorem runScreen_scrollsBackAndForth_iff (hg : g.Admitted) (hline : 4 ≤ g.glyphsPerLine)
    (buf : Nat → U8) {calls : List ScreenCall}
    (hcount : (calls.flatMap ScreenCall.chars).length < 2 ^ 64)
    (hkeeps : ∀ step ∈ runSteps g (initialScreen buf) [] calls, step.KeepsLines g) (n : U16) :
    let s := runScreen g (initialScreen buf) calls
    let stored := calls.flatMap ScreenCall.chars
    ParsesLine g stored (windowEntry g s 0) n.toNat →
      ParsesLine g stored (windowEntry g s (g.glyphsPerColumn - n.toNat)) 0 →
      (ScrollsBackAndForth g s stored n.toNat ↔ WithinReach g s stored n.toNat) := by
  have hstart : ShowsText g (initialScreen buf) [] := .inl (showsEnd_initialScreen hg buf)
  have hrun := hstart.runScreen hg hline (by rwa [List.length_nil, Nat.zero_add]) hkeeps
  exact hrun.scrollsBackAndForth_iff hg hline n.isLt

/-- Four logical lines on a screen of two, after a look back at one more of them. -/
def lookBack : List ScreenCall := [.flushToScreen [97, 10, 98, 10, 99, 10, 100], .rewind 1]

/-- On this screen the parse lays out the line that is looked for. -/
theorem lookBack_parses :
    let g : Geometry := ⟨8, 2⟩
    let s := runScreen g (initialScreen fun _ => 0) lookBack
    let stored := lookBack.flatMap ScreenCall.chars
    (ParsesLine g stored (windowEntry g s 0) 1 ∧
      ParsesLine g stored (windowEntry g s (g.glyphsPerColumn - 1)) 0 ∧
      1 ≤ (linesBetween g stored (parseStart g stored (windowEntry g s 0) 1)
        (windowEntry g s 0)).length ∧
      ¬ SplitsTab g (textAt stored) 0 (windowEntry g s g.glyphsPerColumn)) ∧
    ParsesLine g stored (windowEntry g s 0) 0 ∧
      ParsesLine g stored (windowEntry g s (g.glyphsPerColumn - 0)) 0 ∧
      visibleWindow g (prowind g (rewind g s 0).1 0).1 ≠ visibleWindow g s := by
  decide +kernel

/-- One screen line further back, and forth again. -/
theorem runScreen_scrollsBackAndForth_iff_lookBack :
    ScrollsBackAndForth ⟨8, 2⟩ (runScreen ⟨8, 2⟩ (initialScreen fun _ => 0) lookBack)
      (lookBack.flatMap ScreenCall.chars) (1 : U16).toNat := by
  obtain ⟨⟨hback, hforth, hlines, hsplits⟩, -⟩ := lookBack_parses
  exact (runScreen_scrollsBackAndForth_iff ⟨by decide, by decide, by decide⟩ (by decide) _
    (by decide)
    (by decide +kernel) 1 hback hforth).mpr ⟨by decide, hlines, .inr ⟨Nat.one_pos, hsplits⟩⟩

/-- Back by no screen line is where the window was, but forth by none goes on to the end. -/
theorem prowind_of_zero_moves :
    ¬ ∀ (g : Geometry) (buf : Nat → U8) (calls : List ScreenCall) (n : U16), g.Admitted →
      4 ≤ g.glyphsPerLine →
      let s := runScreen g (initialScreen buf) calls
      let stored := calls.flatMap ScreenCall.chars
      stored.length ≤ fileBufLen →
      n.toNat ≤ (linesBetween g stored 0 (windowEntry g s 0)).length →
      ParsesLine g stored (windowEntry g s 0) n.toNat →
      ParsesLine g stored (windowEntry g s (g.glyphsPerColumn - n.toNat)) 0 →
      ScrollsBackAndForth g s stored n.toNat := by
  intro h
  obtain ⟨-, hback, hforth, hmoved⟩ := lookBack_parses
  have hscroll := h ⟨8, 2⟩ (fun _ => 0) lookBack 0 ⟨by decide, by decide, by decide⟩ (by decide)
    (by decide +kernel) (Nat.zero_le _) hback hforth
  exact hmoved hscroll.restored

end Run

end Homegrown.Freestanding
