import Homegrown.Freestanding.Layout
import Homegrown.Freestanding.Scrollback

/-!
# The window at the tail

While the screen tails, its window shows the last screen lines of the text, behind zeros for
screen lines that never were. `toTail` keeps this if it lays out the text from a logical line on
that begins no later than the part of the window it replaces, or if the logical lines that it lays
out as a whole fill the screen.
-/

namespace Homegrown.Freestanding

/-! ## The window -/

/-- An entry of the window. -/
def windowEntry (g : Geometry) (s : Screen) (j : Nat) : Nat :=
  s.screenLines (ringPlus s.oldestScreenLineIndex j g.ringGlyphsPerColumn)

/-- `screenLines`, from `oldestScreenLineIndex` on. -/
def visibleWindow (g : Geometry) (s : Screen) : List Nat :=
  (List.range (g.glyphsPerColumn + 1)).map (windowEntry g s)

section ToTail

variable {g : Geometry} {s : Screen} {stored : List U8} {lines copy : Nat → Nat}
  {dest src count i left k : Nat}

/-- The other places keep what they held. -/
theorem spliceScreenLines_of_ne (h : ∀ k < count, i ≠ ringPlus dest k g.ringGlyphsPerColumn) :
    spliceScreenLines g lines copy dest src count i = lines i := by
  induction count with
  | zero => rfl
  | succ count ih =>
    rw [spliceScreenLines, Function.update_of_ne (h count (Nat.lt_succ_self count))]
    exact ih fun k hk => h k (Nat.lt_succ_of_lt hk)

/-- The first entry of the window. -/
theorem windowEntry_zero (h : s.oldestScreenLineIndex < g.ringGlyphsPerColumn) :
    windowEntry g s 0 = s.screenLines s.oldestScreenLineIndex := by
  rw [windowEntry, ringPlus, Nat.add_zero, Nat.mod_eq_of_lt h]

/-- `toTail` goes on from the last entry of the window that has text before it. -/
theorem finalScreenLine_spec (hg : g.Admitted)
    (hindex : s.oldestScreenLineIndex < g.ringGlyphsPerColumn) (hk : k ≤ g.glyphsPerColumn)
    (hleft : k ≤ left) :
    ∃ e ≤ k, finalScreenLine g s left (ringPlus s.oldestScreenLineIndex k g.ringGlyphsPerColumn) =
        ringPlus s.oldestScreenLineIndex e g.ringGlyphsPerColumn ∧
      (e = 0 ∨ windowEntry g s 0 < windowEntry g s e) ∧
      (e < k → windowEntry g s k ≤ windowEntry g s 0) := by
  have hring := hg.ring.1
  induction left generalizing k with
  | zero =>
    obtain rfl : k = 0 := by omega
    exact ⟨0, le_rfl, rfl, .inl rfl, fun hlt => absurd hlt (lt_irrefl 0)⟩
  | succ left ih =>
    rw [finalScreenLine]
    by_cases hback : s.screenLines (ringPlus s.oldestScreenLineIndex k g.ringGlyphsPerColumn) ≤
          s.screenLines s.oldestScreenLineIndex ∧
        ringPlus s.oldestScreenLineIndex k g.ringGlyphsPerColumn ≠ s.oldestScreenLineIndex
    · rw [if_pos hback]
      have hpos : 0 < k := by
        by_contra hzero
        obtain rfl : k = 0 := by omega
        rw [ringPlus, Nat.add_zero, Nat.mod_eq_of_lt hindex] at hback
        exact hback.2 rfl
      have hprevious : ringDecrement (ringPlus s.oldestScreenLineIndex k g.ringGlyphsPerColumn)
          g.ringGlyphsPerColumn =
            ringPlus s.oldestScreenLineIndex (k - 1) g.ringGlyphsPerColumn := by
        rw [ringPlus, ringDecrement_mod (by omega) (by omega), Nat.add_sub_assoc hpos]
        rfl
      rw [hprevious]
      obtain ⟨e, he, hfinal, hbefore, -⟩ := ih (show k - 1 ≤ g.glyphsPerColumn by omega) (by omega)
      refine ⟨e, by omega, hfinal, hbefore, fun _ => ?_⟩
      rw [windowEntry_zero hindex]
      exact hback.1
    · rw [if_neg hback]
      refine ⟨k, le_rfl, rfl, ?_, fun hlt => absurd hlt (lt_irrefl k)⟩
      rw [windowEntry_zero hindex]
      by_contra hneither
      rw [not_or, not_lt] at hneither
      refine hback ⟨hneither.2, fun hsame => ?_⟩
      have hne : (s.oldestScreenLineIndex + 0) % g.ringGlyphsPerColumn ≠
          (s.oldestScreenLineIndex + k) % g.ringGlyphsPerColumn :=
        mod_ne_of_lt (by omega) (by omega)
      rw [Nat.add_zero, Nat.mod_eq_of_lt hindex] at hne
      exact hne hsame.symm

/-- The window when the last screen lines that were laid out have been copied to its end. -/
theorem windowEntry_splice (hg : g.Admitted) {r : FillResult} {starts : List Nat} {last o w j : Nat}
    {s' : Screen} (hr : r.Notes g starts last) (hwritten : w ≤ starts.length)
    (hcolumn : w ≤ g.glyphsPerColumn) (hlines : s'.screenLines = spliceScreenLines g s.screenLines
      r.screenLinesCopy (o + (g.glyphsPerColumn - w))
      (ringMinus r.currentScreenLineIndex w g.ringGlyphsPerColumn) (w + 1))
    (hindex : s'.oldestScreenLineIndex = o) (hj : j ≤ g.glyphsPerColumn) :
    windowEntry g s' j = if j < g.glyphsPerColumn - w then
        s.screenLines (ringPlus o j g.ringGlyphsPerColumn)
      else (starts ++ [last]).getD (starts.length + j - g.glyphsPerColumn) 0 := by
  have hring := hg.ring.1
  rw [windowEntry, hlines, hindex]
  split
  · rename_i hlt
    refine spliceScreenLines_of_ne fun k hk => ?_
    rw [ringPlus, ringPlus, Nat.add_assoc]
    exact mod_ne_of_lt (by omega) (by omega)
  · rename_i hge
    have hplace : ringPlus o j g.ringGlyphsPerColumn = ringPlus (o + (g.glyphsPerColumn - w))
        (j - (g.glyphsPerColumn - w)) g.ringGlyphsPerColumn := by
      rw [ringPlus, ringPlus, Nat.add_assoc, Nat.add_sub_cancel' (not_lt.mp hge)]
    have hlast : (starts ++ [last]).length = starts.length + 1 := List.length_append
    have hfromEnd := entry_fromEnd hr.ring (show w < (starts ++ [last]).length by omega) (by omega)
      (show j - (g.glyphsPerColumn - w) ≤ w by omega)
    rw [hlast, Nat.add_sub_cancel] at hfromEnd
    rw [hplace, spliceScreenLines_of_lt (by omega) (by omega), hr.index,
      List.getD_eq_getElem?_getD, show starts.length + j - g.glyphsPerColumn =
        starts.length - w + (j - (g.glyphsPerColumn - w)) by omega, hfromEnd]
    rfl

/-- The window after `toTail`: the entries before the one it went on from move up, and the screen
lines that were laid out follow. -/
theorem toTail_window (hg : g.Admitted) (hline : 4 ≤ g.glyphsPerLine) (h : InText g s stored) :
    ∃ e ≤ g.glyphsPerColumn - s.lastScreenlineOpen.toNat,
      (e = 0 ∨ windowEntry g s 0 < windowEntry g s e) ∧
      (e < g.glyphsPerColumn - s.lastScreenlineOpen.toNat →
        windowEntry g s (g.glyphsPerColumn - s.lastScreenlineOpen.toNat) ≤ windowEntry g s 0) ∧
      let dry := max (parseStart g stored stored.length g.glyphsPerColumn)
        (s.logicalLines (I8IndexToLogicalLine s (windowEntry g s e)))
      let starts := fillStarts g s dry stored.length
      let real := min (starts.countP (windowEntry g s e ≤ ·) % 2 ^ 16) g.glyphsPerColumn
      (toTail g s).1.isTailing = s.isTailing ∧
        (toTail g s).1.lastScreenlineOpen = !(penAt g s.charAt dry stored.length).toNext ∧
        ∀ j ≤ g.glyphsPerColumn, windowEntry g (toTail g s).1 j =
          if j < g.glyphsPerColumn - real then windowEntry g s (real + e - g.glyphsPerColumn + j)
          else (starts ++ [stored.length]).getD (starts.length + j - g.glyphsPerColumn) 0 := by
  have hring := hg.ring.1
  have hindex := h.index
  obtain ⟨e, he, hfinal, hbefore, hbehind⟩ := finalScreenLine_spec hg h.index
    (Nat.sub_le g.glyphsPerColumn s.lastScreenlineOpen.toNat)
    (show _ ≤ g.ringGlyphsPerColumn by omega)
  refine ⟨e, he, hbefore, hbehind, ?_⟩
  have hdry : max (parseStart g stored stored.length g.glyphsPerColumn)
      (s.logicalLines (I8IndexToLogicalLine s (windowEntry g s e))) ≤ stored.length :=
    max_le parseStart_le ((h.stored.logicalLine_le _).trans_eq h.stored.charCount)
  obtain ⟨hnotes, hreal, hdone⟩ :=
    fillScreenLines_layout hline s (windowEntry g s e) hdry
  have horiginal : ringMinus (ringPlus s.oldestScreenLineIndex e g.ringGlyphsPerColumn)
      s.oldestScreenLineIndex g.ringGlyphsPerColumn = e := by
    rw [ringPlus, ringMinus_mod (by omega) (by omega), Nat.add_sub_cancel_left,
      Nat.mod_eq_of_lt (by omega)]
  have hentry : s.screenLines (ringPlus s.oldestScreenLineIndex e g.ringGlyphsPerColumn) =
      windowEntry g s e := rfl
  unfold toTail
  simp only [hfinal, horiginal, h.stored.oldestCharToParse, h.stored.charCount, hentry]
  generalize max (parseStart g stored stored.length g.glyphsPerColumn)
    (s.logicalLines (I8IndexToLogicalLine s (windowEntry g s e))) = dry at *
  generalize fillScreenLines g s dry (windowEntry g s e) stored.length 0 = r at *
  generalize fillStarts g s dry stored.length = starts at *
  rw [← hreal]
  have hwritten : r.realScreenLinesWritten ≤ starts.length := by
    have hcount := List.countP_le_length (p := (windowEntry g s e ≤ ·)) (l := starts)
    have hmod := Nat.mod_le (starts.countP (windowEntry g s e ≤ ·)) (2 ^ 16)
    omega
  have hcolumn : r.realScreenLinesWritten ≤ g.glyphsPerColumn := hreal.trans_le (min_le_right _ _)
  have holdest : (if g.glyphsPerColumn < r.realScreenLinesWritten + e then
      ringPlus s.oldestScreenLineIndex (r.realScreenLinesWritten + e - g.glyphsPerColumn)
        g.ringGlyphsPerColumn else s.oldestScreenLineIndex) =
      ringPlus s.oldestScreenLineIndex (r.realScreenLinesWritten + e - g.glyphsPerColumn)
        g.ringGlyphsPerColumn := by
    split
    · rfl
    · rw [Nat.sub_eq_zero_of_le (by omega), ringPlus, Nat.add_zero, Nat.mod_eq_of_lt hindex]
  rw [holdest]
  refine ⟨trivial, congrArg (! ·) hdone, fun j hj => ?_⟩
  rw [windowEntry_splice hg hnotes hwritten hcolumn rfl rfl hj, windowEntry, ringPlus, ringPlus,
    ringPlus, Nat.mod_add_mod, Nat.add_assoc]

end ToTail

/-! ## The end of the text -/

/-- An entry of the window at the end of a text of so many characters, by where its screen lines
begin. -/
def shownEntry (g : Geometry) (starts : List Nat) (length j : Nat) : Nat :=
  if starts.length + j < g.glyphsPerColumn then 0
  else (starts ++ [length]).getD (starts.length + j - g.glyphsPerColumn) 0

/-- The screen tails, and its window shows the end of the text. -/
structure ShowsEnd (g : Geometry) (s : Screen) (stored : List U8) : Prop where
  inText : InText g s stored
  isTailing : s.isTailing = true
  entries : ∀ j ≤ g.glyphsPerColumn,
    windowEntry g s j = shownEntry g (screenStarts g stored 0) stored.length j
  closed : 0 < g.glyphsPerColumn → stored = [] ∨ stored.getLast? = some newline →
    s.lastScreenlineOpen = false

section Shown

variable {g : Geometry} {s : Screen} {stored chunk starts new : List Nat} {length n j k : Nat}

/-- Before the first line of the text nothing is shown. -/
theorem shownEntry_of_lt (h : starts.length + j < g.glyphsPerColumn) :
    shownEntry g starts length j = 0 := if_pos h

/-- The last lines of the text are shown. -/
theorem shownEntry_of_le (h : g.glyphsPerColumn ≤ starts.length + j) :
    shownEntry g starts length j =
      (starts ++ [length]).getD (starts.length + j - g.glyphsPerColumn) 0 :=
  if_neg (not_lt.mpr h)

/-- The last entry is the end of the text. -/
theorem shownEntry_last : shownEntry g starts length g.glyphsPerColumn = length := by
  rw [shownEntry_of_le (by omega), Nat.add_sub_cancel, List.getD_append_right _ _ _ _ le_rfl,
    Nat.sub_self]
  rfl

/-- The entries behind zeros get larger. -/
theorem shownEntry_lt (hsorted : (starts ++ [length]).Pairwise (· < ·)) (hlt : j < k)
    (hk : k ≤ g.glyphsPerColumn) :
    shownEntry g starts length j < shownEntry g starts length k ∨
      (shownEntry g starts length j = 0 ∧ shownEntry g starts length k = 0) := by
  rcases Nat.lt_or_ge (starts.length + j) g.glyphsPerColumn with hj | hj
  · rw [shownEntry_of_lt hj]
    omega
  · have hlen : (starts ++ [length]).length = starts.length + 1 := List.length_append
    rw [shownEntry_of_le hj, shownEntry_of_le (by omega), List.getD_eq_getElem _ _ (by omega),
      List.getD_eq_getElem _ _ (by omega)]
    exact .inl (List.pairwise_iff_getElem.mp hsorted _ _ _ _ (by omega))

/-- The entry before the last one is the beginning of the last screen line. -/
theorem shownEntry_beforeLast {init : List Nat} (hpos : 0 < g.glyphsPerColumn) :
    shownEntry g (init ++ [n]) length (g.glyphsPerColumn - 1) = n := by
  have hlen : (init ++ [n]).length = init.length + 1 := List.length_append
  rw [shownEntry_of_le (by omega), hlen, show init.length + 1 + (g.glyphsPerColumn - 1) -
    g.glyphsPerColumn = init.length by omega, List.append_assoc,
    List.getD_append_right _ _ _ _ le_rfl, Nat.sub_self]
  rfl

/-- The window moves up by the screen lines that are new. -/
theorem shownEntry_append (hj : new.length + j < g.glyphsPerColumn) :
    shownEntry g starts length (new.length + j) = shownEntry g (starts ++ new) n j := by
  rw [shownEntry, shownEntry, List.length_append, Nat.add_assoc]
  split
  · rfl
  · rw [List.append_assoc, List.getD_append _ _ _ _ (by omega),
      List.getD_append _ _ _ _ (by omega)]

/-- Where `toTail` goes on: at the end of the text, or at the beginning of the last screen line. -/
theorem shownEntry_resume (hsorted : (starts ++ [length]).Pairwise (· < ·))
    (hpos : 0 < g.glyphsPerColumn) {o : Bool} (hopen : o = true → starts ≠ []) {e : Nat}
    (he : e ≤ g.glyphsPerColumn - o.toNat)
    (hbefore : e = 0 ∨ shownEntry g starts length 0 < shownEntry g starts length e)
    (hbehind : e < g.glyphsPerColumn - o.toNat →
      shownEntry g starts length (g.glyphsPerColumn - o.toNat) ≤ shownEntry g starts length 0) :
    (e = g.glyphsPerColumn - o.toNat ∨ (e = 0 ∧ shownEntry g starts length e = 0)) ∧
      (o = false ∧ shownEntry g starts length e = length ∨
        ∃ init, o = true ∧ starts = init ++ [shownEntry g starts length e]) := by
  have hlast : o = false ∧ shownEntry g starts length (g.glyphsPerColumn - o.toNat) = length ∨
      ∃ init, o = true ∧
        starts = init ++ [shownEntry g starts length (g.glyphsPerColumn - o.toNat)] := by
    cases o with
    | false => exact .inl ⟨rfl, shownEntry_last⟩
    | true =>
      obtain ⟨init, last, rfl⟩ := (List.eq_nil_or_concat' starts).resolve_left (hopen rfl)
      refine .inr ⟨init, rfl, ?_⟩
      rw [Bool.toNat_true, shownEntry_beforeLast hpos]
  rcases he.eq_or_lt with rfl | hlt
  · exact ⟨.inl rfl, hlast⟩
  · -- Every entry up to the one that it would go on from is zero.
    have hend := shownEntry_lt hsorted hlt (Nat.sub_le _ _)
    have hfirst := shownEntry_lt hsorted (show 0 < g.glyphsPerColumn - o.toNat by omega)
      (Nat.sub_le _ _)
    have hle := hbehind hlt
    obtain rfl : e = 0 := by omega
    have hzero : shownEntry g starts length 0 =
        shownEntry g starts length (g.glyphsPerColumn - o.toNat) := by
      omega
    rw [hzero]
    exact ⟨.inr ⟨rfl, by omega⟩, hlast⟩

/-- The entries before the one that `toTail` goes on from move up to where they belong. -/
theorem shownEntry_move (hsorted : (starts ++ [length]).Pairwise (· < ·))
    (hnew : ∀ x ∈ new, length ≤ x) (hpos : 0 < g.glyphsPerColumn) {o : Bool} {e f real : Nat}
    (he : e = g.glyphsPerColumn - o.toNat ∨ (e = 0 ∧ f = 0))
    (hf : o = false ∧ f = length ∨ ∃ init, o = true ∧ starts = init ++ [f])
    (hreal : real = min ((starts ++ new).countP (f ≤ ·)) g.glyphsPerColumn)
    (hj : j < g.glyphsPerColumn - real) :
    shownEntry g starts length (real + e - g.glyphsPerColumn + j) =
      shownEntry g (starts ++ new) n j := by
  have hlt : ∀ x ∈ starts, x < length := fun x hx =>
    (List.pairwise_append.mp hsorted).2.2 x hx length (List.mem_singleton_self length)
  have hcount : real = starts.countP (f ≤ ·) + new.countP (f ≤ ·) := by
    rw [List.countP_append] at hreal
    omega
  have hfle : f ≤ length := by
    rcases hf with ⟨-, rfl⟩ | ⟨init, -, hinit⟩
    · exact le_rfl
    · exact (hlt f (by rw [hinit]; simp)).le
  have hnewCount : new.countP (f ≤ ·) = new.length :=
    List.countP_eq_length.mpr fun x hx => decide_eq_true (hfle.trans (hnew x hx))
  rcases he with rfl | ⟨rfl, rfl⟩
  · have hstarts : starts.countP (f ≤ ·) = o.toNat := by
      rcases hf with ⟨rfl, rfl⟩ | ⟨init, rfl, rfl⟩
      · exact List.countP_eq_zero.mpr fun x hx => by simpa using hlt x hx
      · have hinit : init.countP (f ≤ ·) = 0 := by
          refine List.countP_eq_zero.mpr fun x hx => ?_
          have hx := (List.pairwise_append.mp (List.pairwise_append.mp hsorted).1).2.2 x hx f
            (List.mem_singleton_self f)
          simpa using hx
        rw [List.countP_append, hinit, List.countP_singleton, if_pos (decide_eq_true le_rfl)]
        rfl
    have hone : o.toNat ≤ 1 := Bool.toNat_le o
    rw [show real + (g.glyphsPerColumn - o.toNat) - g.glyphsPerColumn + j = new.length + j by
      omega]
    exact shownEntry_append (by omega)
  · have hstarts : starts.countP (0 ≤ ·) = starts.length :=
      List.countP_eq_length.mpr fun x _ => decide_eq_true (Nat.zero_le x)
    have hlen : (starts ++ new).length = starts.length + new.length := List.length_append
    rw [shownEntry_of_lt (by omega), shownEntry_of_lt (by omega)]

end Shown

/-- Where the screen lines agree that were laid out, the new entries are where they belong. -/
theorem shownEntry_of_suffix {before before' last : List Nat} {f q : Nat}
    (hbefore : ∀ x ∈ before, x < q) (hbefore' : ∀ x ∈ before', x < q)
    (hlast : ∀ x ∈ last, q ≤ x)
    (hq : q ≤ f ∨ (f ≤ q ∧ g.glyphsPerColumn ≤ last.length)) :
    let real := min ((before' ++ last).countP (f ≤ ·)) g.glyphsPerColumn
    min ((before ++ last).countP (f ≤ ·)) g.glyphsPerColumn = real ∧
      ∀ j, ¬ j < g.glyphsPerColumn - real → j ≤ g.glyphsPerColumn →
        ((before ++ last) ++ [n]).getD ((before ++ last).length + j - g.glyphsPerColumn) 0 =
          shownEntry g (before' ++ last) n j := by
  intro real
  have hcount : min ((before ++ last).countP (f ≤ ·)) g.glyphsPerColumn = real ∧
      real ≤ last.length := by
    have hle := List.countP_le_length (p := (f ≤ ·)) (l := last)
    rcases hq with hq | ⟨hf, hfull⟩
    · have hnone (l : List Nat) (hl : ∀ x ∈ l, x < q) : l.countP (f ≤ ·) = 0 :=
        List.countP_eq_zero.mpr fun x hx => by
          have hx := hl x hx
          simp only [decide_eq_true_eq]
          omega
      have hreal : real = min (0 + last.countP (f ≤ ·)) g.glyphsPerColumn := by
        rw [← hnone before' hbefore', ← List.countP_append]
      rw [List.countP_append, hnone before hbefore, ← hreal]
      exact ⟨rfl, by omega⟩
    · have hall : last.countP (f ≤ ·) = last.length :=
        List.countP_eq_length.mpr fun x hx => decide_eq_true (hf.trans (hlast x hx))
      have hreal : real = min (before'.countP (f ≤ ·) + last.length) g.glyphsPerColumn := by
        rw [← hall, ← List.countP_append]
      rw [List.countP_append, hall]
      omega
  refine ⟨hcount.1, fun j hj hle => ?_⟩
  have hlen (l : List Nat) : (l ++ last).length = l.length + last.length := List.length_append
  have hgetD (l : List Nat) : ((l ++ last) ++ [n]).getD ((l ++ last).length + j -
      g.glyphsPerColumn) 0 = (last ++ [n]).getD (last.length + j - g.glyphsPerColumn) 0 := by
    have hreal := hcount.2
    rw [hlen, List.append_assoc, List.getD_append_right _ _ _ _ (by omega)]
    congr 1
    omega
  have hlen' := hlen before'
  rw [shownEntry_of_le (by omega), hgetD, hgetD]

/-! ## Flushing at the tail -/

/-- A flush that makes one text of another lays out enough of it: from no later than a logical
line that begins in the text before, or from before logical lines that fill the screen. -/
def ReachesBack (g : Geometry) (before after : List U8) : Prop :=
  let start := parseStart g after after.length g.glyphsPerColumn
  (∃ q ≤ before.length, start ≤ q ∧ LineBegins after q) ∨
    g.glyphsPerColumn ≤ ((List.range after.length).filter fun i =>
      Begins g after i ∧ ∃ q ≤ i, start ≤ q ∧ LineBegins after q).length

instance (g : Geometry) (before after : List U8) : Decidable (ReachesBack g before after) :=
  inferInstanceAs (Decidable ((∃ q, q ≤ before.length ∧ _) ∨ _))

section Flush

variable {g : Geometry} {s : Screen} {stored chunk : List U8} {f : Nat}

/-- A flush that reaches back lays out the text from a logical line on, and either that begins no
later than what is replaced, or the screen is full of what follows. -/
theorem ReachesBack.exists_line (h : ReachesBack g stored (stored ++ chunk))
    (hs : Stored s (stored ++ chunk)) (hne : chunk ≠ []) (hcolumn : 0 < g.glyphsPerColumn)
    (hfle : f ≤ stored.length) (hf : ∀ q ≤ stored.length, LineBegins (stored ++ chunk) q → q ≤ f) :
    ∃ q, LineBegins (stored ++ chunk) q ∧ q ≤ (stored ++ chunk).length ∧
      max (parseStart g (stored ++ chunk) (stored ++ chunk).length g.glyphsPerColumn)
        (s.logicalLines (I8IndexToLogicalLine s f)) ≤ q ∧
      (q ≤ f ∨
        (f ≤ q ∧ g.glyphsPerColumn ≤ (screenStarts g (stored ++ chunk) q).length)) := by
  have hlen : (stored ++ chunk).length = stored.length + chunk.length := List.length_append
  have hchunk := List.length_pos_of_ne_nil hne
  obtain ⟨hline, hlineLt, hlineLe, hlineMax⟩ := hs.logicalLine_spec (by omega) f
  have holdest : parseStart g (stored ++ chunk) (stored ++ chunk).length g.glyphsPerColumn <
      (stored ++ chunk).length → lineStart (stored ++ chunk) (oldestLine (stored ++ chunk)) ≤
        parseStart g (stored ++ chunk) (stored ++ chunk).length g.glyphsPerColumn :=
    lineStart_oldestLine_le
  generalize hstart : parseStart g (stored ++ chunk) (stored ++ chunk).length
    g.glyphsPerColumn = start at *
  generalize s.logicalLines (I8IndexToLogicalLine s f) = line at *
  rw [ReachesBack, hstart] at h
  by_cases hreach : ∃ q ≤ stored.length, start ≤ q ∧ LineBegins (stored ++ chunk) q
  · obtain ⟨q, hq, hle, hbegins⟩ := hreach
    have hqf := hf q hq hbegins
    have hqline := hlineMax q hqf hbegins (by omega)
    refine ⟨line, hline, hlineLt.le, by omega, .inl ?_⟩
    rcases hlineLe with hle | heq
    · exact hle
    · have hparse := holdest (by omega)
      omega
  · have hfull := h.resolve_left hreach
    obtain ⟨i, hi⟩ := List.exists_mem_of_length_pos (lt_of_lt_of_le hcolumn hfull)
    obtain ⟨hi, hmem⟩ := List.mem_filter.mp hi
    obtain ⟨-, q₀, hq₀, hbegins₀⟩ := of_decide_eq_true hmem
    have hilt := List.mem_range.mp hi
    have hexists : ∃ q, start ≤ q ∧ LineBegins (stored ++ chunk) q := ⟨q₀, hbegins₀⟩
    -- The first logical line that is laid out as a whole.
    obtain ⟨hge, hbegins⟩ := Nat.find_spec hexists
    have hmin (q : Nat) (hq : start ≤ q ∧ LineBegins (stored ++ chunk) q) :
        Nat.find hexists ≤ q := Nat.find_min' hexists hq
    generalize Nat.find hexists = q at hge hbegins hmin
    have hqlt := hmin q₀ hbegins₀
    have hbehind : stored.length < q := by
      by_contra hle
      exact hreach ⟨q, not_lt.mp hle, hge, hbegins⟩
    have hparse := holdest (by omega)
    refine ⟨q, hbegins, by omega, by omega, .inr ⟨by omega, hfull.trans ?_⟩⟩
    refine List.Nodup.length_le_of_subset (List.nodup_range.filter _) fun i hi => ?_
    obtain ⟨hi, hmem⟩ := List.mem_filter.mp hi
    obtain ⟨hscreen, q', hq', hbegins'⟩ := of_decide_eq_true hmem
    exact mem_screenStarts.mpr ⟨⟨(hmin q' hbegins').trans hq', List.mem_range.mp hi⟩, hscreen⟩

/-- The window before a flush goes on where the text before has ended, or at the beginning of its
last screen line, and no logical line of it begins behind that. -/
theorem ShowsEnd.resume (h : ShowsEnd g s stored) (hcolumn : 0 < g.glyphsPerColumn) {e : Nat}
    (he : e ≤ g.glyphsPerColumn - s.lastScreenlineOpen.toNat)
    (hbefore : e = 0 ∨ windowEntry g s 0 < windowEntry g s e)
    (hbehind : e < g.glyphsPerColumn - s.lastScreenlineOpen.toNat →
      windowEntry g s (g.glyphsPerColumn - s.lastScreenlineOpen.toNat) ≤ windowEntry g s 0) :
    (screenStarts g stored 0 ++ [stored.length]).Pairwise (· < ·) ∧
      (e = g.glyphsPerColumn - s.lastScreenlineOpen.toNat ∨ (e = 0 ∧ windowEntry g s e = 0)) ∧
      (s.lastScreenlineOpen = false ∧ windowEntry g s e = stored.length ∨
        ∃ init, s.lastScreenlineOpen = true ∧
          screenStarts g stored 0 = init ++ [windowEntry g s e]) ∧
      windowEntry g s e ≤ stored.length ∧
      ∀ q ≤ stored.length, LineBegins stored q → q ≤ windowEntry g s e := by
  have hlt : ∀ x ∈ screenStarts g stored 0, x < stored.length := fun x hx =>
    (mem_screenStarts.mp hx).1.2
  have hsorted : (screenStarts g stored 0 ++ [stored.length]).Pairwise (· < ·) := by
    refine List.pairwise_append.mpr ⟨screenStarts_sorted, List.pairwise_singleton _ _, ?_⟩
    intro x hx y hy
    rw [List.mem_singleton.mp hy]
    exact hlt x hx
  have hstarts (hopen : s.lastScreenlineOpen = true) : screenStarts g stored 0 ≠ [] := by
    have hne : stored ≠ [] := fun hnil => by
      rw [h.closed hcolumn (.inl hnil)] at hopen
      cases hopen
    exact List.ne_nil_of_mem (mem_screenStarts.mpr
      ⟨⟨le_rfl, List.length_pos_of_ne_nil hne⟩, .inl rfl⟩)
  rw [h.entries 0 (Nat.zero_le _), h.entries e (he.trans (Nat.sub_le _ _))] at hbefore
  rw [h.entries _ (Nat.sub_le _ _), h.entries 0 (Nat.zero_le _)] at hbehind
  obtain ⟨hplace, hlast⟩ := shownEntry_resume hsorted hcolumn hstarts he hbefore hbehind
  rw [← h.entries e (he.trans (Nat.sub_le _ _))] at hplace hlast
  refine ⟨hsorted, hplace, hlast, ?_, fun q hq hbegins => ?_⟩
  · rcases hlast with ⟨-, hend⟩ | ⟨init, -, hinit⟩
    · exact hend.le
    · exact (hlt _ (by rw [hinit]; simp)).le
  · rcases hlast with ⟨-, hend⟩ | ⟨init, hopen, hinit⟩
    · exact hq.trans hend.ge
    · -- A text that ends in a newline leaves no screen line open.
      have hne : q ≠ stored.length := by
        rintro rfl
        have hclosed : stored = [] ∨ stored.getLast? = some newline := by
          rw [List.getLast?_eq_getElem?]
          exact hbegins.imp_left List.eq_nil_of_length_eq_zero
        rw [h.closed hcolumn hclosed] at hopen
        cases hopen
      have hmem : q ∈ init ++ [windowEntry g s e] := by
        rw [← hinit]
        exact mem_screenStarts.mpr ⟨⟨Nat.zero_le q, by omega⟩, hbegins.begins⟩
      have hsorted' : (screenStarts g stored 0).Pairwise (· < ·) := screenStarts_sorted
      rw [hinit] at hsorted'
      rcases List.mem_append.mp hmem with hmem | hmem
      · exact ((List.pairwise_append.mp hsorted').2.2 q hmem _ (List.mem_singleton_self _)).le
      · exact (List.mem_singleton.mp hmem).le

/-- A text that ends in a newline leaves its last screen line done. -/
theorem toNext_of_getLast? (h : Stored s stored) {dry : Nat} (hdry : dry < stored.length)
    (hnewline : stored.getLast? = some newline) :
    (penAt g s.charAt dry stored.length).toNext = true := by
  obtain ⟨i, hi⟩ : ∃ i, stored.length = i + 1 := ⟨stored.length - 1, by omega⟩
  have hchar : s.charAt i = newline := by
    rw [List.getLast?_eq_getElem?, hi, Nat.add_sub_cancel, List.getElem?_eq_getElem (by omega)]
      at hnewline
    have hfull : fileBufLen = 2 ^ 16 := rfl
    rw [h.charAt (by omega) (by omega)]
    exact Option.some.inj hnewline
  rw [hi]
  exact (penAt_turn_of_newline (Nat.le_of_lt_succ (hdry.trans_eq hi)) hchar).1

/-- A flush that reaches back shows the end of the text. -/
theorem ShowsEnd.toTail (hg : g.Admitted) (hline : 4 ≤ g.glyphsPerLine)
    (h : ShowsEnd g s stored) (hne : chunk ≠ []) (hlength : (stored ++ chunk).length < 2 ^ 64)
    (hreach : ReachesBack g stored (stored ++ chunk)) :
    ShowsEnd g (toTail g (chunk.foldl storeChar s)).1 (stored ++ chunk) := by
  have hlen : (stored ++ chunk).length = stored.length + chunk.length := List.length_append
  have hfull : fileBufLen = 2 ^ 16 := rfl
  have hchunk := List.length_pos_of_ne_nil hne
  obtain ⟨hlines, hindex, htailing, hopen⟩ := foldl_storeChar_window chunk s
  have hentry (j : Nat) : windowEntry g (chunk.foldl storeChar s) j = windowEntry g s j := by
    rw [windowEntry, windowEntry, hlines, hindex]
  have hafter : InText g (chunk.foldl storeChar s) (stored ++ chunk) :=
    h.inText.foldl (by omega)
  obtain ⟨start, -, hfrom⟩ := toTail_readsFrom hg hafter
  obtain ⟨e, he, hbefore, hbehind, htail, hlast, hwindow⟩ := toTail_window hg hline hafter
  generalize chunk.foldl storeChar s = s₁ at *
  rw [hopen] at he hbehind
  simp only [hentry] at hbefore hbehind hlast hwindow
  have hdry (hcolumn : 0 < g.glyphsPerColumn) :
      let dry := max (parseStart g (stored ++ chunk) (stored ++ chunk).length g.glyphsPerColumn)
        (s₁.logicalLines (I8IndexToLogicalLine s₁ (windowEntry g s e)))
      parseStart g (stored ++ chunk) (stored ++ chunk).length g.glyphsPerColumn ≤ dry ∧
        dry < (stored ++ chunk).length := by
    have hmax : 0 < g.maxCharsToProcess := by
      rw [Geometry.maxCharsToProcess]
      positivity
    exact ⟨le_max_left _ _, max_lt (parseStart_lt hmax (by omega) _)
      (hafter.stored.logicalLine_spec (by omega) _).2.1⟩
  refine ⟨hfrom.inText, htail.trans (htailing.trans h.isTailing), ?_, ?_⟩
  · intro j hj
    rw [hwindow j hj]
    rcases Nat.eq_zero_or_pos g.glyphsPerColumn with hzero | hcolumn
    · obtain rfl : j = g.glyphsPerColumn := by omega
      rw [if_neg (by omega), shownEntry_last, Nat.add_sub_cancel,
        List.getD_append_right _ _ _ _ le_rfl, Nat.sub_self]
      rfl
    obtain ⟨hsorted, hplace, hends, hfle, hfline⟩ := h.resume hcolumn he hbefore hbehind
    obtain ⟨q, hq, hqle, hdryq, hqf⟩ := hreach.exists_line hafter.stored hne hcolumn hfle
      fun q hq hbegins => hfline q hq ((lineBegins_append hq).mp hbegins)
    have hdry := hdry hcolumn
    have hge := le_parseStart g (stored ++ chunk) (stored ++ chunk).length g.glyphsPerColumn
    have hchars := hg.chars
    generalize max (parseStart g (stored ++ chunk) (stored ++ chunk).length g.glyphsPerColumn)
      (s₁.logicalLines (I8IndexToLogicalLine s₁ (windowEntry g s e))) = dry at *
    obtain ⟨before, hfill, hbeforeLt⟩ :=
      fillStarts_eq hline hafter.stored (by omega) hq hdryq hdry.2 hqle
    have hcount := length_fillStarts_lt hg hafter.stored le_rfl hdry.1 hdry.2 (by omega) hline
    obtain ⟨before', hsplit, hbefore'⟩ := screenStarts_split (g := g) hqle
    have hbeforeLt' : ∀ x ∈ before', x < q := fun x hx => by
      rw [hbefore'] at hx
      have hx := List.mem_range'_1.mp (List.mem_filter.mp hx).1
      omega
    have hmod : (fillStarts g s₁ dry (stored ++ chunk).length).countP (windowEntry g s e ≤ ·) %
        2 ^ 16 = (fillStarts g s₁ dry (stored ++ chunk).length).countP (windowEntry g s e ≤ ·) :=
      Nat.mod_eq_of_lt (lt_of_le_of_lt List.countP_le_length hcount)
    obtain ⟨hreal, hnew⟩ :=
      shownEntry_of_suffix (n := (stored ++ chunk).length) hbeforeLt hbeforeLt'
      (fun x hx => (mem_screenStarts.mp hx).1.1) hqf
    rw [hmod, hfill, hreal]
    rw [← hsplit] at hnew ⊢
    split
    · rename_i hold
      have happend : screenStarts g (stored ++ chunk) 0 =
          screenStarts g stored 0 ++ screenStarts g (stored ++ chunk) stored.length :=
        screenStarts_append
      rw [h.entries _ (by omega)]
      rw [happend] at hold ⊢
      exact shownEntry_move hsorted (fun x hx => (mem_screenStarts.mp hx).1.1) hcolumn hplace hends
        rfl hold
    · rename_i hold
      exact hnew j hold hj
  · rintro hcolumn (hnil | hnewline)
    · exact absurd (List.append_eq_nil_iff.mp hnil).2 hne
    · obtain ⟨-, hend⟩ := hdry hcolumn
      rw [hlast, toNext_of_getLast? hafter.stored hend hnewline]
      rfl

/-- A flush shows the end of the text that it has made longer. -/
theorem ShowsEnd.flush (hg : g.Admitted) (hline : 4 ≤ g.glyphsPerLine)
    (h : ShowsEnd g s stored) (hne : chunk ≠ [])
    (hlength : (stored ++ chunk).length ≤ fileBufLen)
    (hreach : ReachesBack g stored (stored ++ chunk)) :
    ShowsEnd g (flushToScreen g s chunk).1 (stored ++ chunk) := by
  have hlen : (stored ++ chunk).length = stored.length + chunk.length := List.length_append
  have hfull : fileBufLen = 2 ^ 16 := rfl
  have htailing := (foldl_storeChar_window chunk s).2.2.1
  rw [Freestanding.flushToScreen, storedChars_of_length_le (by omega), htailing, h.isTailing,
    if_pos rfl]
  exact h.toTail hg hline hne (by omega) hreach

end Flush

/-! ## Runs of flushes -/

/-- The screen after a text was flushed in chunks. -/
def flushChunks (g : Geometry) (s : Screen) (chunks : List (List U8)) : Screen :=
  chunks.foldl (fun s chunk => (flushToScreen g s chunk).1) s

/-- Every one of the flushes reaches back. -/
def ChunksReachBack (g : Geometry) (stored : List U8) : List (List U8) → Prop
  | [] => True
  | chunk :: chunks =>
    ReachesBack g stored (stored ++ chunk) ∧ ChunksReachBack g (stored ++ chunk) chunks

instance decidableChunksReachBack (g : Geometry) (stored : List U8) :
    (chunks : List (List U8)) → Decidable (ChunksReachBack g stored chunks)
  | [] => isTrue trivial
  | chunk :: chunks =>
    have := decidableChunksReachBack g (stored ++ chunk) chunks
    inferInstanceAs (Decidable (ReachesBack g stored (stored ++ chunk) ∧ _))

section Chunks

variable {g : Geometry} {s : Screen} {stored : List U8} {chunks : List (List U8)}

/-- The first buffer, and then the others. -/
theorem flushChunks_cons (chunk : List U8) : flushChunks g s (chunk :: chunks) =
    flushChunks g (flushToScreen g s chunk).1 chunks := by
  simp only [flushChunks, List.foldl_cons]

/-- Any number of flushes show the end of the text. -/
theorem ShowsEnd.flushChunks (hg : g.Admitted) (hline : 4 ≤ g.glyphsPerLine)
    (h : ShowsEnd g s stored) (hne : ∀ chunk ∈ chunks, chunk ≠ [])
    (hlength : (stored ++ chunks.flatten).length ≤ fileBufLen)
    (hreach : ChunksReachBack g stored chunks) :
    ShowsEnd g (Freestanding.flushChunks g s chunks) (stored ++ chunks.flatten) := by
  induction chunks generalizing s stored with
  | nil => rwa [List.flatten_nil, List.append_nil]
  | cons chunk chunks ih =>
    rw [List.flatten_cons, ← List.append_assoc] at hlength ⊢
    have hflush := h.flush hg hline (hne chunk List.mem_cons_self)
      (by rw [List.length_append] at hlength; omega) hreach.1
    rw [flushChunks_cons]
    exact ih hflush (fun chunk hmem => hne chunk (List.mem_cons_of_mem _ hmem)) hlength hreach.2

/-- The initial screen shows the end of the empty text. -/
theorem showsEnd_initialScreen (hg : g.Admitted) (buf : Nat → U8) :
    ShowsEnd g (initialScreen buf) [] := by
  refine ⟨inText_initialScreen hg buf, rfl, fun j hj => ?_, fun _ _ => rfl⟩
  rcases Nat.eq_or_lt_of_le hj with rfl | hlt
  · exact shownEntry_last.symm
  · exact (shownEntry_of_lt (by simpa [screenStarts] using hlt)).symm

/-- What a window at the end shows. -/
theorem ShowsEnd.visibleWindow (h : ShowsEnd g s stored) : visibleWindow g s =
    (List.range (g.glyphsPerColumn + 1)).map
      (shownEntry g (screenStarts g stored 0) stored.length) := by
  refine List.map_congr_left fun j hj => h.entries j ?_
  exact Nat.le_of_lt_succ (List.mem_range.mp hj)

/-- Without text the window is all zeros. -/
theorem InText.visibleWindow_nil (h : InText g s []) :
    Freestanding.visibleWindow g s = (List.range (g.glyphsPerColumn + 1)).map fun _ => 0 := by
  refine List.map_congr_left fun j _ => ?_
  have hle : windowEntry g s j ≤ s.charCount := h.lines _
  rw [h.stored.charCount] at hle
  exact Nat.le_zero.mp hle

end Chunks

/-- How a text is cut into flushes does not show in the window, if every flush reaches back, and so
does the flush of the whole text. -/
theorem visibleWindow_flushChunks {g : Geometry} (hg : g.Admitted) (hline : 4 ≤ g.glyphsPerLine)
    (buf : Nat → U8) {chunks : List (List U8)} (hlength : chunks.flatten.length ≤ fileBufLen)
    (hne : ∀ chunk ∈ chunks, chunk ≠ []) (hcut : ChunksReachBack g [] chunks)
    (hwhole : ReachesBack g [] chunks.flatten) :
    visibleWindow g (flushChunks g (initialScreen buf) chunks) =
      visibleWindow g (flushToScreen g (initialScreen buf) chunks.flatten).1 := by
  have hstart := showsEnd_initialScreen hg buf
  have hchunks := hstart.flushChunks hg hline hne (by rwa [List.nil_append]) hcut
  rw [List.nil_append] at hchunks
  by_cases hnil : chunks.flatten = []
  · have hafter := (flushToScreen_readsStored_iff hg hstart.inText
      (show ([] : List U8).length + (storedChars []).length < 2 ^ 64 by decide)).2
    rw [ScreenCall.chars_flushToScreen] at hafter
    rw [hnil] at hchunks ⊢
    rw [hchunks.inText.visibleWindow_nil]
    exact (InText.visibleWindow_nil hafter).symm
  · have hone := hstart.flush hg hline hnil (by rwa [List.nil_append])
      (by rwa [List.nil_append])
    rw [List.nil_append] at hone
    rw [hchunks.visibleWindow, hone.visibleWindow]

/-- Three flushes of two lines and a half. -/
theorem visibleWindow_flushChunks_lines :
    ((⟨4, 2⟩ : Geometry).Admitted ∧ 4 ≤ (⟨4, 2⟩ : Geometry).glyphsPerLine ∧
      ([[97, 98], [99, 10, 100, 9], [101, 10, 102]] : List (List U8)).flatten.length ≤
        fileBufLen ∧
      (∀ chunk ∈ ([[97, 98], [99, 10, 100, 9], [101, 10, 102]] : List (List U8)), chunk ≠ []) ∧
      ChunksReachBack ⟨4, 2⟩ [] [[97, 98], [99, 10, 100, 9], [101, 10, 102]] ∧
      ReachesBack ⟨4, 2⟩ [] [97, 98, 99, 10, 100, 9, 101, 10, 102]) ∧
      visibleWindow ⟨4, 2⟩ (flushChunks ⟨4, 2⟩ (initialScreen fun _ => 0)
          [[97, 98], [99, 10, 100, 9], [101, 10, 102]]) =
        visibleWindow ⟨4, 2⟩ (flushToScreen ⟨4, 2⟩ (initialScreen fun _ => 0)
          [97, 98, 99, 10, 100, 9, 101, 10, 102]).1 := by
  have hg : (⟨4, 2⟩ : Geometry).Admitted := ⟨by decide, by decide, by decide⟩
  have hcut : ChunksReachBack ⟨4, 2⟩ [] [[97, 98], [99, 10, 100, 9], [101, 10, 102]] := by
    decide +kernel
  have hwhole : ReachesBack ⟨4, 2⟩ [] [97, 98, 99, 10, 100, 9, 101, 10, 102] := by
    decide +kernel
  refine ⟨⟨hg, by decide, by decide, by decide, hcut, hwhole⟩, ?_⟩
  exact visibleWindow_flushChunks hg (by decide) _ (by decide) (by decide) hcut hwhole

/-- Lines that fill their screen lines are counted one too many, for their newlines: one flush
lays out too few of them, and leaves the first entry of the window as it was. -/
theorem visibleWindow_flushChunks_differs :
    visibleWindow ⟨4, 2⟩ (flushChunks ⟨4, 2⟩ (initialScreen fun _ => 0)
        [[97, 97, 97, 97, 10], [98, 98, 98, 98, 10], [99, 99, 99, 99, 10]]) ≠
      visibleWindow ⟨4, 2⟩ (flushToScreen ⟨4, 2⟩ (initialScreen fun _ => 0)
        [97, 97, 97, 97, 10, 98, 98, 98, 98, 10, 99, 99, 99, 99, 10]).1 := by
  decide +kernel

end Homegrown.Freestanding
