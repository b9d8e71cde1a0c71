import Homegrown.Freestanding.Screen
import Mathlib.Data.List.Basic

/-!
# Screen lines

`fillScreenLines` notes one screen line after the other in two rings, and its callers copy the
last ones of them into the window. What is noted is described by a list of screen lines: where
each begins, and how many glyphs of its logical line come before it.
-/

namespace Homegrown.Freestanding

/-! ## Noting screen lines -/

/-- The rings hold the last screen lines of a list. -/
structure FillHolds (g : Geometry) (f : Fill) (lines : List (Nat × Nat)) : Prop where
  starts : RingHolds g.ringGlyphsPerColumn f.screenLinesCopy (lines.map Prod.fst)
  lens : RingHolds g.ringGlyphsPerColumn f.logicalLineLens (lines.map Prod.snd)
  pos : 0 < lines.length
  index : f.currentScreenLineIndex = (lines.length - 1) % g.ringGlyphsPerColumn

section Fill

variable {g : Geometry} {s : Screen} {f : Fill} {lines : List (Nat × Nat)}
  {startIndex limit i dry len : Nat}

/-- At the start the first line is held. -/
theorem fillHolds_fillStart :
    FillHolds g (fillStart s dry startIndex) [(dry, 0)] := by
  have hzero : ([] : List Nat).length % g.ringGlyphsPerColumn = 0 := Nat.zero_mod _
  refine ⟨?_, ?_, Nat.one_pos, (Nat.zero_mod _).symm⟩
  · have hpush : RingHolds g.ringGlyphsPerColumn (Function.update s.screenLinesCopy _ dry)
        ([] ++ [dry]) := RingHolds.nil.push
    rwa [hzero] at hpush
  · have hpush : RingHolds g.ringGlyphsPerColumn (Function.update s.logicalLineLens _ 0)
        ([] ++ [0]) := RingHolds.nil.push
    rwa [hzero] at hpush

/-- One more line is held. -/
theorem FillHolds.nextScreenLine (h : FillHolds g f lines) :
    FillHolds g (f.nextScreenLine g startIndex i len) (lines ++ [(i, len)]) := by
  have hpos := h.pos
  have hnext : ringIncrement f.currentScreenLineIndex g.ringGlyphsPerColumn =
      lines.length % g.ringGlyphsPerColumn := by
    rw [h.index, ringIncrement_mod, Nat.sub_add_cancel hpos]
  refine ⟨?_, ?_, by simp, ?_⟩
  · have hpush : RingHolds g.ringGlyphsPerColumn _ (lines.map Prod.fst ++ [i]) := h.starts.push
    rw [List.length_map] at hpush
    rw [Fill.nextScreenLine, hnext, List.map_append]
    exact hpush
  · have hpush : RingHolds g.ringGlyphsPerColumn _ (lines.map Prod.snd ++ [len]) := h.lens.push
    rw [List.length_map] at hpush
    rw [Fill.nextScreenLine, hnext, List.map_append]
    exact hpush
  · rw [List.length_append, List.length_singleton, Nat.add_sub_cancel]
    exact hnext

/-- A character begins one screen line at most, and only where it is. -/
theorem FillHolds.fillChar (h : FillHolds g f lines) (s : Screen) (startIndex limit i : Nat) :
    ∃ more : List (Nat × Nat), FillHolds g (fillChar g s startIndex limit i f) (lines ++ more) ∧
      (∀ x ∈ more, x.1 = i) ∧
      (Freestanding.fillChar g s startIndex limit i f).screenLinesInWindow ≤
        f.screenLinesInWindow + more.length := by
  have hsame (f' : Fill) (hstarts : f'.screenLinesCopy = f.screenLinesCopy)
      (hlens : f'.logicalLineLens = f.logicalLineLens)
      (hindex : f'.currentScreenLineIndex = f.currentScreenLineIndex)
      (hwindow : f'.screenLinesInWindow = f.screenLinesInWindow) :
      ∃ more : List (Nat × Nat), FillHolds g f' (lines ++ more) ∧ (∀ x ∈ more, x.1 = i) ∧
        f'.screenLinesInWindow ≤ f.screenLinesInWindow + more.length := by
    refine ⟨[], ?_, by simp, hwindow.le⟩
    rw [List.append_nil]
    exact ⟨by rw [hstarts]; exact h.starts, by rw [hlens]; exact h.lens, h.pos,
      hindex.trans h.index⟩
  unfold Freestanding.fillChar
  dsimp only
  split
  · exact hsame _ rfl rfl rfl rfl
  · split
    · exact hsame _ rfl rfl rfl rfl
    · split
      · split
        · exact hsame _ rfl rfl rfl rfl
        · split
          · exact hsame _ rfl rfl rfl rfl
          · have hnext : FillHolds g (f.nextScreenLine g startIndex i
                (f.currentLogicalLineLen + extraSpacePreviousLine g f.currentGlyphLen)) _ :=
              h.nextScreenLine
            refine ⟨_, ⟨hnext.starts, hnext.lens, hnext.pos, hnext.index⟩, by simp, ?_⟩
            refine (Nat.mod_le _ _).trans (Nat.add_le_add_left ?_ _)
            split <;> simp
      · exact hsame _ rfl rfl rfl rfl

/-- A character of the parse reads nothing further. -/
@[simp] theorem fillChar_reads (g : Geometry) (s : Screen) (startIndex limit i : Nat) (f : Fill) :
    (fillChar g s startIndex limit i f).reads = f.reads := by
  unfold fillChar
  dsimp only
  split_ifs <;> rfl

/-- The loop begins screen lines only at positions it passes, and reads no others. -/
theorem FillHolds.fillLoop (h : FillHolds g f lines) (s : Screen) (startIndex limit left : Nat)
    (hbounds : ∀ x ∈ lines, dry ≤ x.1 ∧ x.1 ≤ i)
    (hreads : ∀ x ∈ f.reads, dry ≤ x ∧ x < i) (hdry : dry ≤ i)
    (hwindow : f.screenLinesInWindow ≤ lines.length) :
    let (e, f') := fillLoop g s startIndex limit left i f
    dry ≤ e ∧ e ≤ i + left ∧ (∀ x ∈ f'.reads, dry ≤ x ∧ x < i + left) ∧
      ∃ lines', FillHolds g f' lines' ∧ (∀ x ∈ lines', dry ≤ x.1 ∧ x.1 ≤ e) ∧
        f'.screenLinesInWindow ≤ lines'.length := by
  induction left generalizing i f lines with
  | zero => exact ⟨hdry, le_rfl, hreads, lines, h, hbounds, hwindow⟩
  | succ left ih =>
    -- A character after the screen line it belongs to was noted.
    have hstep (f₁ : Fill) (lines₁ : List (Nat × Nat)) (h₁ : FillHolds g f₁ lines₁)
        (hbounds₁ : ∀ x ∈ lines₁, dry ≤ x.1 ∧ x.1 ≤ i)
        (hreads₁ : f₁.reads = f.reads ++ [i])
        (hwindow₁ : f₁.screenLinesInWindow ≤ lines₁.length) :
        let (e, f') := Freestanding.fillLoop g s startIndex limit left (i + 1)
          (Freestanding.fillChar g s startIndex limit i f₁)
        dry ≤ e ∧ e ≤ i + (left + 1) ∧ (∀ x ∈ f'.reads, dry ≤ x ∧ x < i + (left + 1)) ∧
          ∃ lines', FillHolds g f' lines' ∧ (∀ x ∈ lines', dry ≤ x.1 ∧ x.1 ≤ e) ∧
            f'.screenLinesInWindow ≤ lines'.length := by
      obtain ⟨more, hmore, hat, hcount⟩ := h₁.fillChar s startIndex limit i
      rw [← Nat.add_assoc, Nat.add_right_comm]
      refine ih hmore (fun x hx => ?_) (fun x hx => ?_) (by omega) ?_
      · rcases List.mem_append.mp hx with hx | hx
        · have hx := hbounds₁ x hx
          omega
        · rw [hat x hx]
          omega
      · rw [fillChar_reads, hreads₁] at hx
        rcases List.mem_append.mp hx with hx | hx
        · have hx := hreads x hx
          omega
        · rw [List.mem_singleton.mp hx]
          omega
      · rw [List.length_append]
        omega
    rw [Freestanding.fillLoop]
    dsimp only
    split
    · split
      · refine ⟨hdry, Nat.le_add_right _ _, fun x hx => ?_, lines,
          ⟨h.starts, h.lens, h.pos, h.index⟩, hbounds, hwindow⟩
        rcases List.mem_append.mp hx with hx | hx
        · have hx := hreads x hx
          omega
        · rw [List.mem_singleton.mp hx]
          omega
      · have hnext : FillHolds g (f.nextScreenLine g startIndex i f.currentLogicalLineLen) _ :=
          h.nextScreenLine
        refine hstep _ _ ⟨hnext.starts, hnext.lens, hnext.pos, hnext.index⟩ (fun x hx => ?_) rfl ?_
        · rcases List.mem_append.mp hx with hx | hx
          · exact hbounds x hx
          · rw [List.mem_singleton.mp hx]
            exact ⟨hdry, le_rfl⟩
        · rw [List.length_append, List.length_singleton]
          refine (Nat.mod_le _ _).trans (Nat.add_le_add hwindow ?_)
          split <;> simp
    · exact hstep _ _ ⟨h.starts, h.lens, h.pos, h.index⟩ hbounds rfl hwindow

/-- The entries of `screenLinesCopy` that `fillScreenLines` wrote last. -/
structure FillEntries (g : Geometry) (r : FillResult) (starts : List Nat) : Prop where
  ring : RingHolds g.ringGlyphsPerColumn r.screenLinesCopy starts
  index : r.currentScreenLineIndex = (starts.length - 1) % g.ringGlyphsPerColumn
  written : r.realScreenLinesWritten < starts.length
  column : r.realScreenLinesWritten ≤ g.glyphsPerColumn

/-- `fillScreenLines` reads and notes positions between its bounds. -/
theorem fillScreenLines_entries (g : Geometry) (s : Screen) (dry startIndex e limit : Nat) :
    (∀ x ∈ (fillScreenLines g s dry startIndex e limit).reads, dry ≤ x ∧ x < e) ∧
      ∃ starts, FillEntries g (fillScreenLines g s dry startIndex e limit) starts ∧
        ∀ x ∈ starts, dry ≤ x ∧ x ≤ max dry e := by
  have hstart : FillHolds g (fillStart s dry startIndex) [(dry, 0)] := fillHolds_fillStart
  have hwindow : (fillStart s dry startIndex).screenLinesInWindow ≤ [(dry, 0)].length := by
    rw [fillStart]
    dsimp only
    split <;> simp
  have hloop := hstart.fillLoop s startIndex limit (e - dry) (show ∀ x ∈ [(dry, 0)],
    dry ≤ x.1 ∧ x.1 ≤ dry by simp) (fun x hx => (List.not_mem_nil hx).elim) le_rfl hwindow
  unfold fillScreenLines
  generalize fillLoop g s startIndex limit (e - dry) dry (fillStart s dry startIndex) = r at hloop
  obtain ⟨i, f⟩ := r
  obtain ⟨hdry, hle, hreads, lines, hlines, hbounds, hcount⟩ := hloop
  have hpos := hlines.pos
  have hcurrent : ringIncrement f.currentScreenLineIndex g.ringGlyphsPerColumn =
      (lines.map Prod.fst).length % g.ringGlyphsPerColumn := by
    rw [hlines.index, ringIncrement_mod, Nat.sub_add_cancel hpos, List.length_map]
  refine ⟨fun x hx => ?_, lines.map Prod.fst ++ [i], ⟨?_, ?_, ?_, min_le_right _ _⟩,
    fun x hx => ?_⟩
  · have hx := hreads x hx
    omega
  · dsimp only
    rw [hcurrent]
    exact hlines.starts.push
  · dsimp only
    rw [hcurrent, List.length_append, List.length_singleton, Nat.add_sub_cancel]
  · dsimp only
    rw [List.length_append, List.length_map, List.length_singleton]
    omega
  · rcases List.mem_append.mp hx with hx | hx
    · obtain ⟨line, hline, rfl⟩ := List.mem_map.mp hx
      have hx := hbounds line hline
      omega
    · rw [List.mem_singleton.mp hx]
      omega

/-- What was read stays noted. -/
theorem reads_subset_fillLoop (g : Geometry) (s : Screen) (startIndex limit left i : Nat)
    (f : Fill) : f.reads ⊆ (fillLoop g s startIndex limit left i f).2.reads := by
  induction left generalizing i f with
  | zero => exact List.Subset.refl _
  | succ left ih =>
    have hstep (f₁ : Fill) (hreads : f₁.reads = f.reads ++ [i]) : f.reads ⊆
        (fillLoop g s startIndex limit left (i + 1)
          (fillChar g s startIndex limit i f₁)).2.reads := by
      refine List.Subset.trans ?_ (ih (i + 1) _)
      rw [fillChar_reads, hreads]
      exact List.subset_append_left _ _
    rw [fillLoop]
    dsimp only
    split
    · split
      · exact List.subset_append_left _ _
      · exact hstep _ rfl
    · exact hstep _ rfl

/-- The first character is read, if there is any between the bounds. -/
theorem mem_reads_fillScreenLines (g : Geometry) (s : Screen) (startIndex limit : Nat)
    {dry e : Nat} (h : dry < e) : dry ∈ (fillScreenLines g s dry startIndex e limit).reads := by
  obtain ⟨left, hleft⟩ : ∃ left, e - dry = left + 1 := ⟨e - dry - 1, by omega⟩
  have hmore := reads_subset_fillLoop g s startIndex limit left (dry + 1)
    (fillChar g s startIndex limit dry { fillStart s dry startIndex with reads := [dry] })
  rw [fillChar_reads] at hmore
  unfold fillScreenLines
  rw [hleft]
  exact hmore (List.mem_singleton_self dry)

end Fill

/-! ## Drawing screen lines -/

/-- Drawing a character reads nothing further. -/
@[simp] theorem drawChar_reads (g : Geometry) (s : Screen) (screenLinesToDraw rowNumber i : Nat)
    (d : Draw) : (drawChar g s screenLinesToDraw rowNumber i d).reads = d.reads := by
  unfold drawChar
  dsimp only
  split_ifs <;> rfl

/-- The loop reads the characters it goes over. -/
theorem drawLoop_reads {g : Geometry} {s : Screen} {screenLinesToDraw rowNumber left i x : Nat}
    {d : Draw} (hx : x ∈ (drawLoop g s screenLinesToDraw rowNumber left i d).reads) :
    x ∈ d.reads ∨ (i ≤ x ∧ x < i + left) := by
  induction left generalizing i d with
  | zero => exact .inl hx
  | succ left ih =>
    have hhere (hx : x ∈ d.reads ++ [i]) : x ∈ d.reads ∨ (i ≤ x ∧ x < i + (left + 1)) := by
      rcases List.mem_append.mp hx with hx | hx
      · exact .inl hx
      · rw [List.mem_singleton.mp hx]
        omega
    have hstep (d₁ : Draw) (hreads : d₁.reads = d.reads ++ [i])
        (hx : x ∈ (drawLoop g s screenLinesToDraw rowNumber left (i + 1)
          (drawChar g s screenLinesToDraw rowNumber i d₁)).reads) :
        x ∈ d.reads ∨ (i ≤ x ∧ x < i + (left + 1)) := by
      rcases ih hx with hx | hx
      · rw [drawChar_reads, hreads] at hx
        exact hhere hx
      · omega
    rw [drawLoop] at hx
    dsimp only at hx
    split at hx
    · split at hx
      · exact hhere hx
      · exact hstep _ rfl hx
    · exact hstep _ rfl hx

/-- `drawLines` reads from the beginning of its first screen line on. -/
theorem drawLines_reads {g : Geometry} {s : Screen} {startIndex count len row x : Nat}
    (hx : x ∈ (drawLines g s startIndex count len row).reads) :
    s.screenLines startIndex ≤ x ∧ x < s.charCount := by
  rcases drawLoop_reads hx with hx | hx
  · exact (List.not_mem_nil hx).elim
  · omega

/-! ## Copying screen lines -/

section Splice

variable {g : Geometry} {lines copy : Nat → Nat} {dest src count k n m : Nat} {starts : List Nat}

/-- Counted from the end, the ring holds the last entries of the list. -/
theorem entry_fromEnd (h : RingHolds n copy starts) (hm : m < starts.length) (hn : m < n)
    (hk : k ≤ m) : starts[starts.length - 1 - m + k]? =
      some (copy (ringPlus (ringMinus ((starts.length - 1) % n) m n) k n)) := by
  have hlt : starts.length - 1 - m + k < starts.length := by omega
  rw [ringMinus_mod (by omega) (by omega), ringPlus_mod, h.get hlt (by omega),
    List.getElem?_eq_getElem hlt]

/-- The places of the splice hold what was copied there. -/
theorem spliceScreenLines_of_lt (hk : k < count) (hcount : count ≤ g.ringGlyphsPerColumn) :
    spliceScreenLines g lines copy dest src count (ringPlus dest k g.ringGlyphsPerColumn) =
      copy (ringPlus src k g.ringGlyphsPerColumn) := by
  induction count with
  | zero => exact absurd hk (Nat.not_lt_zero k)
  | succ count ih =>
    rw [spliceScreenLines]
    rcases Nat.lt_succ_iff_lt_or_eq.mp hk with hlt | rfl
    · have hne : ringPlus dest k g.ringGlyphsPerColumn ≠
          ringPlus dest count g.ringGlyphsPerColumn :=
        mod_ne_of_lt (by omega) (by omega)
      rw [Function.update_of_ne hne]
      exact ih hlt (by omega)
    · exact Function.update_self _ _ _

/-- Every entry is an old one or one that was copied. -/
theorem spliceScreenLines_cases (g : Geometry) (lines copy : Nat → Nat) (dest src count i : Nat) :
    spliceScreenLines g lines copy dest src count i = lines i ∨
      ∃ k < count, spliceScreenLines g lines copy dest src count i =
        copy (ringPlus src k g.ringGlyphsPerColumn) := by
  induction count with
  | zero => exact .inl rfl
  | succ count ih =>
    rw [spliceScreenLines]
    by_cases hi : i = ringPlus dest count g.ringGlyphsPerColumn
    · rw [hi, Function.update_self]
      exact .inr ⟨count, Nat.lt_succ_self count, rfl⟩
    · rw [Function.update_of_ne hi]
      rcases ih with hold | ⟨k, hk, hcopy⟩
      · exact .inl hold
      · exact .inr ⟨k, Nat.lt_succ_of_lt hk, hcopy⟩

end Splice

end Homegrown.Freestanding
