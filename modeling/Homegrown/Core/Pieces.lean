import Mathlib.Data.List.Basic
import Mathlib.Data.List.TakeWhile

/-!
# Pieces between separators

A separator ends a piece, and what comes behind the last separator is a piece only if it is not
empty. `pieces_eq_cons` is how a program finds them one after the other, and
`intercalate_pieces` says that nothing but a separator at the end is lost.
-/

namespace Homegrown

variable {α : Type} [DecidableEq α]

/-- The list without the separator it ends in, if it does. -/
def dropTerminator (sep : α) (l : List α) : List α :=
  if l.getLast? = some sep then l.dropLast else l

/-- The pieces of a list. -/
def pieces (sep : α) (l : List α) : List (List α) :=
  if l = [] then [] else (dropTerminator sep l).splitOn sep

section Pieces

variable {sep : α} {l p rest : List α}

/-- Nothing has no pieces. -/
@[simp] theorem pieces_nil : pieces sep [] = [] := rfl

/-- Without a separator nothing is dropped. -/
theorem dropTerminator_of_notMem (h : sep ∉ l) : dropTerminator sep l = l :=
  if_neg fun hlast => h (List.mem_of_getLast? hlast)

/-- A separator in front of other elements is no terminator. -/
theorem dropTerminator_append_cons (hne : rest ≠ []) :
    dropTerminator sep (p ++ sep :: rest) = p ++ sep :: dropTerminator sep rest := by
  have hlast : (p ++ sep :: rest).getLast? = rest.getLast? := by
    rw [List.getLast?_append_cons, List.getLast?_cons_of_ne_nil hne]
  have hdrop : (p ++ sep :: rest).dropLast = p ++ sep :: rest.dropLast := by
    rw [List.dropLast_append_of_ne_nil (List.cons_ne_nil _ _), List.dropLast_cons_of_ne_nil hne]
  rw [dropTerminator, dropTerminator, hlast, hdrop]
  split <;> rfl

/-- The separator at the end is dropped. -/
theorem dropTerminator_concat : dropTerminator sep (p ++ [sep]) = p := by
  rw [dropTerminator, if_pos (List.getLast?_concat ..), List.dropLast_concat]

/-- The piece behind the last separator. -/
theorem pieces_of_notMem (hne : l ≠ []) (h : sep ∉ l) : pieces sep l = [l] := by
  rw [pieces, if_neg hne, dropTerminator_of_notMem h, List.splitOn_eq_singleton h]

/-- The piece that the first separator ends. -/
theorem pieces_append_cons (h : sep ∉ p) :
    pieces sep (p ++ sep :: rest) = p :: pieces sep rest := by
  rw [pieces, if_neg (List.append_ne_nil_of_right_ne_nil _ (List.cons_ne_nil _ _)), pieces]
  by_cases hne : rest = []
  · subst hne
    rw [if_pos rfl, dropTerminator_concat, List.splitOn_eq_singleton h]
  · rw [if_neg hne, dropTerminator_append_cons hne, List.splitOn_append_cons_self_of_not_mem h]

/-- What comes before the first separator. -/
theorem takeWhile_append_cons (h : sep ∉ p) : (p ++ sep :: rest).takeWhile (· ≠ sep) = p := by
  have hbefore (b : α) (hb : b ∈ p) : decide (b ≠ sep) = true := by
    rw [decide_eq_true_iff]
    rintro rfl
    exact h hb
  rw [List.takeWhile_append_of_pos hbefore]
  simp

/-- Without a separator everything is taken. -/
theorem takeWhile_of_notMem (h : sep ∉ l) : l.takeWhile (· ≠ sep) = l := by
  apply List.takeWhile_eq_self_iff.mpr
  intro b hb
  rw [decide_eq_true_iff]
  rintro rfl
  exact h hb

/-- What comes before the first separator, if its place is known. -/
theorem takeWhile_eq_take {n : Nat} (hbefore : ∀ j < n, l[j]? ≠ some sep)
    (hn : l[n]? = some sep ∨ l.length ≤ n) : l.takeWhile (· ≠ sep) = l.take n := by
  have hfirst : sep ∉ l.take n := by
    intro hmem
    obtain ⟨j, hj⟩ := List.mem_iff_getElem?.mp hmem
    rw [List.getElem?_take] at hj
    split at hj
    · exact hbefore j ‹_› hj
    · cases hj
  rcases hn with hn | hn
  · obtain ⟨hlt, hsep⟩ := List.getElem?_eq_some_iff.mp hn
    have hl : l = l.take n ++ sep :: l.drop (n + 1) := by
      rw [← hsep, ← List.drop_eq_getElem_cons hlt, List.take_append_drop]
    calc l.takeWhile (· ≠ sep)
        = (l.take n ++ sep :: l.drop (n + 1)).takeWhile (· ≠ sep) := congrArg _ hl
      _ = l.take n := takeWhile_append_cons hfirst
  · rw [List.take_of_length_le hn] at hfirst ⊢
    exact takeWhile_of_notMem hfirst

/-- The first piece is what comes before a separator, and the others come behind it. -/
theorem pieces_eq_cons (hne : l ≠ []) : pieces sep l =
    l.takeWhile (· ≠ sep) :: pieces sep (l.drop ((l.takeWhile (· ≠ sep)).length + 1)) := by
  by_cases hmem : sep ∈ l
  · obtain ⟨p, rest, rfl, hp⟩ := List.eq_append_cons_of_mem hmem
    rw [takeWhile_append_cons hp, pieces_append_cons hp, ← List.drop_drop, List.drop_left,
      List.drop_one, List.tail_cons]
  · rw [takeWhile_of_notMem hmem, List.drop_of_length_le (Nat.le_succ _), pieces_nil]
    exact pieces_of_notMem hne hmem

/-- No piece contains the separator. -/
theorem notMem_of_mem_pieces (hp : p ∈ pieces sep l) : sep ∉ p := by
  induction hn : l.length using Nat.strong_induction_on generalizing l with
  | _ n ih =>
    by_cases hne : l = []
    · simp [hne] at hp
    · rw [pieces_eq_cons hne, List.mem_cons] at hp
      rcases hp with rfl | hp
      · exact fun hmem => by simpa using List.mem_takeWhile_imp hmem
      · have hpos := List.length_pos_iff.mpr hne
        exact ih _ (by rw [List.length_drop]; omega) hp rfl

/-- The pieces with separators between them are the list, but for a separator at its end. -/
theorem intercalate_pieces (sep : α) (l : List α) :
    [sep].intercalate (pieces sep l) = dropTerminator sep l := by
  by_cases hne : l = []
  · subst hne
    rfl
  · rw [pieces, if_neg hne, List.intercalate_splitOn]

end Pieces

end Homegrown
