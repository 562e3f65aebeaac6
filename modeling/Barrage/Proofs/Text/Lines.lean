import Barrage.Text.Line
import Mathlib

/-! # Lines of a text

A text is made of its lines in one way only: each ends with a line feed, with or without a carriage
return before it, and only the last one may do without. -/

namespace Barrage

namespace Text

/-- A text with these lines. A line may end with a carriage return, so each gets one for its line
feed. -/
def ofLines (lines : List (List Char)) : List Char := lines.flatMap (· ++ ['\r', '\n'])

theorem splitAt_append {c : Char} {piece : List Char} (h : c ∉ piece) (rest : List Char) :
    splitAt c (piece ++ c :: rest) = piece :: splitAt c rest := by
  induction piece with
  | nil => simp [splitAt]
  | cons d piece ih =>
    obtain ⟨hne, hpiece⟩ := not_or.1 (mt List.mem_cons.2 h)
    rw [List.cons_append, splitAt, if_neg (Ne.symm hne), ih hpiece]

theorem splitAt_ne_nil (c : Char) (text : List Char) : splitAt c text ≠ [] := by
  cases text with
  | nil => simp [splitAt]
  | cons d rest =>
    unfold splitAt
    split
    · simp
    · split <;> simp

theorem linesOfPieces_cons (line : List Char) {rest : List (List Char)} (h : rest ≠ []) :
    linesOfPieces (line :: rest) = dropCarriageReturn line :: linesOfPieces rest := by
  cases rest with
  | nil => exact absurd rfl h
  | cons => rfl

theorem lines_ofLines {kept : List (List Char)} (h : ∀ line ∈ kept, '\n' ∉ line) :
    lines (ofLines kept) = kept := by
  induction kept with
  | nil => rfl
  | cons line kept ih =>
    have hline : '\n' ∉ line ++ ['\r'] := by
      have hfeed := h line List.mem_cons_self
      simpa using hfeed
    have hsplit : ofLines (line :: kept) = (line ++ ['\r']) ++ '\n' :: ofLines kept := by
      simp [ofLines]
    have hdrop : dropCarriageReturn (line ++ ['\r']) = line := by simp [dropCarriageReturn]
    rw [lines, hsplit, splitAt_append hline, linesOfPieces_cons _ (splitAt_ne_nil _ _), hdrop]
    exact congrArg (line :: ·) (ih fun line hmem => h line (List.mem_cons_of_mem _ hmem))

theorem not_mem_of_mem_splitAt {c : Char} {text piece : List Char} (h : piece ∈ splitAt c text) :
    c ∉ piece := by
  induction text generalizing piece with
  | nil =>
    rw [splitAt, List.mem_singleton] at h
    rw [h]
    exact List.not_mem_nil
  | cons d rest ih =>
    unfold splitAt at h
    split at h
    · rcases List.mem_cons.1 h with rfl | h
      · exact List.not_mem_nil
      · exact ih h
    · next hne =>
      split at h
      · next hnil => exact absurd hnil (splitAt_ne_nil c rest)
      · next first pieces hpieces =>
        rw [hpieces] at ih
        rcases List.mem_cons.1 h with rfl | h
        · rw [List.mem_cons, not_or]
          exact ⟨Ne.symm hne, ih List.mem_cons_self⟩
        · exact ih (List.mem_cons_of_mem _ h)

theorem subset_of_mem_linesOfPieces {pieces : List (List Char)} {line : List Char}
    (h : line ∈ linesOfPieces pieces) : ∃ piece ∈ pieces, line ⊆ piece := by
  induction pieces with
  | nil => cases h
  | cons first rest ih =>
    by_cases hrest : rest = []
    · subst hrest
      unfold linesOfPieces at h
      split at h
      · cases h
      · exact ⟨first, List.mem_cons_self, by rw [List.mem_singleton.1 h]; exact List.Subset.refl _⟩
    · rw [linesOfPieces_cons first hrest] at h
      rcases List.mem_cons.1 h with rfl | h
      · refine ⟨first, List.mem_cons_self, ?_⟩
        unfold dropCarriageReturn
        split
        · exact List.dropLast_subset first
        · exact List.Subset.refl _
      · obtain ⟨piece, hmem, hsub⟩ := ih h
        exact ⟨piece, List.mem_cons_of_mem _ hmem, hsub⟩

theorem no_feed_of_mem_lines {text line : List Char} (h : line ∈ lines text) : '\n' ∉ line := by
  obtain ⟨piece, hmem, hsub⟩ := subset_of_mem_linesOfPieces h
  exact fun hfeed => not_mem_of_mem_splitAt hmem (hsub hfeed)

theorem lines_append {piece : List Char} (h : '\n' ∉ piece) (rest : List Char) :
    lines (piece ++ '\n' :: rest) = dropCarriageReturn piece :: lines rest := by
  rw [lines, splitAt_append h, linesOfPieces_cons _ (splitAt_ne_nil _ _)]
  rfl

theorem splitAt_of_not_mem {c : Char} {text : List Char} (h : c ∉ text) :
    splitAt c text = [text] := by
  induction text with
  | nil => rfl
  | cons d rest ih =>
    obtain ⟨hne, hrest⟩ := not_or.1 (mt List.mem_cons.2 h)
    rw [splitAt, if_neg (Ne.symm hne), ih hrest]

/-- How lines make a text. The last one may end where the text ends, if there is anything in it. -/
inductive MadeOf : List Char → List (List Char) → Prop where
  | nothing : MadeOf [] []
  | last {line : List Char} : '\n' ∉ line → line ≠ [] → MadeOf line [line]
  | feed {line rest : List Char} {lines : List (List Char)} : '\n' ∉ line →
      line.getLast? ≠ some '\r' →
      MadeOf rest lines → MadeOf (line ++ '\n' :: rest) (line :: lines)
  | returnAndFeed {line rest : List Char} {lines : List (List Char)} : '\n' ∉ line →
      MadeOf rest lines → MadeOf (line ++ '\r' :: '\n' :: rest) (line :: lines)

theorem MadeOf.lines_eq {text : List Char} {made : List (List Char)} (h : MadeOf text made) :
    lines text = made := by
  induction h with
  | nothing => rfl
  | @last line hfeed hline =>
    rw [lines, splitAt_of_not_mem hfeed]
    exact if_neg (by simpa using hline)
  | @feed line rest made hfeed hreturn _ ih =>
    rw [lines_append hfeed, ih, dropCarriageReturn, if_neg hreturn]
  | @returnAndFeed line rest made hfeed _ ih =>
    have hsplit : line ++ '\r' :: '\n' :: rest = (line ++ ['\r']) ++ '\n' :: rest := by simp
    have hfeed : '\n' ∉ line ++ ['\r'] := by simpa using hfeed
    have hdrop : dropCarriageReturn (line ++ ['\r']) = line := by simp [dropCarriageReturn]
    rw [hsplit, lines_append hfeed, ih, hdrop]

theorem madeOf_lines (text : List Char) : MadeOf text (lines text) := by
  by_cases hfeed : '\n' ∈ text
  · obtain ⟨piece, rest, rfl, hpiece⟩ := List.eq_append_cons_of_mem hfeed
    rw [lines_append hpiece, dropCarriageReturn]
    have hrest := madeOf_lines rest
    split
    · next hreturn =>
      obtain ⟨line, rfl⟩ := List.getLast?_eq_some_iff.1 hreturn
      have hline : '\n' ∉ line := fun hmem => hpiece (List.mem_append_left _ hmem)
      rw [List.dropLast_concat, List.append_assoc]
      exact .returnAndFeed hline hrest
    · next hreturn => exact .feed hpiece hreturn hrest
  · rw [lines, splitAt_of_not_mem hfeed]
    by_cases htext : text = []
    · subst htext
      exact .nothing
    · have hlast : linesOfPieces [text] = [text] := if_neg (by simpa using htext)
      rw [hlast]
      exact .last hfeed htext
termination_by text.length

theorem madeOf_iff {text : List Char} {made : List (List Char)} :
    MadeOf text made ↔ lines text = made := by
  constructor
  · exact MadeOf.lines_eq
  · rintro rfl
    exact madeOf_lines text

theorem fields_ne_nil (text : List Char) : fields text ≠ [] := by
  fun_cases fields text <;> simp_all

end Text

end Barrage
