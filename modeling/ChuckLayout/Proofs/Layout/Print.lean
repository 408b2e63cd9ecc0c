import ChuckLayout.Proofs.Layout.Indentation
import ChuckLayout.Proofs.Layout.Rows
import Mathlib.Data.List.DropRight

/-!
# Printed rows

The layout of a stream is its rows, one to a line, each indented by the depth of the braces before
it.  Trimming it leaves out the empty rows at either end.
-/

namespace ChuckLayout

open Blank (AllBlank IsTight content)
open Nesting (allBlank_indentation indentation)
open Spacing (rowText rowsAfter rows)

namespace Spacing

def isBraceRow (token : Token) (row : List Lexeme) : Bool :=
  row.map Lexeme.token = [token]

def rowDepth (depth : Int) (row : List Lexeme) : Int :=
  if isBraceRow .closeBrace row then depth - 1 else depth

def depthAfterRow (depth : Int) (row : List Lexeme) : Int :=
  if isBraceRow .openBrace row then depth + 1
  else if isBraceRow .closeBrace row then depth - 1
  else depth

/-- The lines of rows of `stream` that are written from `depth` on. -/
def printRows (stream : List Lexeme) (depth : Int) : List (List Lexeme) → List (List Char)
  | [] => []
  | row :: rest =>
      (indentation (rowDepth depth row) ++ rowText stream none row) ::
        printRows stream (depthAfterRow depth row) rest

/-- The rows without the empty ones at either end. -/
def trimRows (rows : List (List Lexeme)) : List (List Lexeme) :=
  (rows.dropWhile List.isEmpty).rdropWhile List.isEmpty

end Spacing

open Spacing (isBraceRow rowDepth depthAfterRow printRows trimRows)

variable {stream : List Lexeme}

/-- A row looks like a brace alone in its line exactly if it is one. -/
theorem rowText_eq_brace_iff (stream : List Lexeme) {row : List Lexeme}
    (hneat : ∀ lexeme ∈ row, lexeme.IsNeat) (token : Token) (hbrace : token.isBrace) :
    rowText stream none row = token.spelling ↔ isBraceRow token row := by
  have hspelling : ∃ char, token.spelling = [char] := by
    revert hbrace
    cases token <;> simp [Token.isBrace, Token.spelling, Token.spelling?]
  rcases row with _ | ⟨first, _ | ⟨second, rest⟩⟩
  · obtain ⟨char, hchar⟩ := hspelling
    simp [rowText, isBraceRow, hchar]
  · simp only [rowText, isBraceRow, List.map_cons, List.map_nil, decide_eq_true_eq,
      List.cons.injEq, and_true]
    refine ⟨(hneat first List.mem_cons_self).brace token hbrace, ?_⟩
    rintro rfl
    unfold Lexeme.core Lexeme.shown
    revert hbrace
    cases first.token <;> simp [Token.isBrace]
  · obtain ⟨char, hchar⟩ := hspelling
    -- Two lexemes take two characters at least.
    have htight : ∀ lexeme ∈ first :: second :: rest, IsTight lexeme.core :=
      fun lexeme hlexeme => (hneat lexeme hlexeme).isTight_core
    have hfirst := List.length_pos_iff.mpr (htight first List.mem_cons_self).ne_nil
    have hrest := isTight_rowText stream
      (fun lexeme hlexeme => htight lexeme (.tail _ hlexeme)) (List.cons_ne_nil _ _) (some first)
    have hsecond := List.length_pos_iff.mpr hrest.ne_nil
    have hnot : isBraceRow token (first :: second :: rest) = false := by
      simp [isBraceRow]
    rw [hnot, hchar, rowText]
    constructor
    · intro htext
      have hlength := congrArg List.length htext
      simp only [List.length_append, List.length_singleton] at hlength
      omega
    · exact fun h => absurd h Bool.false_ne_true

/-- The indentation reads off the text of a row what its tokens say. -/
theorem depthAfter_rowText (stream : List Lexeme) {row : List Lexeme}
    (hneat : ∀ lexeme ∈ row, lexeme.IsNeat) (depth : Int) :
    Nesting.depthAfter depth (rowText stream none row) = depthAfterRow depth row := by
  have hopen := rowText_eq_brace_iff stream hneat .openBrace rfl
  have hclose := rowText_eq_brace_iff stream hneat .closeBrace rfl
  simp only [Nesting.depthAfter, depthAfterRow, ← hopen, ← hclose]
  rfl

/-- The lines of a rendered stream, indented, are its printed rows. -/
theorem indentLines_map_squeeze {lines : List (List Char)} {found : List (List Lexeme)}
    (hshows : List.Forall₂ (LineShows stream none) lines found)
    (hneat : ∀ row ∈ found, ∀ lexeme ∈ row, lexeme.IsNeat) (depth : Int) :
    Nesting.indentLines depth (lines.map Blank.squeeze) = printRows stream depth found := by
  induction hshows generalizing depth with
  | nil => rfl
  | @cons line row lines found hline _ ih =>
      obtain ⟨hrow, hrest⟩ := List.forall_mem_cons.mp hneat
      have hcontent : Blank.trim (Blank.squeeze line) = rowText stream none row := hline.content
      have hclose := rowText_eq_brace_iff stream hrow .closeBrace rfl
      have hdepth : Nesting.depthOf depth (rowText stream none row) = rowDepth depth row := by
        simp only [Nesting.depthOf, rowDepth, ← hclose]
        rfl
      rw [List.map_cons, Nesting.indentLines, hcontent, hdepth, depthAfter_rowText stream hrow,
        ih hrest, printRows]

section

variable (hneat : ∀ lexeme ∈ stream, lexeme.token ≠ .newline → lexeme.IsNeat)

include hneat

theorem isNeat_of_mem_rows {row : List Lexeme} (hrow : row ∈ rows stream) :
    ∀ lexeme ∈ row, lexeme.IsNeat := by
  intro lexeme hlexeme
  obtain ⟨hmem, hnot⟩ := Spacing.mem_rowsAfter hrow lexeme hlexeme
  exact hneat lexeme hmem hnot

/-- The layout of a stream is its printed rows. -/
theorem layOut_eq_join_printRows :
    Document.layOut stream = Line.join (printRows stream 0 (rows stream)) := by
  rw [Document.layOut, Nesting.indent, Spacing.render, Blank.split_squeeze,
    indentLines_map_squeeze (split_flatten_writtenAfter hneat)
      fun _ hrow => isNeat_of_mem_rows hneat hrow]

end

/-! ## Trimmed rows -/

theorem Line.join_cons (line : List Char) (rest : List (List Char)) :
    Line.join (line :: rest) = line ++ rest.flatMap fun next => '\n' :: next := by
  induction rest generalizing line with
  | nil => simp [Line.join]
  | cons next rest ih =>
      rw [Line.join, List.intercalate_cons_cons, ← Line.join, ih]
      simp

theorem printRows_append (stream : List Lexeme) (depth : Int) (front back : List (List Lexeme)) :
    printRows stream depth (front ++ back) =
      printRows stream depth front ++ printRows stream (front.foldl depthAfterRow depth) back := by
  induction front generalizing depth with
  | nil => rfl
  | cons row front ih =>
      rw [List.cons_append, printRows, printRows, ih, List.cons_append, List.foldl_cons]

/-- Empty rows at the front do not move the depth, and trimming takes their lines away. -/
theorem trim_join_dropWhile (found : List (List Lexeme)) :
    Blank.trim (Line.join (printRows stream 0 (found.dropWhile List.isEmpty))) =
      Blank.trim (Line.join (printRows stream 0 found)) := by
  induction found with
  | nil => rfl
  | cons row rest ih =>
      cases row with
      | cons lexeme row => rfl
      | nil =>
          rw [List.dropWhile_cons_of_pos rfl, ih]
          cases rest with
          | nil => rfl
          | cons next rest =>
              have hline : indentation (rowDepth 0 []) ++ rowText stream none [] = [] := rfl
              have hdepth : depthAfterRow 0 [] = 0 := rfl
              have hfeed : AllBlank ['\n'] := by simp [AllBlank, Blank.isBlank_lineFeed]
              have hlines : printRows stream 0 ([] :: next :: rest) =
                  [] :: printRows stream 0 (next :: rest) := by
                rw [printRows, hline, hdepth]
              have hjoin : Line.join ([] :: printRows stream 0 (next :: rest)) =
                  ['\n'] ++ Line.join (printRows stream 0 (next :: rest)) := by
                rw [Line.join_cons, printRows, List.flatMap_cons, Line.join_cons]
                rfl
              rw [hlines, hjoin, Blank.trim_of_blank_append hfeed]

theorem trim_join_rdropWhile (found : List (List Lexeme)) :
    Blank.trim (Line.join (printRows stream 0 (found.rdropWhile List.isEmpty))) =
      Blank.trim (Line.join (printRows stream 0 found)) := by
  induction found using List.reverseRecOn with
  | nil => rfl
  | append_singleton front row ih =>
      cases row with
      | cons lexeme row => rw [List.rdropWhile_concat_neg _ _ _ (by simp)]
      | nil =>
          rw [List.rdropWhile_concat_pos _ _ _ rfl, ih]
          cases front with
          | nil => rfl
          | cons first front =>
              have hblank : ∀ depth,
                  AllBlank ('\n' :: (indentation depth ++ rowText stream none [])) := by
                intro depth
                rw [Blank.allBlank_cons, rowText, List.append_nil]
                exact ⟨Blank.isBlank_lineFeed, allBlank_indentation depth⟩
              rw [List.cons_append, printRows, printRows, printRows_append, printRows, printRows,
                Line.join_cons, Line.join_cons, List.flatMap_append, ← List.append_assoc,
                List.flatMap_singleton, Blank.trim_append_of_blank (hblank _)]

theorem indentation_rowDepth_zero (row : List Lexeme) : indentation (rowDepth 0 row) = [] := by
  rw [rowDepth]
  split <;> rfl

/-- A print that begins and ends with rows that show something has no blanks at its ends. -/
theorem isTight_join_printRows {found : List (List Lexeme)}
    (htight : ∀ row ∈ found, ∀ lexeme ∈ row, IsTight lexeme.core)
    (hfirst : found.head?.any fun row => !row.isEmpty)
    (hlast : found.getLast?.any fun row => !row.isEmpty) :
    IsTight (Line.join (printRows stream 0 found)) := by
  have hrow : ∀ row ∈ found, row.isEmpty = false → IsTight (rowText stream none row) := by
    intro row hmem hempty
    exact isTight_rowText stream (htight row hmem) (List.isEmpty_eq_false_iff.mp hempty) none
  constructor
  · cases found with
    | nil => simp at hfirst
    | cons row rest =>
        have hempty : row.isEmpty = false := by simpa using hfirst
        have htext := hrow row List.mem_cons_self hempty
        rw [printRows, indentation_rowDepth_zero, Line.join_cons, List.nil_append,
          List.head?_append_of_ne_nil _ htext.ne_nil]
        exact htext.1
  · rcases found.eq_nil_or_concat' with rfl | ⟨front, row, rfl⟩
    · simp at hlast
    · have hempty : row.isEmpty = false := by simpa using hlast
      have htext := hrow row (by simp) hempty
      rw [printRows_append, printRows, printRows]
      have hline : ∀ lead : List Char, (lead ++ rowText stream none row).getLast?.any
          fun char => !Blank.isBlank char := by
        intro lead
        rw [List.getLast?_append_of_ne_nil _ htext.ne_nil]
        exact htext.2
      cases printRows stream 0 front with
      | nil =>
          rw [List.nil_append, Line.join_cons, List.flatMap_nil, List.append_nil]
          exact hline _
      | cons line lines =>
          rw [List.cons_append, Line.join_cons, List.flatMap_append, List.flatMap_singleton,
            ← List.append_assoc, ← List.cons_append, ← List.append_assoc]
          exact hline _

theorem head?_trimRows (found : List (List Lexeme)) (hfound : trimRows found ≠ []) :
    (trimRows found).head?.any fun row => !row.isEmpty := by
  have hhead := List.head?_dropWhile_not List.isEmpty found
  obtain ⟨back, hback⟩ : trimRows found <+: found.dropWhile List.isEmpty :=
    List.rdropWhile_prefix _ _
  obtain ⟨row, rest, hcons⟩ := List.exists_cons_of_ne_nil hfound
  rw [hcons] at hback ⊢
  rw [← hback, List.cons_append, List.head?_cons] at hhead
  simpa using hhead

theorem getLast?_trimRows (found : List (List Lexeme)) (hfound : trimRows found ≠ []) :
    (trimRows found).getLast?.any fun row => !row.isEmpty := by
  have hlast := List.rdropWhile_last_not List.isEmpty (found.dropWhile List.isEmpty) hfound
  rw [List.getLast?_eq_some_getLast hfound, Option.any_some, Bool.not_eq_true']
  exact Bool.eq_false_iff.mpr hlast

theorem exists_dropWhile_isEmpty (found : List (List Lexeme)) :
    ∃ before, found = List.replicate before [] ++ found.dropWhile List.isEmpty := by
  have hempty : found.takeWhile List.isEmpty =
      List.replicate (found.takeWhile List.isEmpty).length [] :=
    List.eq_replicate_of_mem fun row hrow => List.isEmpty_iff.mp (List.mem_takeWhile_imp hrow)
  refine ⟨(found.takeWhile List.isEmpty).length, ?_⟩
  rw [← hempty, List.takeWhile_append_dropWhile]

theorem exists_rdropWhile_isEmpty (found : List (List Lexeme)) :
    ∃ after, found = found.rdropWhile List.isEmpty ++ List.replicate after [] := by
  obtain ⟨after, hafter⟩ := exists_dropWhile_isEmpty found.reverse
  refine ⟨after, ?_⟩
  rw [← List.reverse_inj, List.reverse_append, List.reverse_replicate, List.rdropWhile,
    List.reverse_reverse, ← hafter]

/-- Trimming rows leaves out empty rows only. -/
theorem exists_trimRows (found : List (List Lexeme)) :
    ∃ before after, found =
      List.replicate before [] ++ trimRows found ++ List.replicate after [] := by
  obtain ⟨before, hbefore⟩ := exists_dropWhile_isEmpty found
  obtain ⟨after, hafter⟩ := exists_rdropWhile_isEmpty (found.dropWhile List.isEmpty)
  refine ⟨before, after, ?_⟩
  rw [List.append_assoc, trimRows, ← hafter, ← hbefore]

theorem trimRows_subset (found : List (List Lexeme)) : trimRows found ⊆ found := by
  intro row hrow
  exact (List.dropWhile_suffix _).subset ((List.rdropWhile_prefix _ _).subset hrow)

/-- Trimming the printed rows leaves out the empty rows at either end. -/
theorem trim_join_printRows {found : List (List Lexeme)}
    (htight : ∀ row ∈ found, ∀ lexeme ∈ row, IsTight lexeme.core) :
    Blank.trim (Line.join (printRows stream 0 found)) =
      Line.join (printRows stream 0 (trimRows found)) := by
  rw [← trim_join_dropWhile, ← trim_join_rdropWhile, ← trimRows]
  by_cases hfound : trimRows found = []
  · rw [hfound]
    rfl
  · exact Blank.trim_of_tight (isTight_join_printRows
      (fun row hrow => htight row (trimRows_subset found hrow)) (head?_trimRows found hfound)
      (getLast?_trimRows found hfound))

end ChuckLayout
