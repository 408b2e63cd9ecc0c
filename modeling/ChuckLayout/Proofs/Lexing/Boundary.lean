import ChuckLayout.Lexeme.Line
import ChuckLayout.Proofs.Masking.Numbering
import ChuckLayout.Proofs.Text.Cutting
import ChuckLayout.Proofs.Text.Solid
import Mathlib.Data.List.Find

/-!
# Boundaries between words

No piece of a text reaches across a place where a word begins or ends, so a text may be scanned in
parts there.  Lexemes do not depend on the gaps around the code that they are read from.
-/

namespace ChuckLayout

open Blank (AllBlank)
open Word (IsWord isWordChar)

def IsBoundary (front back : List Char) : Prop :=
  ∀ last first, front.getLast? = some last → back.head? = some first →
    isWordChar last ≠ isWordChar first

namespace Piece

theorem isBlank_of_isGap {char : Char} (hgap : isGap char) : Blank.isBlank char := by
  simp only [isGap, Bool.or_eq_true, beq_iff_eq] at hgap
  rcases hgap with ((rfl | rfl) | rfl) | rfl <;> decide

theorem isWordChar_of_isGap {char : Char} (hgap : isGap char) : isWordChar char = false := by
  simp only [isGap, Bool.or_eq_true, beq_iff_eq] at hgap
  rcases hgap with ((rfl | rfl) | rfl) | rfl <;> decide

theorem not_isWordChar_of_mem_marks {mark : Token × List Char} (hmark : mark ∈ marks) :
    ∀ char ∈ mark.2, isWordChar char = false := by
  have hall : ∀ mark ∈ marks, mark.2.any isWordChar = false := by decide
  simpa using hall mark hmark

/-- A mark that reaches into `back` has no word character on either side of the boundary. -/
theorem isPrefix_of_isBoundary {front back : List Char} (hboundary : IsBoundary front back)
    (hfront : front ≠ []) {mark : Token × List Char} (hmark : mark ∈ marks)
    (hstarts : mark.2 <+: front ++ back) : mark.2 <+: front := by
  rcases List.prefix_or_prefix_of_prefix hstarts (List.prefix_append front back) with hshort | hlong
  · exact hshort
  · obtain ⟨later, hlater⟩ := hlong
    rw [← hlater, List.prefix_append_right_inj] at hstarts
    cases later with
    | nil =>
        rw [← hlater, List.append_nil]
    | cons first later =>
        obtain ⟨end', rfl⟩ := hstarts
        have hchars := not_isWordChar_of_mem_marks hmark
        have hmeet := hboundary (front.getLast hfront) first
          (List.getLast?_eq_some_getLast hfront) rfl
        rw [hchars first (by simp [← hlater]),
          hchars _ (by simp [← hlater, List.getLast_mem hfront])] at hmeet
        exact absurd rfl hmeet

/-- The leading piece stays when neither a run nor a mark goes on into what is added. -/
theorem leading_append_of {char : Char} {rest back : List Char}
    (hgap : isGap char → (rest ++ back).takeWhile isGap = rest.takeWhile isGap)
    (hword : isWordChar char → (rest ++ back).takeWhile isWordChar = rest.takeWhile isWordChar)
    (hmarks : ∀ mark ∈ marks, mark.2 <+: char :: rest ++ back → mark.2 <+: char :: rest) :
    leading char (rest ++ back) = leading char rest := by
  unfold leading
  by_cases hgapChar : isGap char
  · rw [if_pos hgapChar, if_pos hgapChar, hgap hgapChar]
  · rw [if_neg hgapChar, if_neg hgapChar]
    by_cases hwordChar : isWordChar char
    · rw [if_pos hwordChar, if_pos hwordChar, hword hwordChar]
    · rw [if_neg hwordChar, if_neg hwordChar, ← List.cons_append]
      have hfind : (marks.find? fun mark => mark.2.isPrefixOf (char :: rest ++ back)) =
          marks.find? fun mark => mark.2.isPrefixOf (char :: rest) := by
        apply List.find?_congr
        intro mark hmark
        rw [Bool.eq_iff_iff, List.isPrefixOf_iff_prefix, List.isPrefixOf_iff_prefix]
        exact ⟨hmarks mark hmark, fun hstarts => hstarts.trans (List.prefix_append _ _)⟩
      rw [hfind]

/-- No piece reaches across a boundary. -/
theorem leading_append {char : Char} {rest back : List Char}
    (hboundary : IsBoundary (char :: rest) back) :
    leading char (rest ++ back) = leading char rest := by
  have hstop : ∀ keeps : Char → Bool, (∃ word, ∀ other, keeps other → isWordChar other = word) →
      keeps char → (rest ++ back).takeWhile keeps = rest.takeWhile keeps := by
    intro keeps ⟨word, hword⟩ hchar
    apply takeWhile_append_of_stop
    intro hrest first hfirst
    have hlast : keeps ((char :: rest).getLast (List.cons_ne_nil _ _)) := by
      rcases List.mem_cons.mp (List.getLast_mem (List.cons_ne_nil char rest)) with heq | hmem
      · rw [heq]
        exact hchar
      · exact hrest _ hmem
    have hmeet := hboundary _ first (List.getLast?_eq_some_getLast (List.cons_ne_nil _ _)) hfirst
    rw [hword _ hlast] at hmeet
    rw [Bool.eq_false_iff]
    intro hkeeps
    exact hmeet (hword first hkeeps).symm
  exact leading_append_of (hstop isGap ⟨false, fun _ => isWordChar_of_isGap⟩)
    (hstop isWordChar ⟨true, fun _ => id⟩)
    fun mark hmark => isPrefix_of_isBoundary hboundary (List.cons_ne_nil _ _) hmark

end Piece

theorem IsBoundary.of_suffix {front part back : List Char} (hboundary : IsBoundary front back)
    (hpart : part <:+ front) : IsBoundary part back := by
  intro last first hlast hfirst
  obtain ⟨lead, rfl⟩ := hpart
  exact hboundary last first (by rw [List.getLast?_append, hlast]; rfl) hfirst

theorem Piece.exists_later (char : Char) (rest : List Char) :
    ∃ later, char :: rest = (Piece.leading char rest).text ++ later ∧
      later.length < (char :: rest).length :=
  Cut.exists_later Piece.leading_isFront char rest

theorem scan_nil : scan [] = [] :=
  Cut.cut_nil

theorem scan_of_leading {char : Char} {rest : List Char} {piece : Piece}
    (hleading : Piece.leading char rest = piece) (later : List Char)
    (htext : char :: rest = piece.text ++ later) :
    scan (char :: rest) = piece :: scan later :=
  Cut.cut_of_leading Piece.leading_isFront hleading later htext

/-- Code that ends or begins with a word at the seam is scanned in two parts. -/
theorem scan_append {front back : List Char} (hboundary : IsBoundary front back) :
    scan (front ++ back) = scan front ++ scan back :=
  Cut.cut_append Piece.leading_isFront
    fun _ _ hsuffix => Piece.leading_append (hboundary.of_suffix hsuffix)

end ChuckLayout
