import ChuckLayout.Proofs.Relexing.Rows
import ChuckLayout.Proofs.Rereading.Formatted

/-!
# The formatted source is read back

When no raw text of a stream merges with its neighbour, and its quotes stay open, the formatted
source is lexed as the rows of the stream, each lexeme settled and a line break after each row.
-/

namespace ChuckLayout

open Lexeme (Corresponds)
open List (Forall₂)
open Spacing

def brokenRows (found : List (List Lexeme)) : List Lexeme :=
  found.flatMap fun row => row ++ [.lineBreak]

theorem brokenRows_cons (row : List Lexeme) (rest : List (List Lexeme)) :
    brokenRows (row :: rest) = row ++ .lineBreak :: brokenRows rest := by
  simp [brokenRows]

variable {stream : List Lexeme}

/-- The indentation of a line is lexed as nothing, so the line is read back as its row. -/
theorem lexAtoms_lineAtoms_append {row : List Lexeme} (hrow : IsRow row) (hmerges : NothingMerges row)
    {tail : List Atom} (htail : ahead tail = []) (depth : Int) :
    lexAtoms [] (lineAtoms stream depth row ++ tail) =
      relexed stream none row ++ lexAtoms [] tail := by
  rw [lineAtoms, List.append_assoc, Nesting.indentation, lexAtoms_spaces,
    lexAtoms_rowAtoms_append hrow hmerges htail]

/-- Printed rows are lexed as the rows. -/
theorem lexAtoms_printAtoms {found : List (List Lexeme)} (hne : found ≠ [])
    (hfound : ∀ row ∈ found, IsRow row ∧ NothingMerges row) (depth : Int) :
    lexAtoms [] (printAtoms stream depth found) = brokenRows (found.map (relexed stream none)) := by
  induction found generalizing depth with
  | nil => exact absurd rfl hne
  | cons row rest ih =>
      obtain ⟨⟨hrow, hmerges⟩, hrest⟩ := List.forall_mem_cons.mp hfound
      cases rest with
      | nil =>
          have hend : ahead [] = [] := rfl
          rw [printAtoms, ← List.append_nil (lineAtoms stream depth row),
            lexAtoms_lineAtoms_append hrow hmerges hend, lexAtoms, codeOf_nil]
          simp [brokenRows]
      | cons next rest =>
          have hend : ∀ rest, ahead (.char '\n' :: rest) = [] := fun _ => if_pos rfl
          rw [printAtoms, lexAtoms_lineAtoms_append hrow hmerges (hend _), lexAtoms, if_pos rfl,
            codeOf_nil, ih (List.cons_ne_nil _ _) hrest]
          simp [brokenRows]

/-- Whether raw text goes on into the next lexeme does not depend on what a placeholder is
called. -/
theorem merges_iff {related : List Char → List Char → Prop} {first first' second second' : Lexeme}
    (hfirst : SameBut related first.item first'.item)
    (hsecond : SameBut related second.item second'.item) :
    Merges first second ↔ Merges first' second' := by
  have htoken : first.token = first'.token := hfirst.token
  have htoken' : second.token = second'.token := hsecond.token
  rw [Merges, Merges, ← htoken, ← htoken']
  refine and_congr_right fun htext => ?_
  have hsame : first.text = first'.text := by
    apply hfirst.other
    rw [Lexeme.item, htext]
    exact Token.noConfusion
  rw [hsame]

/-- Literals do not merge, so what is in them does not matter. -/
theorem nothingMerges_iff {related : List Char → List Char → Prop} {lexemes others : List Lexeme}
    (hlexemes : Forall₂ (Corresponds (SameBut related)) lexemes others) :
    NothingMerges lexemes ↔ NothingMerges others := by
  rw [NothingMerges, NothingMerges]
  induction hlexemes with
  | nil => exact iff_of_true .nil .nil
  | cons hfirst hrest ih =>
      cases hrest with
      | nil => exact iff_of_true (List.isChain_singleton _) (List.isChain_singleton _)
      | cons hsecond hlater =>
          rw [List.isChain_cons_cons, List.isChain_cons_cons, ih,
            merges_iff hfirst.item hsecond.item]

theorem nothingMerges_of_mem_rows {source : List Char}
    (hmerges : NothingMerges (plainStream source)) {row : List Lexeme}
    (hrow : row ∈ shownRows source) : NothingMerges row :=
  hmerges.infix (isInfix_of_mem_rowsAfter.1 row (trimRows_subset _ hrow))

/-- The formatted source is lexed as the rows that it shows. -/
theorem lexAtoms_atoms_tidy {source : List Char} (hquotes : QuoteStaysOpen (shownItems source))
    (hmerges : NothingMerges (plainStream source)) (hne : shownRows source ≠ []) :
    lexAtoms [] (atoms (Document.tidy source)) =
      brokenRows ((shownRows source).map (relexed (plainStream source) none)) := by
  rw [atoms_tidy hquotes]
  exact lexAtoms_printAtoms hne
    (fun row hrow => ⟨isRow_of_mem_shownRows hrow, nothingMerges_of_mem_rows hmerges hrow⟩) 0

end ChuckLayout
