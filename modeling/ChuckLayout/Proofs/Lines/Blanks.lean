import ChuckLayout.Proofs.Layout.Places
import ChuckLayout.Proofs.Rereading.Formatted

/-!
# Blanks of the formatted source

A line of the formatted source is indented in steps of four spaces, and what it shows is tight.
Apart from what literals hold, which are put back after everything has been squeezed, no blanks are
left in it but single spaces.
-/

namespace ChuckLayout

open Lexeme (Corresponds)
open List (Forall₂)
open Spacing

namespace Blank

/-- There are no blanks but spaces, and no space follows another. -/
structure IsClean (text : List Char) : Prop where
  spaces : ∀ char ∈ text, isBlank char → char = ' '
  single : ¬[' ', ' '] <:+: text

variable {text line : List Char}

theorem isClean_nil : IsClean [] where
  spaces _ hchar := absurd hchar List.not_mem_nil
  single := by decide

theorem IsClean.of_isInfix {part : List Char} (hclean : IsClean text) (hpart : part <:+: text) :
    IsClean part where
  spaces char hchar := hclean.spaces char (hpart.subset hchar)
  single hpair := hclean.single (hpair.trans hpart)

theorem IsClean.lineFeed_not_mem (hclean : IsClean text) : '\n' ∉ text := by
  intro hfeed
  exact absurd (hclean.spaces '\n' hfeed isBlank_lineFeed) (by decide)

/-- No space is written after a space, also not after one that was written before the text. -/
theorem not_isInfix_squeezeFrom (afterBlank : Bool) (text : List Char) :
    ¬[' ', ' '] <:+: squeezeFrom afterBlank text ∧
      (afterBlank → (squeezeFrom afterBlank text).head? ≠ some ' ') := by
  induction text generalizing afterBlank with
  | nil => simp [squeezeFrom]
  | cons first rest ih =>
      rw [squeezeFrom]
      split
      · obtain ⟨hsingle, hhead⟩ := ih true
        split
        · exact ⟨hsingle, fun _ => hhead rfl⟩
        · rename_i hafter
          refine ⟨?_, fun h => absurd h hafter⟩
          rw [List.infix_cons_iff, List.cons_prefix_cons]
          rintro (⟨-, hstarts⟩ | hlater)
          · exact hhead rfl (List.singleton_prefix_iff_head?_eq_some.mp hstarts)
          · exact hsingle hlater
      · rename_i hfirst
        have hne : first ≠ ' ' := by
          rintro rfl
          exact hfirst (by decide)
        refine ⟨?_, fun _ hhead => hne (Option.some.inj hhead)⟩
        rw [List.infix_cons_iff, List.cons_prefix_cons]
        rintro (⟨hsame, -⟩ | hlater)
        · exact hne hsame.symm
        · exact (ih false).1 hlater

/-- Squeezing leaves single spaces, and no other blanks within a line. -/
theorem isClean_squeeze (hfeed : '\n' ∉ line) : IsClean (squeeze line) where
  spaces char hchar hblank := by
    rcases mem_of_mem_squeezeFrom hchar with hspace | ⟨hmem, hhorizontal⟩
    · exact hspace
    · have hne : char ≠ '\n' := fun hsame => hfeed (hsame ▸ hmem)
      rw [isHorizontal_eq_isBlank hne, hblank] at hhorizontal
      exact Bool.noConfusion hhorizontal
  single := (not_isInfix_squeezeFrom false line).1

theorem isClean_content (hfeed : '\n' ∉ line) : IsClean (content line) :=
  (isClean_squeeze hfeed).of_isInfix (trim_isInfix _)

end Blank

open Blank (IsClean IsTight isBlank)

/-! ## Indented lines -/

/-- A line that is indented in steps of four spaces. -/
structure IndentedLine where
  steps : Nat
  content : List Char

namespace IndentedLine

def text (line : IndentedLine) : List Char :=
  List.replicate (4 * line.steps) ' ' ++ line.content

def reveal (table : LiteralTable) (line : IndentedLine) : IndentedLine :=
  { line with content := table.substitute line.content }

/-- Blank lines at either end of a text are left out, but a text has one line at least. -/
def orEmpty (lines : List IndentedLine) : List IndentedLine :=
  if lines = [] then [⟨0, []⟩] else lines

end IndentedLine

namespace Spacing

def rowLines (stream : List Lexeme) (depth : Int) : List (List Lexeme) → List IndentedLine
  | [] => []
  | row :: rest =>
      ⟨(rowDepth depth row).toNat, rowText stream none row⟩ ::
        rowLines stream (depthAfterRow depth row) rest

/-- A printed row is its content after whole steps of indentation. -/
theorem printRows_eq_map (stream : List Lexeme) (depth : Int) (found : List (List Lexeme)) :
    printRows stream depth found = (rowLines stream depth found).map IndentedLine.text := by
  induction found generalizing depth with
  | nil => rfl
  | cons row rest ih =>
      rw [printRows, ih]
      rfl

theorem exists_row_of_mem_rowLines {stream : List Lexeme} {depth : Int} {found : List (List Lexeme)}
    {line : IndentedLine} (hline : line ∈ rowLines stream depth found) :
    ∃ row ∈ found, line.content = rowText stream none row := by
  induction found generalizing depth with
  | nil => exact absurd hline List.not_mem_nil
  | cons row rest ih =>
      cases List.mem_cons.mp hline with
      | inl hfirst => exact ⟨row, List.mem_cons_self, by rw [hfirst]⟩
      | inr hlater =>
          obtain ⟨other, hother, hcontent⟩ := ih hlater
          exact ⟨other, List.mem_cons_of_mem row hother, hcontent⟩

end Spacing

/-- What is squeezed is clean in every row. -/
theorem isClean_rowText {stream row : List Lexeme}
    (hneat : ∀ lexeme ∈ stream, lexeme.token ≠ .newline → lexeme.IsNeat) (hrow : row ∈ rows stream) :
    IsClean (rowText stream none row) := by
  have hmem := List.mem_map_of_mem (f := rowText stream none) hrow
  rw [← map_trim_split_render hneat, render, Blank.split_squeeze, List.map_map] at hmem
  obtain ⟨line, hline, htext⟩ := List.mem_map.mp hmem
  rw [← htext]
  exact Blank.isClean_content (Blank.lineFeed_not_mem_split _ line hline)

/-! ## Rows with their literals -/

section

variable {source : List Char}

structure RevealsRow (source : List Char) (row row' : List Lexeme) : Prop where
  mem : row ∈ rows (Document.stream source)
  tokens : row.map Lexeme.token = row'.map Lexeme.token
  text : (Document.lex source).table.substitute (rowText (Document.stream source) none row) =
    rowText (plainStream source) none row'

theorem revealsRow_of_corresponds {row row' : List Lexeme}
    (hmem : row ∈ rows (Document.stream source))
    (hrow : Forall₂ (Corresponds (Reveals (Document.lex source).table)) row row') :
    RevealsRow source row row' where
  mem := hmem
  tokens := map_token_eq SameBut.keepsSpacing hrow
  text := by
    obtain ⟨hhidden, hchain⟩ := isHidden_of_mem_rows hmem
    have hplaced := isPlaced_rowAtoms (isNumbered_lex source) (Document.stream source) hhidden hchain
      none
    have hmatches := rowAtoms_forall₂ SameBut.keepsSpacing forall₂_atoms (reveals_stream source) hrow
      .none
    rw [← spell_rowAtoms, hplaced.substitute_spell (isNumbered_lex source) hmatches, spell_rowAtoms]

theorem revealsRow_shownRows (source : List Char) :
    Forall₂ (RevealsRow source) (trimRows (rows (Document.stream source))) (shownRows source) := by
  have hrows := rows_forall₂
    (fun first second hsame => SameBut.keepsSpacing.shape_eq first second hsame.item)
    (reveals_stream source)
  have hboth := (List.forall₂_and_left _ _).mpr
    ⟨fun row hrow => trimRows_subset _ hrow, trimRows_forall₂ hrows⟩
  exact hboth.imp fun row row' hrow => revealsRow_of_corresponds hrow.1 hrow.2

/-- The plain stream is printed as the stream is, with the literals put back in each line. -/
theorem printRows_plainStream {found found' : List (List Lexeme)}
    (hfound : Forall₂ (RevealsRow source) found found') (depth : Int) :
    printRows (plainStream source) depth found' =
      (rowLines (Document.stream source) depth found).map fun line =>
        (line.reveal (Document.lex source).table).text := by
  induction hfound generalizing depth with
  | nil => rfl
  | cons hrow _ ih =>
      rw [printRows, rowLines, List.map_cons, ← rowDepth_eq hrow.tokens, ← hrow.text,
        ← depthAfterRow_eq hrow.tokens, ih]
      rfl

theorem RevealsRow.isTight {row row' : List Lexeme} (hreveals : RevealsRow source row row')
    (hrow : IsRow row') :
    rowText (Document.stream source) none row = [] ∨
      IsTight ((Document.lex source).table.substitute
        (rowText (Document.stream source) none row)) := by
  rw [hreveals.text]
  cases hempty : row' with
  | nil =>
      have htokens := hreveals.tokens
      rw [hempty, List.map_nil, List.map_eq_nil_iff] at htokens
      exact .inl (by rw [htokens]; rfl)
  | cons first rest =>
      subst hempty
      exact .inr (isTight_rowText (plainStream source) hrow.tight (List.cons_ne_nil _ _) none)

/-- A line that shows anything shows no blanks at its ends, also once its literals are put back. -/
theorem isTight_of_mem_rowLines {found found' : List (List Lexeme)}
    (hfound : Forall₂ (RevealsRow source) found found') (hrows : ∀ row ∈ found', IsRow row)
    {depth : Int} {line : IndentedLine}
    (hline : line ∈ rowLines (Document.stream source) depth found) :
    line.content = [] ∨ IsTight (line.reveal (Document.lex source).table).content := by
  induction hfound generalizing depth with
  | nil => exact absurd hline List.not_mem_nil
  | cons hrow _ ih =>
      obtain ⟨hfirst, hrest⟩ := List.forall_mem_cons.mp hrows
      cases List.mem_cons.mp hline with
      | inl hsame =>
          rw [hsame]
          exact hrow.isTight hfirst
      | inr hlater => exact ih hrest hlater

theorem substitute_nil (table : LiteralTable) : table.substitute [] = [] := by
  rw [LiteralTable.substitute, Placeholder.chunks, Cut.cut_nil]
  rfl

theorem lineFeed_not_mem_substitute {table : LiteralTable} {text : List Char}
    (hvalues : ∀ literal ∈ table.literals, '\n' ∉ literal.value) (htext : '\n' ∉ text) :
    '\n' ∉ table.substitute text := by
  intro hfeed
  obtain ⟨chunk, hchunk, hchar⟩ := List.mem_flatMap.mp hfeed
  have hown : '\n' ∉ chunk.text := by
    intro hmem
    apply htext
    rw [← Placeholder.flatMap_chunks text]
    exact List.mem_flatMap.mpr ⟨chunk, hchunk, hmem⟩
  cases chunk with
  | plain char => exact hown hchar
  | named name =>
      rw [LiteralTable.revealChunk] at hchar
      cases hvalue : table.valueOf? name with
      | none => exact hown (by rwa [hvalue] at hchar)
      | some value =>
          rw [hvalue, Option.getD_some] at hchar
          obtain ⟨literal, hfound, rfl⟩ := Option.map_eq_some_iff.mp hvalue
          exact hvalues literal (List.mem_of_find?_eq_some hfound) hchar

theorem IndentedLine.lineFeed_not_mem_text {line : IndentedLine} (hcontent : '\n' ∉ line.content) :
    '\n' ∉ line.text := by
  rw [IndentedLine.text, List.mem_append, not_or]
  exact ⟨fun hfeed => absurd (List.eq_of_mem_replicate hfeed) (by decide), hcontent⟩

/-- Lines are found again in the text that they are joined to. -/
theorem split_join_map {lines : List IndentedLine} {write : IndentedLine → List Char}
    (hempty : write ⟨0, []⟩ = []) (hfeed : ∀ line ∈ lines, '\n' ∉ write line) :
    Line.split (Line.join (lines.map write)) = (IndentedLine.orEmpty lines).map write := by
  rw [IndentedLine.orEmpty]
  split
  · rename_i hlines
    rw [hlines, List.map_singleton, hempty]
    rfl
  · rename_i hlines
    apply Line.split_join
    · simpa using hfeed
    · simpa using hlines

/-- The lines of the layout of a source, without the blank ones at either end. -/
def shownLines (source : List Char) : List IndentedLine :=
  rowLines (Document.stream source) 0 (trimRows (rows (Document.stream source)))

theorem isNeat_of_mem_stream :
    ∀ lexeme ∈ Document.stream source, lexeme.token ≠ .newline → lexeme.IsNeat :=
  fun _ hlexeme => (isHidden_of_mem_stream hlexeme).isNeat (isNumbered_lex source)

theorem trim_layOut_eq_join (source : List Char) :
    Blank.trim (Document.layOut (Document.stream source)) =
      Line.join ((shownLines source).map IndentedLine.text) := by
  rw [layOut_eq_join_printRows isNeat_of_mem_stream, trim_join_printRows, printRows_eq_map]
  · rfl
  · intro row hrow lexeme hlexeme
    exact (isNeat_of_mem_rows isNeat_of_mem_stream hrow lexeme hlexeme).isTight_core

/-- The formatted text is the lines of the layout, with the literals put back in each. -/
theorem tidy_eq_join (source : List Char) :
    Document.tidy source =
      Line.join ((shownLines source).map fun line =>
        (line.reveal (Document.lex source).table).text) := by
  rw [tidy_eq_spell, spell_printAtoms, printRows_plainStream (revealsRow_shownRows source)]
  rfl

theorem isClean_of_mem_shownLines {line : IndentedLine} (hline : line ∈ shownLines source) :
    IsClean line.content := by
  obtain ⟨row, hrow, hcontent⟩ := exists_row_of_mem_rowLines hline
  rw [hcontent]
  exact isClean_rowText isNeat_of_mem_stream (trimRows_subset _ hrow)

/-- When no literal spans lines, every line of the formatted source is a line of the layout with its
literals put back.  It is indented by a multiple of four spaces, and what it shows is tight, if it
shows anything.  Apart from the literals no blanks are left in it but single spaces. -/
theorem lines_tidy (source : List Char)
    (hvalues : ∀ literal ∈ (Document.lex source).table.literals, '\n' ∉ literal.value) :
    ∃ lines : List IndentedLine,
      Line.split (Document.tidy source) =
        lines.map (fun line => List.replicate (4 * line.steps) ' ' ++
          (Document.lex source).table.substitute line.content) ∧
      Line.split (Blank.trim (Document.layOut (Document.stream source))) =
        lines.map (fun line => List.replicate (4 * line.steps) ' ' ++ line.content) ∧
      ∀ line ∈ lines,
        (line.content = [] ∨ IsTight ((Document.lex source).table.substitute line.content)) ∧
          IsClean line.content := by
  refine ⟨IndentedLine.orEmpty (shownLines source), ?_, ?_, ?_⟩
  · rw [tidy_eq_join]
    apply split_join_map
    · exact substitute_nil _
    · intro line hline
      apply IndentedLine.lineFeed_not_mem_text
      exact lineFeed_not_mem_substitute hvalues (isClean_of_mem_shownLines hline).lineFeed_not_mem
  · rw [trim_layOut_eq_join]
    apply split_join_map
    · rfl
    · intro line hline
      exact IndentedLine.lineFeed_not_mem_text (isClean_of_mem_shownLines hline).lineFeed_not_mem
  · intro line hline
    rw [IndentedLine.orEmpty] at hline
    split at hline
    · rw [List.mem_singleton.mp hline]
      exact ⟨.inl rfl, Blank.isClean_nil⟩
    · refine ⟨?_, isClean_of_mem_shownLines hline⟩
      exact isTight_of_mem_rowLines (revealsRow_shownRows source) (fun _ => isRow_of_mem_shownRows)
        hline

end

/-- A string keeps its tab and its two spaces, while those around it go. -/
theorem lines_tidy_of_string :
    let source := "if\t(a\u2003\t b)\u00a0\x7b\n\n  <<<  \"x \t  y\"\t>>>;  // z\n\x7d".toList
    (∀ literal ∈ (Document.lex source).table.literals, '\n' ∉ literal.value) ∧
      Document.tidy source =
        "if (a b)\n\x7b\n    <<< \"x \t  y\" >>>; // z\n\x7d".toList ∧
      ∃ lines : List IndentedLine,
        Line.split (Document.tidy source) =
          lines.map (fun line => List.replicate (4 * line.steps) ' ' ++
            (Document.lex source).table.substitute line.content) ∧
        ∀ line ∈ lines,
          (line.content = [] ∨ IsTight ((Document.lex source).table.substitute line.content)) ∧
            IsClean line.content := by
  intro source
  have hvalues : ∀ literal ∈ (Document.lex source).table.literals, '\n' ∉ literal.value := by
    decide +kernel
  obtain ⟨lines, hlines, -, hclean⟩ := lines_tidy source hvalues
  exact ⟨hvalues, by decide +kernel, lines, hlines, hclean⟩

end ChuckLayout
