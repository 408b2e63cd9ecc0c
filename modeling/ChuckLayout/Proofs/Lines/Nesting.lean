import ChuckLayout.Proofs.Layout.Places

/-!
# Indentation and nesting

Nesting lives in the stream, and indentation is found by looking at lines that are just a brace.  The
two agree, for every brace has a line to itself and no other line looks like one.  Main statement:
every lexeme is written on a line that is indented by the braces before it, balanced or not.
-/

namespace ChuckLayout

open Blank (IsTight trim)
open Spacing

variable {stream : List Lexeme}
  (hneat : ∀ lexeme ∈ stream, lexeme.token ≠ .newline → lexeme.IsNeat)

include hneat

/-- A brace is all that its line shows. -/
theorem exists_line_of_brace {before after : List Lexeme} {lexeme : Lexeme}
    (hstream : stream = before ++ lexeme :: after) (hbrace : lexeme.token.isBrace) :
    ∃ above line, IsLineOf (Line.split (render stream)) above line before lexeme ∧
      trim line = lexeme.token.spelling := by
  have htoken : lexeme.token.isTableEntry ∧ lexeme.token ≠ .newline := by
    rcases Token.isBrace_iff.mp hbrace with htoken | htoken <;> rw [htoken] <;> decide
  obtain ⟨above, line, left, right, hlineOf, hmem, hline⟩ :=
    exists_isLineOf_render hneat hstream htoken.2
  obtain ⟨rfl, rfl⟩ := eq_nil_of_brace_mem hmem hbrace
  exact ⟨above, line, hlineOf, hline.trans (Lexeme.core_of_isTableEntry htoken.1).2⟩

/-- A line that looks like a brace shows a brace and nothing else. -/
theorem exists_brace_of_trim {above below : List (List Char)} {line : List Char} {token : Token}
    (hsplit : Line.split (render stream) = above ++ line :: below) (hbrace : token.isBrace)
    (hline : trim line = token.spelling) :
    ∃ before lexeme after, stream = before ++ lexeme :: after ∧ lexeme.token = token ∧
      IsLineOf (Line.split (render stream)) above line before lexeme := by
  have hlines := map_trim_split_render hneat
  rw [hsplit, List.map_append, List.map_cons] at hlines
  obtain ⟨found, later, hrows, habove, hlater⟩ := List.append_eq_map_iff.mp hlines
  obtain ⟨row, later, rfl, hrow, -⟩ := List.map_eq_cons_iff.mp hlater
  have hmem : row ∈ rows stream := by simp [hrows]
  have htokens : row.map Lexeme.token = [token] := by
    rw [hline] at hrow
    exact of_decide_eq_true
      ((rowText_eq_brace_iff stream (isNeat_of_mem_rows hneat hmem) token hbrace).mp hrow)
  obtain ⟨lexeme, rfl, htoken⟩ := List.map_eq_singleton_iff.mp htokens
  -- The rows hold all of the stream but its line breaks.
  have hfilter := flatten_rowsAfter none stream
  rw [← rows, hrows, List.flatten_append, List.flatten_cons] at hfilter
  obtain ⟨front, back, rfl, hfront, hback⟩ := List.filter_eq_append_iff.mp hfilter.symm
  obtain ⟨skipped, after, rfl, hskipped, -, -⟩ := List.filter_eq_cons_iff.mp hback
  refine ⟨front ++ skipped, lexeme, after, by simp, htoken, ?_⟩
  have hnone : skipped.filter (fun lexeme => lexeme.token != .newline) = [] :=
    List.filter_eq_nil_iff.mpr hskipped
  have hbefore : found.flatten ++ [] =
      (front ++ skipped).filter fun lexeme => lexeme.token != .newline := by
    rw [List.filter_append, hfront, hnone]
  have htrim : trim line = rowText _ none ([] ++ lexeme :: []) := hrow.symm
  exact isLineOf_of_map_trim ⟨below, by rw [hsplit]; simp⟩ habove.symm htrim hbefore

omit hneat

/-- Every brace is alone on its line and no other line looks like a brace, so a lexeme is written on a
line that the braces before it indent: by four spaces for each that is open and not closed, where a
closing brace counts for its own line already. -/
theorem indentation_follows_nesting (source : List Char) :
    let stream := Document.stream source
    (∀ before lexeme after, stream = before ++ lexeme :: after → lexeme.token.isBrace →
      ∃ above line, IsLineOf (Line.split (render stream)) above line before lexeme ∧
        trim line = lexeme.token.spelling) ∧
    (∀ above line below token, Line.split (render stream) = above ++ line :: below →
      Token.isBrace token → trim line = token.spelling →
        ∃ before lexeme after, stream = before ++ lexeme :: after ∧ lexeme.token = token ∧
          IsLineOf (Line.split (render stream)) above line before lexeme) ∧
    ∀ before lexeme after, stream = before ++ lexeme :: after → lexeme.token ≠ .newline →
      ∃ above text, IsTight text ∧
        IsLineOf (Line.split (Document.layOut stream)) above
          (List.replicate
            (4 * (if lexeme.token = .closeBrace then nesting before - 1
              else nesting before).toNat) ' ' ++ text)
          before lexeme := by
  intro stream
  have hneat : ∀ lexeme ∈ stream, lexeme.token ≠ .newline → lexeme.IsNeat :=
    fun _ hlexeme => (isHidden_of_mem_stream hlexeme).isNeat (isNumbered_lex source)
  refine ⟨fun before lexeme after => exists_line_of_brace hneat,
    fun above line below token => exists_brace_of_trim hneat,
    fun before lexeme after hstream hlexeme => ?_⟩
  obtain ⟨above, text, -, htight, hline⟩ := exists_isLineOf_layOut hneat hstream hlexeme
  exact ⟨above, text, htight, hline⟩

/-- A brace that closes nothing takes a step back from the lines after it. -/
theorem indentation_follows_nesting_of_unbalanced :
    let source := "\x7d\x7b\x7ba".toList
    let stream := Document.stream source
    let closer : Lexeme := { token := .closeBrace, text := "\x7d".toList }
    let opener : Lexeme := { token := .openBrace, text := "\x7b".toList }
    let word : Lexeme := { token := .text, text := "a".toList }
    let lines := Line.split (render stream)
    (stream = [closer] ++ opener :: [opener, word, .lineBreak] ∧ opener.token.isBrace ∧
      ∃ above line, IsLineOf lines above line [closer] opener ∧
        trim line = opener.token.spelling) ∧
    (lines = [[], closer.text, []] ++ opener.text :: [opener.text, word.text, []] ∧
      Token.openBrace.isBrace ∧ trim opener.text = Token.openBrace.spelling ∧
      ∃ before lexeme after, stream = before ++ lexeme :: after ∧ lexeme.token = .openBrace ∧
        IsLineOf lines [[], closer.text, []] opener.text before lexeme) ∧
    stream = [closer, opener, opener] ++ word :: [.lineBreak] ∧ word.token ≠ .newline ∧
      ∃ above text, IsTight text ∧
        IsLineOf (Line.split (Document.layOut stream)) above (List.replicate 4 ' ' ++ text)
          [closer, opener, opener] word := by
  intro source stream closer opener word lines
  have hstream : stream = [closer] ++ opener :: [opener, word, .lineBreak] := by decide +kernel
  have hword : stream = [closer, opener, opener] ++ word :: [.lineBreak] := hstream
  have hsplit : lines = [[], closer.text, []] ++ opener.text :: [opener.text, word.text, []] := by
    decide +kernel
  obtain ⟨hbraces, hlooks, hlines⟩ := indentation_follows_nesting source
  exact ⟨⟨hstream, rfl, hbraces _ _ _ hstream rfl⟩,
    ⟨hsplit, rfl, rfl, hlooks _ _ _ _ hsplit rfl rfl⟩,
    hword, Token.noConfusion, hlines _ _ _ hword Token.noConfusion⟩

end ChuckLayout
