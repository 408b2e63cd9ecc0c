import ChuckLayout.Proofs.Conservation
import ChuckLayout.Proofs.Relexing.Pieces

/-!
# The lexemes of one line

A line is read as raw text and pieces that stand alone, perhaps the placeholder of its comment, and a
line break.  Raw text is read as the same raw text when it is a line of its own: what stands beyond it
took no part in cutting it, and trimming brings no entry about.
-/

namespace ChuckLayout

open Blank (IsTight solid)

/-! ## Raw text alone on a line -/

theorem Piece.standsAlone_eq_false_of_table {table : LiteralTable} {piece : Piece}
    (hraw : Line.standsAlone table piece = false) : Line.standsAlone {} piece = false := by
  cases piece with
  | gap text => rfl
  | stray char => rfl
  | item token text => cases token <;> first | rfl | exact hraw

/-- A placeholder is a word of its text. -/
theorem mem_runs_of_placeholder {text name : List Char}
    (hname : .item .placeholder name ∈ scan text) :
    name ∈ Word.runs text ∧ Piece.ofWord name = .placeholder := by
  obtain ⟨char, rest, hleading⟩ := mem_scan hname
  rcases Piece.leading_cases char rest with ⟨gap, heq, -, -⟩ | ⟨word, heq, -, hword⟩ |
    ⟨mark, hmark, heq⟩ | ⟨heq, -, -, -⟩
  · exact Piece.noConfusion (hleading.trans heq)
  · obtain ⟨htoken, rfl⟩ := Piece.item.inj (hleading.trans heq)
    refine ⟨?_, htoken.symm⟩
    rw [runs_eq_filterMap, List.mem_filterMap]
    exact ⟨_, hname, if_pos (List.all_eq_true.mpr hword)⟩
  · obtain ⟨htoken, -⟩ := Piece.item.inj (hleading.trans heq)
    exact absurd htoken.symm (Piece.token_of_mem_marks hmark).2
  · exact Piece.noConfusion (hleading.trans heq)

/-- A text is split right before a place where the pattern stands. -/
theorem Search.splitBefore?_eq_some {pattern text front back : List Char}
    (hsplit : splitBefore? pattern text = some (front, back)) :
    text = front ++ back ∧ pattern <+: back := by
  induction text generalizing front with
  | nil => exact absurd hsplit.symm (Option.some_ne_none _)
  | cons char rest ih =>
      rw [splitBefore?] at hsplit
      split at hsplit
      · rename_i hstarts
        obtain ⟨rfl, rfl⟩ := Prod.mk.inj (Option.some.inj hsplit)
        exact ⟨rfl, List.isPrefixOf_iff_prefix.mp hstarts⟩
      · obtain ⟨⟨front, later⟩, hlater, heq⟩ := Option.map_eq_some_iff.mp hsplit
        obtain ⟨rfl, rfl⟩ := Prod.mk.inj heq
        obtain ⟨rfl, hstarts⟩ := ih hlater
        exact ⟨rfl, hstarts⟩

namespace Line

variable {table : LiteralTable} {code text : List Char}

/-- The pieces of raw text are raw, though it has been trimmed. -/
theorem IsRaw.standsAlone_eq_false (hraw : IsRaw table (scan code) text) :
    ∀ piece ∈ scan text, standsAlone table piece = false := by
  obtain ⟨part, hpart, halone, htext, hne⟩ := hraw
  have hbare : HoldsNoEntry text := holdsNoEntry_of_isRaw
    ⟨part, hpart, fun piece hpiece => Piece.standsAlone_eq_false_of_table (halone piece hpiece),
      htext, hne⟩
  have hscan : scan (part.flatMap Piece.text) = part :=
    Cut.cut_flatMap_of_isInfix Piece.leading_isFront Piece.leading_isLocal hpart
  have hruns : Word.runs text = Word.runs (part.flatMap Piece.text) := by
    rw [htext, Word.runs, Blank.wordsBy_trim fun _ => not_isWordChar_of_isBlank, Word.runs]
  intro piece hpiece
  rw [standsAlone_eq_of_not_issued, hbare.standsAlone_eq_false piece hpiece]
  -- A name that the table has issued would have ended the raw text.
  rintro name rfl
  obtain ⟨hrun, hofWord⟩ := mem_runs_of_placeholder hpiece
  rw [hruns] at hrun
  have hmem := mem_scan_of_mem_runs hrun
  rw [hscan, hofWord] at hmem
  exact halone _ hmem

/-- Raw text is lexed again as the same raw text. -/
theorem codeLexemes_of_isRaw (hraw : IsRaw table (scan code) text) :
    codeLexemes table [] (scan text) = [{ token := .text, text }] := by
  have htight := isTight_of_isRaw hraw
  have hmerged := codeLexemes_append_raw hraw.standsAlone_eq_false [] []
  rw [List.append_nil, List.nil_append, flatMap_scan, codeLexemes] at hmerged
  rw [hmerged, fragment, Blank.trim_of_tight htight, if_neg htight.ne_nil]

/-- What a line is read as. -/
theorem lexemes_cases (table : LiteralTable) (line : List Char) :
    lexemes table line = ⟨codeLexemes table [] (scan line) ++ [.lineBreak], table⟩ ∨
    ∃ code comment, line = code ++ comment ∧ "//".toList <+: comment ∧
      lexemes table line =
        ⟨codeLexemes table [] (scan code) ++
          [{ token := .placeholder, text := table.nextPlaceholder .lineComment }, .lineBreak],
          table.add .lineComment (Units.utf8Length code) (Blank.trimEnd comment)⟩ := by
  rw [lexemes, splitComment]
  cases hsplit : Search.splitBefore? "//".toList line with
  | none => exact Or.inl rfl
  | some split =>
      obtain ⟨hline, hstarts⟩ := Search.splitBefore?_eq_some hsplit
      exact Or.inr ⟨split.1, split.2, hline, hstarts, rfl⟩

/-- Raw text alone on a line is one lexeme, and no comment. -/
theorem lexemes_of_isRaw (hraw : IsRaw table (scan code) text) :
    lexemes table text = ⟨[{ token := .text, text }, .lineBreak], table⟩ := by
  rcases lexemes_cases table text with hlexed | ⟨front, comment, htext, hstarts, -⟩
  · rw [hlexed, codeLexemes_of_isRaw hraw, List.singleton_append]
  · have hslash : '/' ∈ text := by
      rw [htext]
      exact List.mem_append_right _ (hstarts.subset List.mem_cons_self)
    exact absurd (isMarkChar_of_isRaw hraw '/' hslash) (by decide)

end Line

/-! ## Entries of the table -/

/-- A text without the space or tab that may end it. -/
def Blank.dropPad (text : List Char) : List Char :=
  if text.getLast? = some ' ' ∨ text.getLast? = some '\t' then text.dropLast else text

/-- An entry is spelled as its token is, but for the blank that a sign has swallowed. -/
theorem IsEntry.spelling?_eq {item : Token × List Char} (hentry : IsEntry item) :
    item.1.spelling? = some (Blank.dropPad item.2) := by
  rcases hentry with ⟨hkeyword, htext⟩ | hmark
  · have hall : ∀ token ∈ Piece.keywords, token.spelling? = some (Blank.dropPad token.spelling) := by
      decide
    rw [htext]
    exact hall item.1 (List.mem_filter.mpr ⟨Token.mem_all item.1, hkeyword⟩)
  · revert item
    decide

theorem IsEntry.lineFeed_mem {item : Token × List Char} (hentry : IsEntry item)
    (htoken : item.1 = .newline) : '\n' ∈ item.2 := by
  rcases hentry with ⟨hkeyword, -⟩ | hmark
  · rw [htoken] at hkeyword
    exact Bool.noConfusion hkeyword
  · have hall : ∀ mark ∈ Piece.marks, mark.1 = .newline → '\n' ∈ mark.2 := by decide
    exact hall item hmark htoken

/-! ## The whole line -/

/-- Lexing keeps the solid characters of a line when the comment, which is in the table now, is shown
where its placeholder stands. -/
inductive KeepsSolid (table : LiteralTable) (line : List Char) : Lexed → Prop where
  | code {front : List Lexeme}
      (hsolid : solid ((front ++ [Lexeme.lineBreak]).flatMap Lexeme.text) = solid line) :
      KeepsSolid table line ⟨front ++ [.lineBreak], table⟩
  | comment {front : List Lexeme} {start : Nat} {value : List Char}
      (hsolid : solid (front.flatMap Lexeme.text ++ value ++ Lexeme.lineBreak.text) = solid line) :
      KeepsSolid table line
        ⟨front ++ [{ token := .placeholder, text := table.nextPlaceholder .lineComment }, .lineBreak],
          table.add .lineComment start value⟩

/-- What a line may be read as with `table`. -/
structure IsLexedLine (table : LiteralTable) (line : List Char) (lexed : Lexed) : Prop where
  ends : ∃ front, lexed.lexemes = front ++ [.lineBreak] ∧
    ∀ lexeme ∈ front, lexeme.token ≠ .newline
  merged : lexed.lexemes.IsChain fun first second => first.token = .text → second.token ≠ .text
  tight : ∀ lexeme ∈ lexed.lexemes, lexeme.token = .text → IsTight lexeme.text
  again : ∀ lexeme ∈ lexed.lexemes, lexeme.token = .text →
    Line.lexemes table lexeme.text = ⟨[lexeme, .lineBreak], table⟩
  spelled : ∀ lexeme ∈ lexed.lexemes, lexeme.token ≠ .text → lexeme.token ≠ .placeholder →
    lexeme.token.spelling? = some (Blank.dropPad lexeme.text)
  keeps : KeepsSolid table line lexed

namespace Line

variable {table : LiteralTable} {code : List Char} {lexeme : Lexeme}

theorem cases_of_mem_codeLexemes (hlexeme : lexeme ∈ codeLexemes table [] (scan code)) :
    lexeme = { token := .text, text := lexeme.text } ∧ IsRaw table (scan code) lexeme.text ∨
      lexeme.token = .placeholder ∨ IsEntry lexeme.item := by
  rcases mem_codeLexemes hlexeme with hraw | ⟨token, text, hmem, halone, rfl⟩
  · exact Or.inl hraw
  · have htext : token ≠ .text := by
      rintro rfl
      exact Bool.noConfusion halone
    by_cases hplaceholder : token = .placeholder
    · exact Or.inr (Or.inl hplaceholder)
    · exact Or.inr (Or.inr (isEntry_of_mem_scan hmem htext hplaceholder))

theorem isRaw_of_mem_codeLexemes (hlexeme : lexeme ∈ codeLexemes table [] (scan code))
    (htoken : lexeme.token = .text) :
    lexeme = { token := .text, text := lexeme.text } ∧ IsRaw table (scan code) lexeme.text := by
  rcases cases_of_mem_codeLexemes hlexeme with hraw | hplaceholder | hentry
  · exact hraw
  · rw [htoken] at hplaceholder
    exact Token.noConfusion hplaceholder
  · exact absurd htoken (Token.ne_of_isTableEntry hentry.isTableEntry).1

theorem token_ne_newline_of_mem_codeLexemes (hcode : '\n' ∉ code)
    (hlexeme : lexeme ∈ codeLexemes table [] (scan code)) : lexeme.token ≠ .newline := by
  intro htoken
  rcases cases_of_mem_codeLexemes hlexeme with ⟨hraw, -⟩ | hplaceholder | hentry
  · rw [hraw] at htoken
    exact Token.noConfusion htoken
  · rw [htoken] at hplaceholder
    exact Token.noConfusion hplaceholder
  · exact hcode ((isInfix_of_mem_codeLexemes hlexeme).subset (hentry.lineFeed_mem htoken))

theorem solid_flatMap_codeLexemes (table : LiteralTable) (code : List Char) :
    solid ((codeLexemes table [] (scan code)).flatMap Lexeme.text) = solid code := by
  have hsolid := solidOf_codeLexemes table [] (scan code)
  rw [flatMap_scan, Blank.solid_nil, List.nil_append, solidOf, List.flatMap_map] at hsolid
  rw [Blank.solid_flatMap]
  exact hsolid

/-- Raw text in code is never next to raw text. -/
theorem isChain_codeLexemes_text (raw : List Char) (pieces : List Piece) :
    (codeLexemes table raw pieces).IsChain
      fun first second => first.token = .text → second.token ≠ .text := by
  have hstands : ∀ {token : Token} {text : List Char}, standsAlone table (.item token text) →
      token ≠ .text := by
    rintro token text halone rfl
    exact Bool.noConfusion halone
  exact isChain_codeLexemes (fun _ _ _ halone htoken => absurd htoken (hstands halone))
    (fun _ _ _ halone _ => hstands halone) raw pieces

/-- Code without a line feed, perhaps a placeholder, and a line break. -/
theorem isLexedLine_of_code {line : List Char} {lexed : Lexed} (closing : Option Lexeme)
    (hcode : '\n' ∉ code)
    (hclosing : ∀ lexeme ∈ closing, lexeme.token = .placeholder)
    (hlexemes : lexed.lexemes =
      codeLexemes table [] (scan code) ++ (closing.toList ++ [.lineBreak]))
    (hkeeps : KeepsSolid table line lexed) : IsLexedLine table line lexed := by
  have hclose : ∀ lexeme ∈ closing.toList ++ [.lineBreak],
      lexeme.token = .placeholder ∨ lexeme = .lineBreak := by
    intro lexeme hlexeme
    rw [List.mem_append, List.mem_singleton, Option.mem_toList] at hlexeme
    exact hlexeme.imp_left (hclosing lexeme)
  have hnotText : ∀ lexeme ∈ closing.toList ++ [.lineBreak], lexeme.token ≠ .text := by
    intro lexeme hlexeme
    rcases hclose lexeme hlexeme with htoken | rfl
    · rw [htoken]
      exact Token.noConfusion
    · exact Token.noConfusion
  have hraw : ∀ lexeme ∈ lexed.lexemes, lexeme.token = .text →
      lexeme = { token := .text, text := lexeme.text } ∧ IsRaw table (scan code) lexeme.text := by
    intro lexeme hlexeme htoken
    rw [hlexemes, List.mem_append] at hlexeme
    rcases hlexeme with hmem | hmem
    · exact isRaw_of_mem_codeLexemes hmem htoken
    · exact absurd htoken (hnotText lexeme hmem)
  refine ⟨⟨codeLexemes table [] (scan code) ++ closing.toList, ?_, ?_⟩, ?_, ?_, ?_, ?_, hkeeps⟩
  · rw [hlexemes, List.append_assoc]
  · intro lexeme hlexeme
    rcases List.mem_append.mp hlexeme with hmem | hmem
    · exact token_ne_newline_of_mem_codeLexemes hcode hmem
    · rw [hclosing lexeme (Option.mem_toList.mp hmem)]
      exact Token.noConfusion
  · rw [hlexemes, List.isChain_append]
    refine ⟨isChain_codeLexemes_text [] _, ?_, ?_⟩
    · cases closing with
      | none => exact List.isChain_singleton _
      | some closing => exact List.isChain_pair.mpr fun _ => Token.noConfusion
    · exact fun _ _ second hsecond _ => hnotText second (List.mem_of_head? hsecond)
  · intro lexeme hlexeme htoken
    exact isTight_of_isRaw (hraw lexeme hlexeme htoken).2
  · intro lexeme hlexeme htoken
    obtain ⟨heq, hraw⟩ := hraw lexeme hlexeme htoken
    rw [lexemes_of_isRaw hraw, ← heq]
  · intro lexeme hlexeme htext hplaceholder
    rw [hlexemes, List.mem_append] at hlexeme
    rcases hlexeme with hmem | hmem
    · rcases cases_of_mem_codeLexemes hmem with ⟨heq, -⟩ | htoken | hentry
      · rw [heq] at htext
        exact absurd rfl htext
      · exact absurd htoken hplaceholder
      · exact hentry.spelling?_eq
    · rcases hclose lexeme hmem with htoken | rfl
      · exact absurd htoken hplaceholder
      · decide

/-- Whatever the table has issued, a line is read up to its one line break as raw text, never next to
raw text and read as itself again, and as entries, spelled as the table of tokens has them; nothing
solid is lost. -/
theorem isLexedLine_lexemes (table : LiteralTable) {line : List Char} (hline : '\n' ∉ line) :
    IsLexedLine table line (lexemes table line) := by
  rcases lexemes_cases table line with hlexed | ⟨code, comment, rfl, -, hlexed⟩
  · rw [hlexed]
    refine isLexedLine_of_code none hline (by simp) rfl (.code ?_)
    rw [List.flatMap_append, Blank.solid_append, solid_flatMap_codeLexemes]
    exact List.append_nil _
  · have hcode : '\n' ∉ code := fun hmem => hline (List.mem_append_left _ hmem)
    rw [hlexed]
    refine isLexedLine_of_code (some _) hcode ?_ rfl (.comment ?_)
    · rintro lexeme ⟨rfl⟩
      rfl
    · rw [Blank.solid_append, Blank.solid_append, solid_flatMap_codeLexemes, Blank.solid_trimEnd,
        Blank.solid_append]
      exact List.append_nil _

/-- Only the first of two names is issued, so only the second is raw text. -/
theorem isLexedLine_lexemes_of_names :
    let table := ({} : LiteralTable).add .string 0 "\"a\"".toList
    let line := "STRING_LITERAL_1+\tSTRING_LITERAL_2 : y // c ".toList
    '\n' ∉ line ∧ IsLexedLine table line (lexemes table line) ∧
      (lexemes table line).lexemes.map Lexeme.item =
        [(.placeholder, "STRING_LITERAL_1".toList), (.plusSpaced, "+\t".toList),
          (.text, "STRING_LITERAL_2 : y".toList), (.placeholder, "EOL_COMMENT_LITERAL_1".toList),
          (.newline, "\n".toList)] :=
  ⟨by decide, isLexedLine_lexemes _ (by decide), by decide +kernel⟩

end Line

end ChuckLayout
