import ChuckLayout.Proofs.Lexing.Lines
import ChuckLayout.Proofs.Lexing.Passes

/-!
# What the stream of a document is made of

Raw text in a stream is tight, holds no character that is a mark by itself, and never touches other
raw text.  A line comment ends its line.
-/

namespace ChuckLayout

open Blank (AllBlank IsTight)
open Word (IsWord isWordChar)
open Lexeme (Corresponds)

/-! ## Pieces -/

theorem mem_scan {text : List Char} {piece : Piece} (hpiece : piece ∈ scan text) :
    ∃ char rest, piece = Piece.leading char rest := by
  obtain ⟨char, rest, -, heq⟩ := Cut.mem_cut Piece.leading_isFront hpiece
  exact ⟨char, rest, heq⟩

namespace Piece

theorem token_of_mem_marks {mark : Token × List Char} (hmark : mark ∈ marks) :
    mark.1 ≠ .text ∧ mark.1 ≠ .placeholder := by
  revert mark
  decide

/-- What the leading piece can be. -/
theorem leading_cases (char : Char) (rest : List Char) :
    (∃ text, leading char rest = .gap text ∧ text ≠ [] ∧ ∀ other ∈ text, isGap other) ∨
    (∃ word, leading char rest = .item (ofWord word) word ∧ word ≠ [] ∧ IsWord word) ∨
    (∃ mark ∈ marks, leading char rest = .item mark.1 mark.2) ∨
    leading char rest = .stray char ∧ isGap char = false ∧ isWordChar char = false ∧
      ∀ mark ∈ marks, ¬mark.2 <+: char :: rest := by
  unfold leading
  by_cases hgap : isGap char
  · left
    rw [if_pos hgap]
    refine ⟨_, rfl, List.cons_ne_nil _ _, List.forall_mem_cons.mpr ⟨hgap, ?_⟩⟩
    exact fun other hother => List.mem_takeWhile_imp hother
  right
  rw [if_neg hgap]
  by_cases hword : isWordChar char
  · left
    rw [if_pos hword]
    refine ⟨_, rfl, List.cons_ne_nil _ _, List.forall_mem_cons.mpr ⟨hword, ?_⟩⟩
    exact fun other hother => List.mem_takeWhile_imp hother
  right
  rw [if_neg hword]
  cases hfind : marks.find? fun mark => mark.2.isPrefixOf (char :: rest) with
  | some mark => exact Or.inl ⟨mark, List.mem_of_find?_eq_some hfind, rfl⟩
  | none =>
      refine Or.inr ⟨rfl, by simpa using hgap, by simpa using hword, ?_⟩
      intro mark hmark hstarts
      rw [List.find?_eq_none] at hfind
      exact hfind mark hmark (List.isPrefixOf_iff_prefix.mpr hstarts)

def isMarkChar (char : Char) : Bool :=
  marks.any fun mark => mark.2 = [char]

theorem isMarkChar_of_isGap {char : Char} (hgap : isGap char) : isMarkChar char = false := by
  simp only [isGap, Bool.or_eq_true, beq_iff_eq] at hgap
  rcases hgap with ((rfl | rfl) | rfl) | rfl <;> decide

theorem isMarkChar_of_isWordChar {char : Char} (hword : isWordChar char) :
    isMarkChar char = false := by
  rw [isMarkChar, List.any_eq_false]
  intro mark hmark heq
  have hchars := not_isWordChar_of_mem_marks hmark char
  rw [of_decide_eq_true heq] at hchars
  rw [hchars List.mem_cons_self] at hword
  exact Bool.noConfusion hword

/-- A mark by itself is always scanned as one, so raw text has none. -/
theorem isMarkChar_of_raw {table : LiteralTable} {text : List Char} {piece : Piece}
    (hpiece : piece ∈ scan text) (hraw : Line.standsAlone table piece = false) :
    ∀ char ∈ piece.text, isMarkChar char = false := by
  obtain ⟨first, rest, rfl⟩ := mem_scan hpiece
  rcases leading_cases first rest with ⟨gap, heq, -, hgap⟩ | ⟨word, heq, -, hword⟩ |
    ⟨mark, hmark, heq⟩ | ⟨heq, -, -, hmarks⟩
  · rw [heq]
    exact fun char hchar => isMarkChar_of_isGap (hgap char hchar)
  · rw [heq]
    exact fun char hchar => isMarkChar_of_isWordChar (hword char hchar)
  · rw [heq] at hraw
    obtain ⟨htext, hplaceholder⟩ := token_of_mem_marks hmark
    unfold Line.standsAlone at hraw
    split at hraw <;> simp_all
  · rw [heq]
    intro char hchar
    obtain rfl := List.mem_singleton.mp hchar
    rw [isMarkChar, List.any_eq_false]
    intro mark hmark hsingle
    apply hmarks mark hmark
    rw [of_decide_eq_true hsingle]
    exact ⟨rest, rfl⟩

end Piece

/-- Raw text is trimmed and not empty. -/
theorem isTight_of_isRaw {table : LiteralTable} {pieces : List Piece} {text : List Char}
    (hraw : Line.IsRaw table pieces text) : IsTight text := by
  obtain ⟨part, -, -, rfl, hne⟩ := hraw
  exact Blank.isTight_trim fun hblank => hne (Blank.trim_eq_nil_iff.mpr hblank)

theorem isMarkChar_of_isRaw {table : LiteralTable} {code text : List Char}
    (hraw : Line.IsRaw table (scan code) text) : ∀ char ∈ text, Piece.isMarkChar char = false := by
  obtain ⟨part, hpart, halone, rfl, -⟩ := hraw
  intro char hchar
  obtain ⟨piece, hpiece, hmem⟩ := List.mem_flatMap.mp ((Blank.trim_isInfix _).subset hchar)
  exact Piece.isMarkChar_of_raw (hpart.subset hpiece) (halone piece hpiece) char hmem

/-! ## Items -/

/-- A keyword, or a mark in one of the ways to write it. -/
def IsEntry (item : Token × List Char) : Prop :=
  item.1.isKeyword ∧ item.2 = item.1.spelling ∨ item ∈ Piece.marks

/-- An item of a stream whose literals are as `isLiteral` says. -/
inductive IsStreamItem (isLiteral : List Char → Prop) : Token × List Char → Prop where
  | entry {item : Token × List Char} (hentry : IsEntry item) : IsStreamItem isLiteral item
  | literal {text : List Char} (hliteral : isLiteral text) :
      IsStreamItem isLiteral (.placeholder, text)
  | raw {code text : List Char} (hraw : Line.IsRaw {} (scan code) text) :
      IsStreamItem isLiteral (.text, text)

theorem IsStreamItem.text_of_newline {isLiteral : List Char → Prop} {item : Token × List Char}
    (hitem : IsStreamItem isLiteral item) (htoken : item.1 = .newline) : item.2 = ['\n'] := by
  have hmarks : ∀ mark ∈ Piece.marks, mark.1 = .newline → mark.2 = ['\n'] := by decide
  cases hitem with
  | literal _ => exact Token.noConfusion htoken
  | raw _ => exact Token.noConfusion htoken
  | entry hentry =>
      rcases hentry with ⟨hkeyword, -⟩ | hmark
      · rw [htoken] at hkeyword
        exact Bool.noConfusion hkeyword
      · exact hmarks item hmark htoken

/-- What is scanned as an item that is neither a word nor a placeholder is an entry of the table. -/
theorem isEntry_of_mem_scan {code text : List Char} {token : Token}
    (hitem : .item token text ∈ scan code) (htext : token ≠ .text)
    (hplaceholder : token ≠ .placeholder) : IsEntry (token, text) := by
  obtain ⟨first, rest, hleading⟩ := mem_scan hitem
  rcases Piece.leading_cases first rest with ⟨gap, heq, -, -⟩ | ⟨word, heq, -, -⟩ |
    ⟨mark, hmark, heq⟩ | ⟨heq, -, -, -⟩
  · rw [heq] at hleading
    exact Piece.noConfusion hleading
  · rw [heq] at hleading
    obtain ⟨rfl, rfl⟩ := Piece.item.inj hleading
    left
    unfold Piece.ofWord at htext hplaceholder ⊢
    cases hfind : Piece.keywords.find? fun keyword => keyword.spelling = text with
    | none =>
        rw [hfind] at htext hplaceholder
        simp only at htext hplaceholder
        split at htext <;> simp_all
    | some keyword =>
        have hmem := List.mem_of_find?_eq_some hfind
        have hspelling := List.find?_some hfind
        simp only [Piece.keywords, List.mem_filter] at hmem
        exact ⟨hmem.2, (of_decide_eq_true hspelling).symm⟩
  · rw [heq] at hleading
    obtain ⟨rfl, rfl⟩ := Piece.item.inj hleading
    exact Or.inr hmark
  · rw [heq] at hleading
    exact Piece.noConfusion hleading

/-- No pass has found out anything about the lexeme. -/
def Lexeme.IsFresh (lexeme : Lexeme) : Prop :=
  lexeme = { token := lexeme.token, text := lexeme.text }

variable (isLiteral : List Char → Prop)

theorem isStreamItem_of_mem_codeOf {code : List Char} {lexeme : Lexeme}
    (hlexeme : lexeme ∈ codeOf code) :
    IsStreamItem isLiteral lexeme.item ∧ lexeme.IsFresh := by
  have hplaceholder := token_ne_placeholder_of_mem_codeOf hlexeme
  rcases Line.mem_codeLexemes hlexeme with ⟨heq, hraw⟩ | ⟨token, text, hmem, halone, rfl⟩
  · rw [heq]
    exact ⟨.raw hraw, rfl⟩
  · refine ⟨.entry (isEntry_of_mem_scan hmem ?_ hplaceholder), rfl⟩
    rintro rfl
    simp [Line.standsAlone] at halone

theorem isStreamItem_lineBreak : IsStreamItem isLiteral Lexeme.lineBreak.item :=
  .entry (Or.inr (by decide))

/-- Every lexeme is an entry of the table, a literal or raw text, and fresh. -/
theorem isStreamItem_of_mem_lexAtoms {atoms : List Atom}
    (hatoms : ∀ text, .literal text ∈ atoms → isLiteral text) {code : List Char} {lexeme : Lexeme}
    (hlexeme : lexeme ∈ lexAtoms code atoms) :
    IsStreamItem isLiteral lexeme.item ∧ lexeme.IsFresh := by
  induction atoms generalizing code with
  | nil =>
      rw [lexAtoms, List.mem_append, List.mem_singleton] at hlexeme
      rcases hlexeme with hmem | rfl
      · exact isStreamItem_of_mem_codeOf isLiteral hmem
      · exact ⟨isStreamItem_lineBreak isLiteral, rfl⟩
  | cons atom rest ih =>
      have hrest : ∀ text, .literal text ∈ rest → isLiteral text :=
        fun text hmem => hatoms text (List.mem_cons_of_mem _ hmem)
      cases atom with
      | char char =>
          rw [lexAtoms] at hlexeme
          split at hlexeme
          · rw [List.mem_append, List.mem_cons] at hlexeme
            rcases hlexeme with hmem | rfl | hmem
            · exact isStreamItem_of_mem_codeOf isLiteral hmem
            · exact ⟨isStreamItem_lineBreak isLiteral, rfl⟩
            · exact ih hrest hmem
          · exact ih hrest hlexeme
      | literal text =>
          rw [lexAtoms, List.mem_append, List.mem_cons] at hlexeme
          rcases hlexeme with hmem | rfl | hmem
          · exact isStreamItem_of_mem_codeOf isLiteral hmem
          · exact ⟨.literal (hatoms text List.mem_cons_self), rfl⟩
          · exact ih hrest hmem

/-! ## Neighbours -/

def IsLineComment (text : List Char) : Prop :=
  "//".toList <+: text

/-- Raw text never follows raw text, and a line comment is followed by the end of its line. -/
structure MayFollow (first second : Token × List Char) : Prop where
  raw : first.1 = .text → second.1 ≠ .text
  comment : first.1 = .placeholder → IsLineComment first.2 →
    second.1 = .newline ∨ second.1.isBrace

def LineCommentsEnd : List Atom → Prop
  | [] => True
  | .char _ :: rest => LineCommentsEnd rest
  | .literal text :: rest =>
      (IsLineComment text → rest.head?.all (· = .char '\n')) ∧ LineCommentsEnd rest

theorem token_of_standsAlone {token : Token} {text : List Char}
    (halone : Line.standsAlone {} (.item token text)) :
    token ≠ .text ∧ token ≠ .placeholder := by
  constructor
  · rintro rfl
    simp [Line.standsAlone] at halone
  · rintro rfl
    simp [Line.standsAlone, LiteralTable.isIssued, LiteralTable.valueOf?] at halone

/-- Neighbours in code: what stands alone may be followed by anything, raw text only by what stands
alone. -/
theorem Line.isChain_codeLexemes {table : LiteralTable} {follows : Lexeme → Lexeme → Prop}
    (halone : ∀ token text second, standsAlone table (.item token text) →
      follows { token, text } second)
    (hraw : ∀ raw token text, standsAlone table (.item token text) →
      follows { token := .text, text := raw } { token, text })
    (raw : List Char) (pieces : List Piece) : (codeLexemes table raw pieces).IsChain follows := by
  induction pieces using pieces_induction table generalizing raw with
  | nil =>
      rw [codeLexemes, fragment]
      split <;> simp
  | raw piece rest hpiece ih =>
      rw [codeLexemes_raw hpiece]
      exact ih _
  | alone token text rest hpiece ih =>
      have hlater : (({ token, text } : Lexeme) :: codeLexemes table [] rest).IsChain follows :=
        List.isChain_cons.mpr ⟨fun second _ => halone token text second hpiece, ih []⟩
      rw [codeLexemes_item hpiece, fragment]
      split
      · exact hlater
      · exact List.isChain_cons_cons.mpr ⟨hraw _ token text hpiece, hlater⟩

theorem isChain_codeLexemes (raw : List Char) (pieces : List Piece) :
    ((Line.codeLexemes {} raw pieces).map Lexeme.item).IsChain MayFollow := by
  rw [List.isChain_map]
  refine Line.isChain_codeLexemes (fun token text second halone => ?_) (fun _ token text halone => ?_)
    raw pieces
  · obtain ⟨htext, hplaceholder⟩ := token_of_standsAlone halone
    exact ⟨fun h => absurd h htext, fun h => absurd h hplaceholder⟩
  · exact ⟨fun _ => (token_of_standsAlone halone).1, fun h => Token.noConfusion h⟩

theorem isChain_codeOf_append (code : List Char) {later : List Lexeme}
    (hlater : (later.map Lexeme.item).IsChain MayFollow)
    (hhead : ∀ lexeme, later.head? = some lexeme → lexeme.token ≠ .text) :
    ((codeOf code ++ later).map Lexeme.item).IsChain MayFollow := by
  rw [List.map_append, List.isChain_append]
  refine ⟨isChain_codeLexemes [] _, hlater, ?_⟩
  intro first hfirst second hsecond
  obtain ⟨lexeme, hlexeme, rfl⟩ := List.mem_map.mp (List.mem_of_getLast? hfirst)
  refine ⟨fun _ => ?_, fun h => absurd h (token_ne_placeholder_of_mem_codeOf hlexeme)⟩
  rw [List.head?_map, Option.mem_def, Option.map_eq_some_iff] at hsecond
  obtain ⟨other, hother, rfl⟩ := hsecond
  exact hhead other hother

/-- Lexing merges raw text that meets, and ends the line after a line comment. -/
theorem isChain_lexAtoms {atoms : List Atom} (hatoms : LineCommentsEnd atoms) (code : List Char) :
    ((lexAtoms code atoms).map Lexeme.item).IsChain MayFollow := by
  have hbreak : ∀ later : List Lexeme, (later.map Lexeme.item).IsChain MayFollow →
      ((Lexeme.lineBreak :: later).map Lexeme.item).IsChain MayFollow := by
    intro later hlater
    rw [List.map_cons, List.isChain_cons]
    exact ⟨fun _ _ => ⟨fun h => Token.noConfusion h, fun h => Token.noConfusion h⟩, hlater⟩
  induction atoms generalizing code with
  | nil =>
      refine isChain_codeOf_append code (hbreak [] List.isChain_nil) ?_
      rintro lexeme ⟨rfl⟩
      exact Token.noConfusion
  | cons atom rest ih =>
      cases atom with
      | char char =>
          rw [lexAtoms]
          split
          · refine isChain_codeOf_append code (hbreak _ (ih hatoms [])) ?_
            rintro lexeme ⟨rfl⟩
            exact Token.noConfusion
          · exact ih hatoms _
      | literal text =>
          obtain ⟨hend, hrest⟩ := hatoms
          refine isChain_codeOf_append code ?_ ?_
          · rw [List.map_cons, List.isChain_cons]
            refine ⟨?_, ih hrest []⟩
            intro second hsecond
            refine ⟨fun h => Token.noConfusion h, fun _ hcomment => Or.inl ?_⟩
            cases rest with
            | nil =>
                rw [lexAtoms, codeOf_nil] at hsecond
                obtain rfl : Lexeme.lineBreak.item = second := by simpa using hsecond
                rfl
            | cons next rest =>
                obtain rfl : next = .char '\n' := by simpa using hend hcomment
                rw [lexAtoms, if_pos rfl, codeOf_nil] at hsecond
                obtain rfl : Lexeme.lineBreak.item = second := by simpa using hsecond
                rfl
          · rintro lexeme ⟨rfl⟩
            exact Token.noConfusion

theorem head?_of_reads {scope : Scope} {text : List Char} {found : List Segment}
    (hreads : Reads scope text found) (hend : text.head?.all (· = '\n')) :
    (found.map Segment.atom).head?.all (· = .char '\n') := by
  cases hreads with
  | done => rfl
  | code hopening hrest => simpa [Segment.atom] using hend
  | @literal _ _ char _ _ _ hopening hliteral hrest =>
      have hfeed : char = '\n' := by simpa using hend
      rcases Scope.eq_of_opening? hopening with rfl | rfl <;> exact absurd hfeed (by decide)
  | @unclosed _ _ char _ _ hopening hliteral hrest =>
      have hfeed : char = '\n' := by simpa using hend
      rcases Scope.eq_of_opening? hopening with rfl | rfl <;> exact absurd hfeed (by decide)

/-- A line comment reaches to the end of its line, so nothing but a line break comes after it. -/
theorem lineCommentsEnd_of_reads {scope : Scope} {text : List Char} {found : List Segment}
    (hreads : Reads scope text found) : LineCommentsEnd (found.map Segment.atom) := by
  induction hreads with
  | done => trivial
  | code _ _ ih => exact ih
  | unclosed _ _ _ ih => exact ih
  | @literal scope kind char tail rest found hopening hliteral hrest ih =>
      obtain ⟨next, later, rfl⟩ :=
        List.exists_cons_of_ne_nil (Segment.tail_ne_nil hopening hliteral)
      cases kind with
      | string =>
          refine ⟨fun hcomment => ?_, ih⟩
          obtain ⟨rfl, -⟩ := Scope.opening?_eq_string_iff.mp hopening
          simp [IsLineComment] at hcomment
      | blockComment =>
          refine ⟨fun hcomment => ?_, ih⟩
          obtain ⟨rfl, hnext, -⟩ := Scope.opening?_eq_blockComment_iff.mp hopening
          obtain rfl : next = '*' := by simpa using hnext
          simp [IsLineComment] at hcomment
      | lineComment =>
          refine ⟨fun _ => head?_of_reads hrest ?_, ih⟩
          exact (Segment.literalAt?_lineComment_iff.mp hliteral).2

theorem lineCommentsEnd_atoms (source : List Char) : LineCommentsEnd (atoms source) :=
  lineCommentsEnd_of_reads (reads_segments .all source)

end ChuckLayout
