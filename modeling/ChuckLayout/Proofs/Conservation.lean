import ChuckLayout.Proofs.Layout.Direct

/-!
# Nothing is lost and nothing is added

Formatting touches blanks only.  Lexing keeps the solid characters of a source, since the text of a
lexeme is a part of it; the passes leave out line breaks alone; and a row shows its lexemes one after
the other, set off by blanks.
-/

namespace ChuckLayout

open Blank (solid AllBlank padding)
open Spacing

def solidOf (items : List (Token × List Char)) : List Char :=
  items.flatMap fun item => solid item.2

@[simp]
theorem solidOf_append (front back : List (Token × List Char)) :
    solidOf (front ++ back) = solidOf front ++ solidOf back :=
  List.flatMap_append

@[simp]
theorem solidOf_cons (item : Token × List Char) (rest : List (Token × List Char)) :
    solidOf (item :: rest) = solid item.2 ++ solidOf rest :=
  List.flatMap_cons

/-! ## Lexing -/

theorem solidOf_fragment (raw : List Char) :
    solidOf ((Line.fragment raw).map Lexeme.item) = solid raw := by
  rw [Line.fragment]
  split
  · rename_i htrim
    rw [← Blank.solid_trim, htrim]
    rfl
  · simp [solidOf, Lexeme.item, Blank.solid_trim]

/-- Lexing code keeps its solid characters, in order. -/
theorem solidOf_codeLexemes (table : LiteralTable) (raw : List Char) (pieces : List Piece) :
    solidOf ((Line.codeLexemes table raw pieces).map Lexeme.item) =
      solid raw ++ solid (pieces.flatMap Piece.text) := by
  induction pieces using Line.pieces_induction table generalizing raw with
  | nil => simp [Line.codeLexemes, solidOf_fragment]
  | raw piece rest hpiece ih => rw [Line.codeLexemes_raw hpiece, ih, List.flatMap_cons]; simp
  | alone token text rest hpiece ih =>
      rw [Line.codeLexemes_item hpiece]
      simp [solidOf_fragment, ih, Lexeme.item, Piece.text]

theorem solidOf_codeOf (code : List Char) :
    solidOf ((codeOf code).map Lexeme.item) = solid code := by
  rw [codeOf, solidOf_codeLexemes, flatMap_scan, Blank.solid_nil, List.nil_append]

/-- Whatever the lexemes of atoms are, they have the solid characters of the pending code and of the
atoms. -/
theorem solidOf_lexAtoms (code : List Char) (atoms : List Atom) :
    solidOf ((lexAtoms code atoms).map Lexeme.item) = solid code ++ solid (atoms.flatMap Atom.text) := by
  have hbreak : solid Lexeme.lineBreak.text = [] := by decide
  induction atoms generalizing code with
  | nil =>
      have hlast : solidOf [Lexeme.lineBreak.item] = [] := by decide
      simp [lexAtoms, solidOf_codeOf, hlast]
  | cons atom rest ih =>
      cases atom with
      | char char =>
          rw [lexAtoms]
          split
          · rename_i hfeed
            subst hfeed
            simp [solidOf_codeOf, Lexeme.item, hbreak, ih, Atom.text,
              Blank.solid_cons_of_blank Blank.isBlank_lineFeed]
          · rw [ih, Blank.solid_append, List.append_assoc, ← Blank.solid_append]
            rfl
      | literal text => simp [lexAtoms, solidOf_codeOf, Lexeme.item, ih, Atom.text]

theorem solid_atom_text (segment : Segment) : solid segment.atom.text = solid segment.text := by
  cases segment with
  | code char => rfl
  | unclosed kind char => rfl
  | literal kind text => cases kind <;> simp [Segment.atom, Atom.text, Segment.text, Blank.solid_trimEnd]

theorem solid_atoms (source : List Char) :
    solid ((atoms source).flatMap Atom.text) = solid source := by
  conv_rhs => rw [← (reads_segments .all source).flatMap_text]
  rw [atoms, List.flatMap_map, Blank.solid_flatMap, Blank.solid_flatMap]
  exact List.flatMap_congr fun segment _ => solid_atom_text segment

/-! ## Layout -/

theorem solid_core {isLiteral : List Char → Prop} {lexeme : Lexeme}
    (hitem : IsStreamItem isLiteral lexeme.item) : solid lexeme.core = solid lexeme.text := by
  rcases hitem.cases_token with ⟨htoken, hentry⟩ | ⟨hplaceholder, -⟩ | ⟨htext, -⟩
  · have hmarks : ∀ mark ∈ Piece.marks, solid mark.2 = solid mark.1.spelling := by decide
    have hspelling : solid lexeme.text = solid lexeme.token.spelling := by
      rcases hentry with ⟨-, hsame⟩ | hmark
      · exact congrArg solid hsame
      · exact hmarks _ hmark
    rw [(Lexeme.core_of_isTableEntry htoken).2, hspelling]
  · rw [(Lexeme.core_of_placeholder hplaceholder).2]
  · rw [(Lexeme.core_of_text htext).2, Blank.solid_squeeze]

theorem solid_padding (padded : Bool) : solid (padding padded) = [] :=
  (Blank.allBlank_padding padded).solid_eq_nil

/-- A row adds nothing but blanks to its lexemes. -/
theorem solid_rowText (stream : List Lexeme) (previous : Option Lexeme) (row : List Lexeme) :
    solid (rowText stream previous row) = row.flatMap fun lexeme => solid lexeme.core := by
  induction row generalizing previous with
  | nil => rfl
  | cons first rest ih =>
      cases rest with
      | nil => simp [rowText]
      | cons second rest => rw [rowText, List.flatMap_cons, ← ih (some first)]; simp [solid_padding]

theorem solid_printRows (stream : List Lexeme) (depth : Int) (found : List (List Lexeme)) :
    (printRows stream depth found).flatMap solid =
      found.flatten.flatMap fun lexeme => solid lexeme.core := by
  induction found generalizing depth with
  | nil => rfl
  | cons row later ih =>
      rw [printRows, List.flatMap_cons, ih, List.flatten_cons, List.flatMap_append,
        Blank.solid_append, (Nesting.allBlank_indentation _).solid_eq_nil, List.nil_append, solid_rowText]

theorem solid_join (lines : List (List Char)) : solid (Line.join lines) = lines.flatMap solid := by
  cases lines with
  | nil => rfl
  | cons line rest =>
      rw [Line.join_cons, Blank.solid_append, Blank.solid_flatMap, List.flatMap_cons]
      exact congrArg _ <| List.flatMap_congr fun next _ => Blank.solid_cons_of_blank Blank.isBlank_lineFeed next

/-- Rows keep every lexeme but the line breaks, in order. -/
theorem flatten_rowsAfter (previous : Option Token) (lexemes : List Lexeme) :
    (rowsAfter previous lexemes).flatten = lexemes.filter fun lexeme => lexeme.token != .newline := by
  induction lexemes generalizing previous with
  | nil => rfl
  | cons lexeme rest ih =>
      by_cases htoken : lexeme.token = .newline
      · rw [rowsAfter_lineBreak htoken, List.flatten_cons, ih]
        simp [htoken]
      · have hkeep : (lexeme :: rest).filter (fun lexeme => lexeme.token != .newline) =
            lexeme :: rest.filter fun lexeme => lexeme.token != .newline := by
          simp [htoken]
        rw [hkeep]
        cases hbrace : lexeme.token.isBrace with
        | true =>
            rw [rowsAfter_brace hbrace]
            split <;> simp [ih]
        | false =>
            obtain ⟨row, later, hrows⟩ :=
              List.exists_cons_of_ne_nil (rowsAfter_ne_nil (some lexeme.token) rest)
            have hlater := ih (some lexeme.token)
            rw [rowsAfter_other (endsRow_eq_false_iff.mpr ⟨htoken, hbrace⟩)]
            rw [hrows, List.flatten_cons] at *
            rw [List.modifyHead_cons, List.flatten_cons, List.cons_append, hlater]

/-- Every item of the stream, with its literals, is one of the stream's kinds of items. -/
theorem isStreamItem_of_mem_plainStream {source : List Char} {lexeme : Lexeme}
    (hlexeme : lexeme ∈ plainStream source) : IsStreamItem (fun _ => True) lexeme.item := by
  have hsublist := map_item_applyAll_sublist (lexAtoms [] (atoms source))
  obtain ⟨other, hother, hitem⟩ :=
    List.mem_map.mp (hsublist.subset (List.mem_map_of_mem hlexeme))
  rw [← hitem]
  exact (isStreamItem_of_mem_lexAtoms _ (fun _ _ => trivial) hother).1

theorem solidOf_filter {items : List (Token × List Char)}
    (hitems : ∀ item ∈ items, IsStreamItem (fun _ => True) item) :
    solidOf (items.filter fun item => item.1 != .newline) = solidOf items := by
  induction items with
  | nil => rfl
  | cons item rest ih =>
      obtain ⟨hitem, hrest⟩ := List.forall_mem_cons.mp hitems
      by_cases htoken : item.1 = .newline
      · rw [List.filter_cons_of_neg (by simp [htoken]), ih hrest, solidOf_cons,
          hitem.text_of_newline htoken, Blank.solid_cons_of_blank Blank.isBlank_lineFeed,
          Blank.solid_nil, List.nil_append]
      · rw [List.filter_cons_of_pos (by simp [htoken]), solidOf_cons, solidOf_cons, ih hrest]

/-- The passes drop line breaks only, so the stream still has all solid characters of its source. -/
theorem solidOf_plainStream (source : List Char) :
    solidOf ((plainStream source).map Lexeme.item) = solid source := by
  have hplain : ∀ item ∈ (plainStream source).map Lexeme.item, IsStreamItem (fun _ => True) item :=
    List.forall_mem_map.mpr fun _ => isStreamItem_of_mem_plainStream
  have hlexed : ∀ item ∈ (lexAtoms [] (atoms source)).map Lexeme.item,
      IsStreamItem (fun _ => True) item :=
    List.forall_mem_map.mpr fun _ hlexeme =>
      (isStreamItem_of_mem_lexAtoms _ (fun _ _ => trivial) hlexeme).1
  have hdropped : ∀ lexeme ∈ lexAtoms [] (atoms source), lexeme.dropped = false := by
    intro lexeme hlexeme
    rw [isFresh_of_mem_lexAtoms hlexeme]
  rw [← solidOf_filter hplain, plainStream, filter_map_item_applyAll hdropped, solidOf_filter hlexed,
    solidOf_lexAtoms, solid_atoms, Blank.solid_nil, List.nil_append]

/-- Without its blanks, the formatted source is the source: no character is lost, added, repeated or
moved, whatever the source. -/
theorem solid_tidy (source : List Char) : solid (Document.tidy source) = solid source := by
  have hcores : ∀ lexeme ∈ plainStream source, solid lexeme.core = solid lexeme.text :=
    fun lexeme hlexeme => solid_core (isStreamItem_of_mem_plainStream hlexeme)
  have hplain : ∀ item ∈ (plainStream source).map Lexeme.item, IsStreamItem (fun _ => True) item :=
    List.forall_mem_map.mpr fun _ => isStreamItem_of_mem_plainStream
  calc solid (Document.tidy source)
      = (rows (plainStream source)).flatten.flatMap fun lexeme => solid lexeme.core := by
        rw [tidy_eq_join_printRows, Blank.solid_trim, solid_join, solid_printRows]
    _ = ((plainStream source).filter fun lexeme => lexeme.token != .newline).flatMap
          fun lexeme => solid lexeme.text := by
        rw [rows, flatten_rowsAfter]
        exact List.flatMap_congr fun lexeme hlexeme => hcores lexeme (List.mem_of_mem_filter hlexeme)
    _ = solidOf (((plainStream source).map Lexeme.item).filter fun item => item.1 != .newline) := by
        rw [solidOf, List.filter_map, List.flatMap_map]
        rfl
    _ = solid source := by
        rw [solidOf_filter hplain, solidOf_plainStream]

end ChuckLayout
