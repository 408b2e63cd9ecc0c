import ChuckLayout.Proofs.Literals.Catalogue
import ChuckLayout.Proofs.Text.Squeeze

/-!
# Where literals stand in a layout

Each placeholder of the table is in the stream once and in the layout once, set off on either side by
a space, a line break or an end of the text.  A line comment is the last of its line, in the layout
as in the formatted source, so it takes no code into it.
-/

namespace ChuckLayout

open Blank (IsTight trimEnd trimStart)
open List (Forall₂)
open Placeholder (Chunk chunks)
open Spacing

/-- The placeholders of the stream, in its order. -/
def placeholdersOf (source : List Char) : List (List Char) :=
  placeholderTexts ((Document.stream source).map Lexeme.item)

/-- The layout of the stream, cut at its names. -/
def layoutChunks (source : List Char) : List Chunk :=
  chunks (Document.layOut (Document.stream source))

theorem literalTexts_layoutAtoms (source : List Char) :
    literalTexts (layoutAtoms source) = placeholdersOf source := by
  rw [layoutAtoms, literalTexts_printAtoms, rows, flatten_rowsAfter, placeholdersOf,
    ← placeholderTexts_filter ((Document.stream source).map Lexeme.item), List.filter_map]
  rfl

theorem layoutChunks_eq (source : List Char) :
    layoutChunks source = chunks (spell (layoutAtoms source)) := by
  rw [layoutChunks, layOut_eq_spell]

/-- Lexing puts every placeholder of the table into the stream once. -/
theorem perm_placeholdersOf (source : List Char) :
    (placeholdersOf source).Perm (Document.lex source).table.names := by
  rw [placeholdersOf, placeholderTexts_stream]
  exact perm_names_lex source

/-- Searching the layout for names finds the placeholders of the stream, in order. -/
theorem filterMap_layoutChunks (source : List Char) :
    (layoutChunks source).filterMap (Document.lex source).table.issuedName? =
      placeholdersOf source := by
  rw [layoutChunks_eq, (isPlaced_layoutAtoms source).filterMap_chunks (isNumbered_lex source),
    literalTexts_layoutAtoms]

/-- The stream and the layout have each placeholder of the table once, and in the layout nothing
reaches up to it but margins. -/
theorem placeholders_layOut (source : List Char) :
    (placeholdersOf source).Nodup ∧
      (placeholdersOf source).Perm
        ((Document.lex source).table.literals.map Literal.placeholder) ∧
      (layoutChunks source).filterMap (Document.lex source).table.issuedName? =
        placeholdersOf source ∧
      ∀ front name back, layoutChunks source = front ++ .named name :: back →
        (Document.lex source).table.isIssued name →
        (front.flatMap Chunk.text).getLast?.all isMargin ∧
          (back.flatMap Chunk.text).head?.all isMargin := by
  have hperm := perm_placeholdersOf source
  refine ⟨hperm.nodup_iff.mpr (isDistinct_lex source).nodup, hperm, filterMap_layoutChunks source, ?_⟩
  intro front name back hchunks hissued
  have hplaced := isPlaced_layoutAtoms source
  rw [layoutChunks_eq] at hchunks
  obtain ⟨before, after, hatoms, rfl, rfl⟩ :=
    hplaced.exists_of_chunks_eq (isNumbered_lex source) hchunks hissued
  rw [Placeholder.flatMap_chunks, Placeholder.flatMap_chunks]
  rw [hatoms] at hplaced
  exact hplaced.margins

/-! ## Line comments -/

/-- Trimming a text stops where something stands in it. -/
theorem Blank.trim_around_tight {middle : List Char} (htight : IsTight middle)
    (front back : List Char) :
    Blank.trim (front ++ middle ++ back) = trimStart front ++ middle ++ trimEnd back := by
  obtain ⟨lead, hlead, hstart⟩ := exists_trimStart front
  obtain ⟨trail, htrail, hend⟩ := exists_trimEnd back
  have hmiddle : IsTight (trimStart front ++ middle ++ trimEnd back) := by
    constructor
    · cases hfront : trimStart front with
      | nil =>
          rw [List.nil_append, List.head?_append_of_ne_nil _ htight.ne_nil]
          exact htight.1
      | cons char rest =>
          have hsolid := head?_trimStart front char (by rw [hfront]; rfl)
          simp [hsolid]
    · rcases (trimEnd back).eq_nil_or_concat' with hback | ⟨rest, char, hback⟩
      · rw [hback, List.append_nil, List.getLast?_append_of_ne_nil _ htight.ne_nil]
        exact htight.2
      · have hsolid := getLast?_trimEnd back char (by rw [hback]; simp)
        simp [hback, hsolid]
  calc Blank.trim (front ++ middle ++ back)
      = Blank.trim (lead ++ (trimStart front ++ middle ++ trimEnd back) ++ trail) := by
        conv_lhs => rw [hstart, hend]
        simp only [List.append_assoc]
    _ = trimStart front ++ middle ++ trimEnd back := by
        rw [trim_append_of_blank htrail, trim_of_blank_append hlead, trim_of_tight hmiddle]

/-- A literal that comes after a run of characters is not in it. -/
theorem exists_of_map_char_append {text name : List Char} {atoms front back : List Atom}
    (hsplit : front ++ .literal name :: back = text.map .char ++ atoms) :
    ∃ later, atoms = later ++ .literal name :: back := by
  induction text generalizing front with
  | nil => exact ⟨front, hsplit.symm⟩
  | cons char rest ih =>
      cases front with
      | nil => exact Atom.noConfusion (List.cons.inj hsplit).1
      | cons atom front => exact ih (List.cons.inj hsplit).2

/-- After a line comment that has been laid out comes a line break, or nothing. -/
theorem Laid.head?_of_isLineComment {lexemes : List Lexeme} {front back : List Atom}
    {text : List Char} (hlaid : Laid lexemes (front ++ .literal text :: back))
    (hcomment : IsLineComment text) : (spell back).head?.all (· = '\n') := by
  generalize hall : front ++ .literal text :: back = all at hlaid
  induction hlaid generalizing front with
  | done => simp at hall
  | blank hblank _ ih =>
      cases front with
      | nil => exact Atom.noConfusion (List.cons.inj hall).1
      | cons atom front => exact ih (List.cons.inj hall).2
  | code _ _ _ ih =>
      obtain ⟨later, hlater⟩ := exists_of_map_char_append hall
      exact ih hlater.symm
  | literal _ _ hend _ ih =>
      cases front with
      | nil =>
          obtain ⟨hliteral, rfl⟩ := List.cons.inj hall
          obtain rfl := Atom.literal.inj hliteral
          exact hend hcomment
      | cons atom front => exact ih (List.cons.inj hall).2

theorem find?_of_nodup {literals : List Literal} {literal : Literal}
    (hnodup : (literals.map Literal.placeholder).Nodup) (hmem : literal ∈ literals) :
    literals.find? (fun other => other.placeholder = literal.placeholder) = some literal := by
  induction literals with
  | nil => exact absurd hmem List.not_mem_nil
  | cons other rest ih =>
      obtain ⟨hother, hrest⟩ := List.nodup_cons.mp hnodup
      rcases List.mem_cons.mp hmem with rfl | hmem
      · exact List.find?_cons_of_pos (by simp)
      · rw [List.find?_cons_of_neg, ih hrest hmem]
        intro hsame
        rw [of_decide_eq_true hsame] at hother
        exact hother (List.mem_map_of_mem hmem)

/-- A literal is found behind its placeholder, as no other has the same one. -/
theorem LiteralTable.IsDistinct.knows {table : LiteralTable} (hdistinct : table.IsDistinct)
    {literal : Literal} (hliteral : literal ∈ table.literals) :
    table.Knows literal.placeholder literal.value := by
  rw [Knows, valueOf?, find?_of_nodup hdistinct.nodup hliteral]
  rfl

/-- What follows a placeholder begins the same when the literals are put back. -/
theorem IsPlaced.head?_spell {table : LiteralTable} {related : List Char → List Char → Prop}
    {name : List Char} {back others : List Atom} (hplaced : IsPlaced table (.literal name :: back))
    (hmatches : Forall₂ (Atom.Matches related) back others) :
    (spell others).head? = (spell back).head? := by
  cases hmatches with
  | nil => rfl
  | cons hatom _ =>
      obtain ⟨char, -, rfl⟩ := (List.isChain_cons_cons.mp hplaced.standsOff).1.after name rfl
      cases hatom
      rfl

/-- No placeholder gets lost on the way to the layout. -/
theorem exists_split_of_mem_names {source name : List Char}
    (hname : name ∈ (Document.lex source).table.names) :
    ∃ front back, layoutChunks source = front ++ .named name :: back := by
  rw [← (perm_placeholdersOf source).mem_iff, ← filterMap_layoutChunks, List.mem_filterMap] at hname
  obtain ⟨chunk, hchunk, hsome⟩ := hname
  cases chunk with
  | plain char => exact absurd hsome.symm (Option.some_ne_none _)
  | named other =>
      rw [LiteralTable.issuedName?] at hsome
      split at hsome
      · obtain rfl := Option.some.inj hsome
        exact List.append_of_mem hchunk
      · exact absurd hsome.symm (Option.some_ne_none _)

/-- Where the layout has a placeholder, the printed rows have the literal behind it, between the texts
that putting the literals back gives. -/
theorem exists_split_of_chunks {source : List Char} {literal : Literal}
    (hliteral : literal ∈ (Document.lex source).table.literals) {front back : List Chunk}
    (hchunks : layoutChunks source = front ++ .named literal.placeholder :: back) :
    ∃ before after,
      printAtoms (plainStream source) 0 (rows (plainStream source)) =
        before ++ .literal literal.value :: after ∧
      front.flatMap (Document.lex source).table.revealChunk = spell before ∧
      back.flatMap (Document.lex source).table.revealChunk = spell after ∧
      (back.flatMap Chunk.text).head? = (spell after).head? := by
  have hplaced := isPlaced_layoutAtoms source
  have hnumbered := isNumbered_lex source
  have hknows := (isDistinct_lex source).knows hliteral
  rw [layoutChunks_eq] at hchunks
  obtain ⟨before, after, hatoms, rfl, rfl⟩ :=
    hplaced.exists_of_chunks_eq hnumbered hchunks (LiteralTable.isIssued_iff.mpr ⟨_, hknows⟩)
  have hmatches := matches_layoutAtoms source
  rw [hatoms] at hmatches hplaced
  obtain ⟨before', value, after', hprint, hvalue, hbefore, hafter⟩ := exists_split_of_matches hmatches
  obtain rfl : literal.value = value := Option.some.inj (hknows.symm.trans hvalue)
  refine ⟨before', after', hprint, ?_, ?_, ?_⟩
  · exact hplaced.left.substitute_spell hnumbered hbefore
  · exact hplaced.right.tail.substitute_spell hnumbered hafter
  · rw [Placeholder.flatMap_chunks, hplaced.right.head?_spell hafter]

/-- A line comment ends its line: its placeholder comes before a line break or the end of the layout,
and so does the comment in the formatted source, which has around it what the layout has around the
placeholder. -/
theorem lineComment_endsLine {source : List Char} {literal : Literal}
    (hliteral : literal ∈ (Document.lex source).table.literals)
    (hkind : literal.kind = .lineComment) :
    (∃ front back, layoutChunks source = front ++ .named literal.placeholder :: back) ∧
      ∀ front back, layoutChunks source = front ++ .named literal.placeholder :: back →
        let before := trimStart (front.flatMap (Document.lex source).table.revealChunk)
        let after := trimEnd (back.flatMap (Document.lex source).table.revealChunk)
        (back.flatMap Chunk.text).head?.all (· = '\n') ∧
          Document.tidy source = before ++ literal.value ++ after ∧ after.head?.all (· = '\n') := by
  refine ⟨exists_split_of_mem_names (List.mem_map_of_mem hliteral), fun front back hchunks => ?_⟩
  obtain ⟨before, after, hprint, hbefore, hafter, hhead⟩ := exists_split_of_chunks hliteral hchunks
  have hwhole := (isLiteral_of_mem_literalsOf (mem_literalsOf hliteral)).1
  have hlaid : Laid _ (printAtoms (plainStream source) 0 (rows (plainStream source))) :=
    laid_printAtoms (fun _ => isRow_of_mem_rows) 0
  rw [hprint] at hlaid
  rw [hkind] at hwhole
  have hend := hlaid.head?_of_isLineComment hwhole.isLineComment
  rw [hhead, hbefore, hafter]
  refine ⟨hend, ?_, ?_⟩
  · rw [tidy_eq_join_printRows, ← spell_printAtoms, hprint, spell_append,
      ← Blank.trim_around_tight hwhole.isTight, List.append_assoc]
    rfl
  · obtain ⟨trail, -, htrail⟩ := Blank.exists_trimEnd (spell after)
    rw [htrail, List.head?_append] at hend
    cases hfirst : (trimEnd (spell after)).head? with
    | none => rfl
    | some char => rwa [hfirst, Option.some_or] at hend

/-- The line break that ends this comment is one that is dropped, for a brace comes after it. -/
theorem lineComment_endsLine_before_brace :
    let source := "x//a\n\x7b".toList
    let literal : Literal := ⟨.lineComment, 1, 3, "//a".toList, "EOL_COMMENT_LITERAL_1".toList⟩
    literal ∈ (Document.lex source).table.literals ∧ literal.kind = .lineComment ∧
      ∃ front back, layoutChunks source = front ++ .named literal.placeholder :: back ∧
        (back.flatMap Chunk.text).head?.all (· = '\n') ∧
          ∃ before after, Document.tidy source = before ++ literal.value ++ after ∧
            after.head?.all (· = '\n') := by
  intro source literal
  have hliteral : literal ∈ (Document.lex source).table.literals := by decide +kernel
  obtain ⟨⟨front, back, hchunks⟩, hends⟩ := lineComment_endsLine hliteral rfl
  obtain ⟨hback, htidy, hafter⟩ := hends front back hchunks
  exact ⟨hliteral, rfl, front, back, hchunks, hback, _, _, htidy, hafter⟩

end ChuckLayout
