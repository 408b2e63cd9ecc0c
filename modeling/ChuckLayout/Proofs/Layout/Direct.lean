import ChuckLayout.Proofs.Layout.Placed

/-!
# Layout without masking

The placeholders of a masked stream are placed in its printed rows, so putting the literals back gives
the printed rows of the stream that lexing the atoms of the source gives: masking leaves no trace in
the formatted source.
-/

namespace ChuckLayout

open Blank (IsTight padding)
open List (Forall₂)
open Lexeme (Corresponds IsAlike)
open Placeholder (IsApart IsUnused isNameChar)
open Spacing

/-! ## Putting the literals back -/

/-- The hidden item becomes the other one when the literals of the table are put back. -/
abbrev Reveals (table : LiteralTable) : Token × List Char → Token × List Char → Prop :=
  SameBut table.Knows

def MayTouch (first second : Token) : Prop :=
  first = .text → second ≠ .text

structure Lexeme.IsHidden (table : LiteralTable) (lexeme : Lexeme) : Prop where
  item : IsStreamItem (fun name => ∃ value, table.Knows name value) lexeme.item
  unused : lexeme.token = .text → IsUnused table.salt lexeme.text

variable {table : LiteralTable} (hnumbered : table.IsNumbered)

include hnumbered in
theorem LiteralTable.IsNumbered.isWord_of_knows {name value : List Char}
    (hknows : table.Knows name value) : Word.IsWord name ∧ name ≠ [] := by
  obtain ⟨kind, number, -, rfl⟩ := hnumbered.exists_of_knows hknows
  refine ⟨Placeholder.isWord_numbered kind _ number, ?_⟩
  simp [Placeholder.numbered, Placeholder.stem_ne_nil]

include hnumbered in
theorem Lexeme.IsHidden.isNeat {lexeme : Lexeme} (hhidden : lexeme.IsHidden table)
    (htoken : lexeme.token ≠ .newline) : lexeme.IsNeat :=
  isNeat_of_isStreamItem hhidden.item
    (fun _ ⟨_, hknows⟩ => hnumbered.isWord_of_knows hknows) htoken

/-- Squeezing puts no name together: a space between two characters stays. -/
theorem Placeholder.IsUnused.squeeze {size : Nat} {text : List Char}
    (hunused : IsUnused (saltOfSize size) text) : IsUnused (saltOfSize size) (Blank.squeeze text) := by
  intro kind hstem
  refine hunused kind (Blank.isInfix_of_isInfix_squeeze ?_ hstem)
  exact fun char hchar => isBlank_of_isWordChar (Placeholder.isWord_stem kind size char hchar)

theorem Token.isNameChar_of_mem_spelling {token : Token} :
    ∀ char ∈ token.spelling, isNameChar char = false := by
  have hall : ∀ token ∈ all, token.spelling.any isNameChar = false := by decide
  simpa using hall token (mem_all token)

/-- What a lexeme of a masked stream can be. -/
theorem Lexeme.IsHidden.cases {lexeme : Lexeme} (hhidden : lexeme.IsHidden table) :
    lexeme.token.isTableEntry ∨ lexeme.token = .placeholder ∨ lexeme.token = .text :=
  hhidden.item.cases_token.imp And.left (Or.imp And.left And.left)

theorem Lexeme.IsHidden.isUnused_core {lexeme : Lexeme} (hhidden : lexeme.IsHidden table)
    (htoken : lexeme.token ≠ .placeholder) : IsUnused table.salt lexeme.core := by
  rcases hhidden.cases with hentry | hplaceholder | htext
  · rw [(Lexeme.core_of_isTableEntry hentry).2]
    exact Placeholder.isUnused_of_not_isNameChar Token.isNameChar_of_mem_spelling
  · exact absurd hplaceholder htoken
  · rw [(Lexeme.core_of_text htext).2]
    exact (hhidden.unused htext).squeeze

/-- A placeholder is set off on both sides. -/
theorem not_placeholder_of_not_isGapped {stream : List Lexeme} {previous next : Option Lexeme}
    {first second : Lexeme} (hgap : isGapped stream previous first second next = false) :
    first.token ≠ .placeholder ∧ second.token ≠ .placeholder := by
  rw [isGapped, Bool.or_eq_false_iff] at hgap
  constructor <;> intro htoken
  · simp [padsAfter, htoken] at hgap
  · simp [padsBefore, htoken] at hgap

/-- Lexemes that stand next to each other without a space are not both raw text, and neither is a
placeholder, so no name reaches from one into the other. -/
theorem isApart_core {stream : List Lexeme} {previous next : Option Lexeme} {first second : Lexeme}
    (hfirst : first.IsHidden table) (hsecond : second.IsHidden table)
    (hfollows : MayTouch first.token second.token)
    (hgap : isGapped stream previous first second next = false) (back : List Char)
    (hsolid : second.core ≠ []) : IsApart first.core (second.core ++ back) := by
  have hnot := not_placeholder_of_not_isGapped hgap
  rcases hfirst.cases with hentry | hplaceholder | htext
  · apply isApart_of_getLast?
    rw [(Lexeme.core_of_isTableEntry hentry).2]
    exact fun last hlast => Token.isNameChar_of_mem_spelling last (List.mem_of_getLast? hlast)
  · exact absurd hplaceholder hnot.1
  · rcases hsecond.cases with hentry | hplaceholder | htext'
    · apply isApart_of_head?
      rw [List.head?_append_of_ne_nil _ hsolid, (Lexeme.core_of_isTableEntry hentry).2]
      exact fun first hhead => Token.isNameChar_of_mem_spelling first (List.mem_of_head? hhead)
    · exact absurd hplaceholder hnot.2
    · exact absurd htext' (hfollows htext)

/-! ## Placeholders in printed rows -/

/-- Shown alone, a lexeme is a placeholder or holds nothing that could be taken for one. -/
theorem isPlaced_atoms {lexeme : Lexeme} (hhidden : lexeme.IsHidden table) :
    IsPlaced table lexeme.atoms := by
  rw [Lexeme.atoms]
  split
  · rename_i htoken
    exact .literal (hhidden.item.isLiteral_text htoken)
  · rename_i htoken
    exact .chars (hhidden.isUnused_core htoken)

theorem rowAtoms_cons_eq (stream : List Lexeme) (previous : Option Lexeme) (first : Lexeme)
    (rest : List Lexeme) : ∃ back, rowAtoms stream previous (first :: rest) = first.atoms ++ back := by
  cases rest with
  | nil => exact ⟨[], (List.append_nil _).symm⟩
  | cons second rest => exact ⟨_, by rw [rowAtoms, List.append_assoc]⟩

include hnumbered

/-- In a row a placeholder stands off from its neighbours, and no two raw texts meet to spell a
name. -/
theorem isPlaced_rowAtoms (stream : List Lexeme) {row : List Lexeme}
    (hhidden : ∀ lexeme ∈ row, lexeme.IsHidden table ∧ lexeme.token ≠ .newline)
    (hchain : (row.map Lexeme.token).IsChain MayTouch) (previous : Option Lexeme) :
    IsPlaced table (rowAtoms stream previous row) := by
  induction row generalizing previous with
  | nil => exact .nil
  | cons first rest ih =>
      obtain ⟨hfirst, hrest⟩ := List.forall_mem_cons.mp hhidden
      cases rest with
      | nil => exact isPlaced_atoms hfirst.1
      | cons second rest =>
          obtain ⟨hsecond, -⟩ := List.forall_mem_cons.mp hrest
          rw [List.map_cons, List.map_cons, List.isChain_cons_cons] at hchain
          have hlater := ih hrest hchain.2 (some first)
          rw [rowAtoms, List.append_assoc]
          cases hgap : isGapped stream previous first second rest.head? with
          | true => exact (isPlaced_atoms hfirst.1).append_margin (hlater.cons_margin rfl) rfl
          | false =>
              obtain ⟨back, hback⟩ := rowAtoms_cons_eq stream (some first) second rest
              have hnot := not_placeholder_of_not_isGapped hgap
              have hsolid : second.core ≠ [] :=
                (hsecond.1.isNeat hnumbered hsecond.2).isTight_core.ne_nil
              obtain ⟨char, tail, hcore⟩ := List.exists_cons_of_ne_nil hsolid
              have happart := isApart_core hfirst.1 hsecond.1 hchain.1 hgap (outline back) hsolid
              rw [hback, Lexeme.atoms, if_neg hnot.2] at hlater
              rw [padding, if_neg Bool.false_ne_true, List.map_nil, List.nil_append, hback,
                Lexeme.atoms, if_neg hnot.1, Lexeme.atoms, if_neg hnot.2]
              refine (IsPlaced.chars (hfirst.1.isUnused_core hnot.1)).append hlater ?_ ?_
              · intro last hlast head hhead
                obtain ⟨_, -, rfl⟩ := List.mem_map.mp (List.mem_of_getLast? hlast)
                rw [hcore] at hhead
                obtain rfl := Option.some.inj hhead
                exact .chars _ _
              · rwa [outline_map_char, outline_append, outline_map_char]

/-- Line breaks and indentation are margins, so rows can be put below each other. -/
theorem isPlaced_printAtoms (stream : List Lexeme) {found : List (List Lexeme)}
    (hhidden : ∀ row ∈ found, (∀ lexeme ∈ row, lexeme.IsHidden table ∧ lexeme.token ≠ .newline) ∧
      (row.map Lexeme.token).IsChain MayTouch) (depth : Int) :
    IsPlaced table (printAtoms stream depth found) := by
  have hline : ∀ row ∈ found, ∀ depth, IsPlaced table (lineAtoms stream depth row) := by
    intro row hrow depth
    exact (isPlaced_rowAtoms hnumbered stream (hhidden row hrow).1 (hhidden row hrow).2
      none).blanks_append _
  induction found generalizing depth with
  | nil => exact .nil
  | cons row rest ih =>
      obtain ⟨hrow, hrest⟩ := List.forall_mem_cons.mp hhidden
      obtain ⟨hrowLine, hrestLine⟩ := List.forall_mem_cons.mp hline
      cases rest with
      | nil => exact hrowLine depth
      | cons next rest =>
          exact (hrowLine depth).append_margin ((ih hrest _ hrestLine).cons_margin rfl) rfl

omit hnumbered

/-! ## The formatted source -/

/-- The stream of a source with its literals in it. -/
def plainStream (source : List Char) : List Lexeme :=
  Pass.applyAll (lexAtoms [] (atoms source))

theorem isNumbered_lex (source : List Char) : (Document.lex source).table.IsNumbered :=
  (lexesTo_document source).extends'.numbered (LiteralTable.isNumbered_forSource source)

/-- The lexemes of a source are those of its atoms, with a placeholder for each literal. -/
theorem reveals_lex (source : List Char) :
    Forall₂ (Corresponds (Reveals (Document.lex source).table)) (Document.lex source).lexemes
      (lexAtoms [] (atoms source)) := by
  have hlex := lexesTo_document source
  rw [← hlex.revealed, List.forall₂_map_right_iff, List.forall₂_same]
  intro lexeme hlexeme
  unfold Lexeme.reveal
  split
  · rename_i htoken
    obtain ⟨value, hknows⟩ := (hlex.sound lexeme hlexeme).known htoken
    refine ⟨⟨rfl, fun _ => ?_, fun hother => absurd htoken hother⟩, rfl, rfl, rfl⟩
    rw [LiteralTable.Knows] at hknows
    simp [Lexeme.item, LiteralTable.Knows, hknows]
  · rename_i htoken
    exact ⟨⟨rfl, fun hplaceholder => absurd hplaceholder htoken, fun _ => rfl⟩, rfl, rfl, rfl⟩

/-- The passes never look at the text of a literal, so the stream is the plain stream with
placeholders in it. -/
theorem reveals_stream (source : List Char) :
    Forall₂ (Corresponds (Reveals (Document.lex source).table)) (Document.stream source)
      (plainStream source) :=
  applyAll_corresponds SameBut.keepsSpacing.shape_eq (reveals_lex source)

/-- The stream of a source, with the value behind it in place of every placeholder. -/
def Document.revealedStream (source : List Char) : List Lexeme :=
  (Document.stream source).map (Lexeme.reveal (Document.lex source).table)

theorem Lexeme.reveal_eq_of_corresponds {table : LiteralTable} {lexeme other : Lexeme}
    (hsame : Corresponds (Reveals table) lexeme other) : lexeme.reveal table = other := by
  obtain ⟨⟨htoken, hliteral, htext⟩, hpartner, henclosed, hdropped⟩ := hsame
  cases lexeme
  cases other
  simp only [Lexeme.item] at htoken hliteral htext hpartner henclosed hdropped
  subst htoken hpartner henclosed hdropped
  rw [Lexeme.reveal]
  split
  · rename_i hplaceholder
    rw [LiteralTable.Knows] at hliteral
    rw [hliteral hplaceholder, Option.getD_some]
  · rename_i hplaceholder
    rw [htext hplaceholder]

/-- Putting the literals back into the stream gives the stream of the source lexed without masking. -/
theorem revealedStream_eq (source : List Char) :
    Document.revealedStream source = plainStream source := by
  conv_rhs => rw [← List.map_id (plainStream source)]
  exact map_eq_of_forall₂ (reveals_stream source) fun _ _ => Lexeme.reveal_eq_of_corresponds

theorem Lexeme.IsHidden.of_item {table : LiteralTable} {lexeme other : Lexeme}
    (hhidden : lexeme.IsHidden table) (hitem : lexeme.item = other.item) : other.IsHidden table := by
  obtain ⟨htoken, htext⟩ := Prod.mk.inj hitem
  exact ⟨hitem ▸ hhidden.item, fun h => htext ▸ hhidden.unused (htoken.trans h)⟩

theorem isHidden_of_mem_lex {source : List Char} {lexeme : Lexeme}
    (hlexeme : lexeme ∈ (Document.lex source).lexemes) :
    lexeme.IsHidden (Document.lex source).table := by
  have hlex := lexesTo_document source
  have hsound := hlex.sound lexeme hlexeme
  refine ⟨?_, hsound.unused⟩
  by_cases htoken : lexeme.token = .placeholder
  · rw [Lexeme.item, htoken]
    exact .literal (hsound.known htoken)
  · have hmem := List.mem_map_of_mem (f := Lexeme.reveal (Document.lex source).table) hlexeme
    rw [hlex.revealed, Lexeme.reveal, if_neg htoken] at hmem
    obtain ⟨hitem, -⟩ := isStreamItem_of_mem_lexAtoms (fun _ => True)
      (fun _ _ => trivial) hmem
    rcases hitem.cases_token with ⟨-, hentry⟩ | ⟨hplaceholder, -⟩ | ⟨htext, code, hraw⟩
    · exact .entry hentry
    · exact absurd hplaceholder htoken
    · rw [Lexeme.item, htext]
      exact .raw hraw

/-- A lexeme of the stream is a placeholder of the table, or has no name of its salt in it. -/
theorem isHidden_of_mem_stream {source : List Char} {lexeme : Lexeme}
    (hlexeme : lexeme ∈ Document.stream source) :
    lexeme.IsHidden (Document.lex source).table := by
  have hsublist := map_item_applyAll_sublist (Document.lex source).lexemes
  obtain ⟨other, hother, hitem⟩ :=
    List.mem_map.mp (hsublist.subset (List.mem_map_of_mem hlexeme))
  exact (isHidden_of_mem_lex hother).of_item hitem

theorem isFresh_of_mem_lexAtoms {source : List Char} {lexeme : Lexeme}
    (hlexeme : lexeme ∈ lexAtoms [] (atoms source)) : lexeme.IsFresh :=
  (isStreamItem_of_mem_lexAtoms (fun _ => True) (fun _ _ => trivial) hlexeme).2

theorem dropped_of_mem_lexAtoms {source : List Char} :
    ∀ lexeme ∈ lexAtoms [] (atoms source), lexeme.dropped = false := by
  intro lexeme hlexeme
  rw [isFresh_of_mem_lexAtoms hlexeme]

/-- The passes leave no two lexemes next to each other that could not follow one another when they
were lexed. -/
theorem isChain_plainStream (source : List Char) :
    ((plainStream source).map Lexeme.item).IsChain MayFollow := by
  refine isChain_applyAll ?_ ?_ dropped_of_mem_lexAtoms
    (isChain_lexAtoms (lineCommentsEnd_atoms source) [])
  · rintro ⟨first, text⟩ ⟨second, text'⟩ hbrace
    constructor
    · rintro rfl rfl
      simp [Token.isBrace] at hbrace
    · rintro rfl _
      right
      simpa [Token.isBrace] using hbrace
  · exact fun text second => ⟨fun h => Token.noConfusion h, fun h => Token.noConfusion h⟩

theorem isHidden_of_mem_rows {source : List Char} {row : List Lexeme}
    (hrow : row ∈ rows (Document.stream source)) :
    (∀ lexeme ∈ row, lexeme.IsHidden (Document.lex source).table ∧ lexeme.token ≠ .newline) ∧
      (row.map Lexeme.token).IsChain MayTouch := by
  have htouch : ((Document.stream source).map Lexeme.token).IsChain MayTouch := by
    have htokens : (plainStream source).map Lexeme.token =
        ((plainStream source).map Lexeme.item).map Prod.fst := by
      rw [List.map_map]
      rfl
    rw [map_token_eq SameBut.keepsSpacing (reveals_stream source), htokens, List.isChain_map]
    exact (isChain_plainStream source).imp fun _ _ hfollows => hfollows.raw
  refine ⟨fun lexeme hlexeme => ?_, ?_⟩
  · obtain ⟨hmem, hnot⟩ := mem_rowsAfter hrow lexeme hlexeme
    exact ⟨isHidden_of_mem_stream hmem, hnot⟩
  · exact List.IsChain.infix htouch ((isInfix_of_mem_rowsAfter.1 row hrow).map Lexeme.token)

def layoutAtoms (source : List Char) : List Atom :=
  printAtoms (Document.stream source) 0 (rows (Document.stream source))

theorem layOut_eq_spell (source : List Char) :
    Document.layOut (Document.stream source) = spell (layoutAtoms source) := by
  rw [layoutAtoms, spell_printAtoms]
  exact layOut_eq_join_printRows fun lexeme hlexeme =>
    (isHidden_of_mem_stream hlexeme).isNeat (isNumbered_lex source)

/-- In the layout of a source the placeholders are found again, and only they. -/
theorem isPlaced_layoutAtoms (source : List Char) :
    IsPlaced (Document.lex source).table (layoutAtoms source) :=
  isPlaced_printAtoms (isNumbered_lex source) _ (fun _ => isHidden_of_mem_rows) 0

/-- The layout of a source shows the literals where its masked layout shows placeholders. -/
theorem matches_layoutAtoms (source : List Char) :
    Forall₂ (Atom.Matches (Document.lex source).table.Knows) (layoutAtoms source)
      (printAtoms (plainStream source) 0 (rows (plainStream source))) := by
  refine printAtoms_forall₂ SameBut.keepsSpacing forall₂_atoms (reveals_stream source) ?_ 0
  exact rows_forall₂ (fun first second hsame => SameBut.keepsSpacing.shape_eq first second hsame.item)
    (reveals_stream source)

/-- The formatted source is the printed rows of its stream, with the literals in them. -/
theorem tidy_eq_join_printRows (source : List Char) :
    Document.tidy source =
      Blank.trim (Line.join (printRows (plainStream source) 0 (rows (plainStream source)))) := by
  have htidy : Document.tidy source =
      (Document.lex source).table.reveal (Document.layOut (Document.stream source)) := rfl
  rw [htidy, LiteralTable.reveal, layOut_eq_spell,
    (isPlaced_layoutAtoms source).substitute_spell (isNumbered_lex source)
      (matches_layoutAtoms source), spell_printAtoms]

end ChuckLayout
