import ChuckLayout.Proofs.Rereading.Formatted

/-!
# Literals that are read

Atoms that show lexemes hold the literals of the lexemes.  When they are read with the same literals,
no quote of raw text has found another to close it: the string would stand where the stream has a
comment, or nothing.
-/

namespace ChuckLayout

open Spacing

/-- The texts of the placeholders among items. -/
def placeholderTexts (items : List (Token × List Char)) : List (List Char) :=
  items.filterMap fun item => if item.1 = .placeholder then some item.2 else none

theorem placeholderTexts_cons_of_eq {item : Token × List Char} (htoken : item.1 = .placeholder)
    (rest : List (Token × List Char)) :
    placeholderTexts (item :: rest) = item.2 :: placeholderTexts rest :=
  List.filterMap_cons_some (if_pos htoken)

theorem placeholderTexts_cons_of_ne {item : Token × List Char} (htoken : item.1 ≠ .placeholder)
    (rest : List (Token × List Char)) :
    placeholderTexts (item :: rest) = placeholderTexts rest :=
  List.filterMap_cons_none (if_neg htoken)

theorem placeholderTexts_codeOf (code : List Char) :
    placeholderTexts ((codeOf code).map Lexeme.item) = [] := by
  rw [placeholderTexts, List.filterMap_eq_nil_iff]
  intro item hitem
  obtain ⟨lexeme, hlexeme, rfl⟩ := List.mem_map.mp hitem
  exact if_neg (token_ne_placeholder_of_mem_codeOf hlexeme)

theorem placeholderTexts_append (front back : List (Token × List Char)) :
    placeholderTexts (front ++ back) = placeholderTexts front ++ placeholderTexts back :=
  List.filterMap_append

theorem placeholderTexts_lexAtoms (code : List Char) (atoms : List Atom) :
    placeholderTexts ((lexAtoms code atoms).map Lexeme.item) = literalTexts atoms := by
  induction atoms generalizing code with
  | nil =>
      rw [lexAtoms, List.map_append, placeholderTexts_append, placeholderTexts_codeOf]
      rfl
  | cons atom rest ih =>
      cases atom with
      | char char =>
          rw [lexAtoms]
          split
          · rw [List.map_append, placeholderTexts_append, placeholderTexts_codeOf, List.nil_append,
              List.map_cons]
            exact ih []
          · exact ih _
      | literal text =>
          rw [lexAtoms, List.map_append, placeholderTexts_append, placeholderTexts_codeOf,
            List.nil_append, List.map_cons, placeholderTexts_cons_of_eq rfl, ih, literalTexts_cons]
          rfl

theorem placeholderTexts_filter (items : List (Token × List Char)) :
    placeholderTexts (items.filter fun item => item.1 != .newline) = placeholderTexts items := by
  induction items with
  | nil => rfl
  | cons item rest ih =>
      by_cases htoken : item.1 = .newline
      · have hother : item.1 ≠ .placeholder := by
          rw [htoken]
          exact Token.noConfusion
        rw [List.filter_cons_of_neg (by simp [htoken]), ih, placeholderTexts_cons_of_ne hother]
      · rw [List.filter_cons_of_pos (by simp [htoken])]
        by_cases hplaceholder : item.1 = .placeholder
        · rw [placeholderTexts_cons_of_eq hplaceholder, placeholderTexts_cons_of_eq hplaceholder, ih]
        · rw [placeholderTexts_cons_of_ne hplaceholder, placeholderTexts_cons_of_ne hplaceholder, ih]

/-! ## The literals of a layout -/

theorem literalTexts_chars (text : List Char) : literalTexts (text.map .char) = [] := by
  rw [← List.append_nil (text.map Atom.char), literalTexts_map_char_append]
  rfl

theorem literalTexts_atoms (lexeme : Lexeme) :
    literalTexts lexeme.atoms = placeholderTexts [lexeme.item] := by
  rw [Lexeme.atoms]
  split
  · rename_i htoken
    have hitem : lexeme.item.1 = .placeholder := htoken
    rw [placeholderTexts_cons_of_eq hitem]
    rfl
  · rename_i htoken
    have hitem : lexeme.item.1 ≠ .placeholder := htoken
    rw [placeholderTexts_cons_of_ne hitem, literalTexts_chars]
    rfl

theorem literalTexts_rowAtoms (stream : List Lexeme) (previous : Option Lexeme) (row : List Lexeme) :
    literalTexts (rowAtoms stream previous row) = placeholderTexts (row.map Lexeme.item) := by
  induction row generalizing previous with
  | nil => rfl
  | cons first rest ih =>
      cases rest with
      | nil => exact literalTexts_atoms first
      | cons second rest =>
          rw [rowAtoms, literalTexts_append, literalTexts_append, literalTexts_atoms,
            literalTexts_chars, List.append_nil, ih, List.map_cons, ← placeholderTexts_append]
          rfl

/-- The literals of printed rows are the placeholders among their lexemes. -/
theorem literalTexts_printAtoms (stream : List Lexeme) (depth : Int) (found : List (List Lexeme)) :
    literalTexts (printAtoms stream depth found) =
      placeholderTexts (found.flatten.map Lexeme.item) := by
  have hline : ∀ depth row, literalTexts (lineAtoms stream depth row) =
      placeholderTexts (row.map Lexeme.item) := by
    intro depth row
    rw [lineAtoms, literalTexts_map_char_append, literalTexts_rowAtoms]
  induction found generalizing depth with
  | nil => rfl
  | cons row rest ih =>
      cases rest with
      | nil => rw [printAtoms, hline, List.flatten_cons, List.flatten_nil, List.append_nil]
      | cons next rest =>
          rw [printAtoms, literalTexts_append, hline, List.flatten_cons, List.map_append,
            placeholderTexts_append, ← ih]
          rfl

/-- All literals of a source are laid out, in order. -/
theorem literalTexts_shownRows (source : List Char) :
    literalTexts (printAtoms (plainStream source) 0 (shownRows source)) =
      literalTexts (atoms source) := by
  rw [literalTexts_printAtoms, map_item_flatten_shownRows, shownItems, placeholderTexts_filter,
    placeholderTexts_lexAtoms]

/-! ## Quotes that are closed -/

theorem atoms_code_append {front back : List Char} (hopens : opensNothing .all back.head? front) :
    atoms (front ++ back) = front.map .char ++ atoms back := by
  rw [atoms, (reads_code_append hopens (reads_segments .all back)).segments_eq, List.map_append,
    List.map_map, atoms]
  rfl

theorem atoms_literal_append {kind : Literal.Kind} {text back : List Char}
    (hliteral : IsLiteral kind text) (hscope : ¬Scope.all.Ignores kind)
    (hend : IsLineComment text → back.head?.all (· = '\n')) :
    atoms (text ++ back) = .literal text :: atoms back := by
  rw [atoms, (reads_literal_append hliteral hscope hend (reads_segments .all back)).segments_eq,
    List.map_cons, hliteral.atom_eq, atoms]

/-- A quote that is closed opens a string. -/
theorem exists_atoms_of_closesString {text : List Char} (hcloses : closesString false text) :
    ∃ inside later, atoms ('\"' :: text) = .literal ('\"' :: inside) :: later := by
  obtain ⟨inside, hinside⟩ := Option.isSome_iff_exists.mp hcloses
  obtain ⟨later, rfl⟩ := Segment.isPrefix_of_throughQuote? hinside
  have hopening : Scope.all.opening? '\"' (inside ++ later).head? = some .string :=
    Scope.opening?_eq_string_iff.mpr ⟨rfl, rfl⟩
  have hliteral : Segment.literalAt? ('\"' :: inside ++ later) .string = some ('\"' :: inside) := by
    rw [Segment.literalAt?, List.cons_append, List.drop_succ_cons, List.drop_zero, hinside]
    rfl
  have hreads : Reads .all ('\"' :: inside ++ later) _ :=
    .literal hopening hliteral (reads_segments .all later)
  refine ⟨inside, (segments .all later).map Segment.atom, ?_⟩
  rw [← List.cons_append, atoms, hreads.segments_eq]
  rfl

/-- Where strings are not looked for, no literal is one. -/
theorem InScope.head?_ne_quote {scope : Scope} {items : List (Token × List Char)}
    (hitems : InScope scope items) (hscope : scope ≠ .all) {item : Token × List Char}
    (hitem : item ∈ items) (htoken : item.1 = .placeholder) : item.2.head? ≠ some '\"' := by
  induction items generalizing scope with
  | nil => exact absurd hitem List.not_mem_nil
  | cons first rest ih =>
      obtain ⟨hliteral, hrest⟩ := hitems
      rcases List.mem_cons.mp hitem with rfl | hmem
      · obtain ⟨kind, hkind, hliteral⟩ := hliteral htoken
        obtain ⟨char, next, tail, htext, hopening⟩ := hliteral.opens
        rw [htext]
        rintro ⟨rfl⟩
        have hstring : Scope.all.opening? '\"' (some next) = some .string :=
          Scope.opening?_eq_string_iff.mpr ⟨rfl, rfl⟩
        obtain rfl := Option.some.inj (hopening.symm.trans hstring)
        exact hkind hscope
      · refine ih hrest ?_ hmem
        rw [Scope.afterItem]
        split
        · exact Scope.noConfusion
        split
        · rw [Scope.without, if_neg hscope]
          exact hscope
        · exact hscope

/-- A quote of raw text is not closed when what is read are the literals of items among which no
string is looked for. -/
theorem closesString_eq_false_of_literalTexts {front back : List Char}
    {items : List (Token × List Char)} (hslash : '/' ∉ front) (hquote : '\"' ∉ front)
    (hscope : InScope (Scope.all.without .string) items)
    (hsame : literalTexts (atoms (front ++ '\"' :: back)) = placeholderTexts items) :
    closesString false back = false := by
  rw [Bool.eq_false_iff]
  intro hcloses
  obtain ⟨inside, later, hatoms⟩ := exists_atoms_of_closesString hcloses
  have hopens : opensNothing .all ('\"' :: back).head? front :=
    opensNothing_of_ne hslash (fun h => absurd h hquote) _
  rw [atoms_code_append hopens, hatoms, literalTexts_map_char_append, literalTexts_cons] at hsame
  have hmem : '\"' :: inside ∈ placeholderTexts items := by
    rw [← hsame]
    exact List.mem_cons_self
  obtain ⟨item, hitem, heq⟩ := List.mem_filterMap.mp hmem
  split at heq
  · rename_i hplaceholder
    apply hscope.head?_ne_quote Scope.noConfusion hitem hplaceholder
    rw [Option.some.inj heq]
    rfl
  · exact absurd heq.symm (Option.some_ne_none _)

/-- When what has been laid out is read with the literals of the lexemes, every quote that the raw
text leaves open stays open. -/
theorem quoteStaysOpen_of_literalTexts {lexemes : List Lexeme} {laid : List Atom}
    (hlaid : Laid lexemes laid) (hshown : ∀ lexeme ∈ lexemes, lexeme.IsShown)
    (hscope : InScope .all (lexemes.map Lexeme.item))
    (hsame : literalTexts (atoms (spell laid)) = placeholderTexts (lexemes.map Lexeme.item)) :
    QuoteStaysOpen (lexemes.map Lexeme.item) := by
  induction hlaid with
  | done => trivial
  | @blank lexemes laid char hblank hrest ih =>
      have hopens : opensNothing .all (spell laid).head? [char] := by
        refine opensNothing_of_ne ?_ ?_ _ <;> intro hmem <;>
          rw [← List.mem_singleton.mp hmem] at hblank <;> exact absurd hblank (by decide)
      have hatoms := atoms_code_append hopens
      refine ih hshown hscope ?_
      rw [← hsame]
      exact (congrArg literalTexts hatoms).symm
  | @literal lexeme lexemes laid htoken hmeets hend hrest ih =>
      obtain ⟨-, hlater⟩ := List.forall_mem_cons.mp hshown
      obtain ⟨hliteral, hscope⟩ := hscope
      obtain ⟨kind, hkind, hliteral⟩ := hliteral htoken
      have hitem : lexeme.item.1 = .placeholder := htoken
      have hafter : Scope.all.afterItem lexeme.item = .all := by
        apply Scope.afterItem_of_other <;> simp [hitem]
      have hatoms : atoms (spell (.literal lexeme.text :: laid)) = _ :=
        atoms_literal_append hliteral hkind hend
      rw [hafter] at hscope
      rw [hatoms, literalTexts_cons, List.map_cons, placeholderTexts_cons_of_eq hitem] at hsame
      rw [List.map_cons, quoteStaysOpen_cons_of_other (by simp [hitem]) (by simp [hitem])]
      exact ih hlater hscope (List.tail_eq_of_cons_eq hsame)
  | @code lexeme lexemes laid htoken hmeets hrest ih =>
      obtain ⟨hfirst, hlater⟩ := List.forall_mem_cons.mp hshown
      have hitem : lexeme.item.1 ≠ .placeholder := htoken
      rw [spell_append, spell_map_char, List.map_cons, placeholderTexts_cons_of_ne hitem] at hsame
      rw [List.map_cons, QuoteStaysOpen]
      split
      · trivial
      rename_i hopen
      obtain ⟨-, hscope⟩ := hscope
      rw [Scope.afterItem, if_neg hopen] at hscope
      split
      · rename_i hquote
        rw [if_pos hquote] at hscope
        obtain ⟨front, back, hcore, hfront, hback⟩ := exists_core_of_quote hquote.1 hquote.2
        have hslash := hfirst.slash_not_mem_core hquote.1
        rw [hcore, List.mem_append, not_or] at hslash
        have hsuffix : back <:+ lexeme.core := hcore ▸ ⟨front ++ ['\"'], by simp⟩
        have hcloses := (hmeets.of_suffix hsuffix).closesString_append
        rw [hcore, List.append_assoc, List.cons_append] at hsame
        have hopen := closesString_eq_false_of_literalTexts hslash.1 hfront hscope hsame
        rw [hback, hopen, eq_comm, Bool.or_eq_false_iff] at hcloses
        exact ⟨hcloses.1, (hrest.closesString_eq_false_iff hlater).mp hcloses.2⟩
      · rename_i hquote
        rw [if_neg hquote] at hscope
        have hopens : opensNothing .all none lexeme.core :=
          hfirst.opensNothing_core htoken hopen fun _ => hquote
        rw [atoms_code_append (opensNothing_of_meets hmeets hopens),
          literalTexts_map_char_append] at hsame
        exact ih hlater hscope hsame

/-- The formatted source has the literals of the source just when no quote that the source leaves in
its code is closed. -/
theorem literalTexts_tidy_iff (source : List Char) :
    literalTexts (atoms (Document.tidy source)) = literalTexts (atoms source) ↔
      QuoteStaysOpen (shownItems source) := by
  constructor
  · intro hsame
    rw [← map_item_flatten_shownRows]
    refine quoteStaysOpen_of_literalTexts (laid_shownRows source) isShown_of_mem_shownRows ?_ ?_
    · rw [map_item_flatten_shownRows]
      exact inScope_shownItems source
    · rw [← tidy_eq_spell, hsame, ← literalTexts_shownRows, literalTexts_printAtoms]
  · intro hquotes
    rw [atoms_tidy hquotes, literalTexts_shownRows]

end ChuckLayout
