import ChuckLayout.Proofs.Layout.Alike
import ChuckLayout.Proofs.Layout.Neat

/-!
# The atoms of a layout

Printed rows are spelled by atoms, with a literal for each placeholder of the stream.  Atoms of a
source that agree in everything but the texts of their literals lead to streams, rows and printed
rows that agree in everything but these texts: nothing on the way looks into a literal.
-/

namespace ChuckLayout

open Blank (padding)
open List (Forall₂)
open Lexeme (Corresponds IsAlike)
open Spacing

def Lexeme.atoms (lexeme : Lexeme) : List Atom :=
  if lexeme.token = .placeholder then [.literal lexeme.text] else lexeme.core.map .char

namespace Spacing

def rowAtoms (stream : List Lexeme) (previous : Option Lexeme) : List Lexeme → List Atom
  | [] => []
  | [lexeme] => lexeme.atoms
  | first :: second :: rest =>
      first.atoms ++ (padding (isGapped stream previous first second rest.head?)).map .char ++
        rowAtoms stream (some first) (second :: rest)

def lineAtoms (stream : List Lexeme) (depth : Int) (row : List Lexeme) : List Atom :=
  (Nesting.indentation (rowDepth depth row)).map .char ++ rowAtoms stream none row

def printAtoms (stream : List Lexeme) (depth : Int) : List (List Lexeme) → List Atom
  | [] => []
  | [row] => lineAtoms stream depth row
  | row :: next :: rest =>
      lineAtoms stream depth row ++
        .char '\n' :: printAtoms stream (depthAfterRow depth row) (next :: rest)

end Spacing

/-- Rows that are printed the same one by one, with the same braces among them, are printed the same. -/
theorem printAtoms_congr {stream stream' : List Lexeme} {found found' : List (List Lexeme)}
    (hfound : List.Forall₂ (fun row row' => rowAtoms stream' none row' = rowAtoms stream none row ∧
      ∀ brace : Token, brace.isBrace → isBraceRow brace row' = isBraceRow brace row) found found')
    (depth : Int) : printAtoms stream' depth found' = printAtoms stream depth found := by
  induction hfound generalizing depth with
  | nil => rfl
  | @cons row row' rest rest' hrow hrest ih =>
      obtain ⟨hatoms, hbrace⟩ := hrow
      have hopen := hbrace .openBrace rfl
      have hclose := hbrace .closeBrace rfl
      have hline : lineAtoms stream' depth row' = lineAtoms stream depth row := by
        rw [lineAtoms, lineAtoms, rowDepth, rowDepth, hclose, hatoms]
      have hdepth : depthAfterRow depth row' = depthAfterRow depth row := by
        rw [depthAfterRow, depthAfterRow, hopen, hclose]
      cases hrest with
      | nil => rw [printAtoms, printAtoms, hline]
      | cons _ _ => rw [printAtoms, printAtoms, hline, hdepth, ih]

theorem spell_atoms (lexeme : Lexeme) : spell lexeme.atoms = lexeme.core := by
  rw [Lexeme.atoms]
  split
  · rename_i htoken
    rw [(Lexeme.core_of_placeholder htoken).2]
    exact List.append_nil _
  · exact spell_map_char _

/-- The atoms of a row spell its text. -/
theorem spell_rowAtoms (stream : List Lexeme) (previous : Option Lexeme) (row : List Lexeme) :
    spell (rowAtoms stream previous row) = rowText stream previous row := by
  induction row generalizing previous with
  | nil => rfl
  | cons first rest ih =>
      cases rest with
      | nil => exact spell_atoms first
      | cons second rest =>
          rw [rowAtoms, rowText, spell_append, spell_append, spell_atoms, spell_map_char,
            ih (some first)]

theorem spell_printAtoms (stream : List Lexeme) (depth : Int) (found : List (List Lexeme)) :
    spell (printAtoms stream depth found) = Line.join (printRows stream depth found) := by
  have hline : ∀ depth row, spell (lineAtoms stream depth row) =
      Nesting.indentation (rowDepth depth row) ++ rowText stream none row := by
    intro depth row
    rw [lineAtoms, spell_append, spell_map_char, spell_rowAtoms]
  induction found generalizing depth with
  | nil => rfl
  | cons row rest ih =>
      cases rest with
      | nil => rw [printAtoms, hline, printRows, printRows, Line.join_cons, List.flatMap_nil,
          List.append_nil]
      | cons next rest =>
          rw [printAtoms, spell_append, hline, printRows, Line.join_cons, printRows,
            List.flatMap_cons]
          have hlater := ih (depthAfterRow depth row)
          rw [printRows, Line.join_cons] at hlater
          rw [← List.singleton_append, spell_append, hlater]
          rfl

/-! ## Matching atoms -/

/-- The atoms are the same character, or related literals. -/
inductive Atom.Matches (related : List Char → List Char → Prop) : Atom → Atom → Prop where
  | char (char : Char) : Matches related (.char char) (.char char)
  | literal {first second : List Char} (hrelated : related first second) :
      Matches related (.literal first) (.literal second)

variable {related : List Char → List Char → Prop}

theorem forall₂_matches_chars (text : List Char) :
    Forall₂ (Atom.Matches related) (text.map .char) (text.map .char) := by
  induction text with
  | nil => exact .nil
  | cons char rest ih => exact .cons (.char char) ih

theorem eq_of_matches_chars {text : List Char} {others : List Atom}
    (hmatches : Forall₂ (Atom.Matches related) (text.map .char) others) :
    others = text.map .char := by
  induction text generalizing others with
  | nil => exact List.forall₂_nil_left_iff.mp hmatches
  | cons char rest ih =>
      obtain ⟨other, later, hatom, hlater, rfl⟩ := List.forall₂_cons_left_iff.mp hmatches
      cases hatom
      rw [ih hlater]
      rfl

/-- What matches atoms with a literal among them has a related literal in its place. -/
theorem exists_split_of_matches {front back others : List Atom} {name : List Char}
    (hmatches : Forall₂ (Atom.Matches related) (front ++ .literal name :: back) others) :
    ∃ front' value back', others = front' ++ .literal value :: back' ∧ related name value ∧
      Forall₂ (Atom.Matches related) front front' ∧ Forall₂ (Atom.Matches related) back back' := by
  induction front generalizing others with
  | nil =>
      obtain ⟨other, later, hatom, hlater, rfl⟩ := List.forall₂_cons_left_iff.mp hmatches
      cases hatom with
      | literal hrelated => exact ⟨[], _, later, rfl, hrelated, .nil, hlater⟩
  | cons atom front ih =>
      obtain ⟨other, later, hatom, hlater, rfl⟩ := List.forall₂_cons_left_iff.mp hmatches
      obtain ⟨front', value, back', rfl, hrelated, hfront, hback⟩ := ih hlater
      exact ⟨other :: front', value, back', rfl, hrelated, .cons hatom hfront, hback⟩

/-! ## Streams -/

theorem SameBut.refl_of_ne {item : Token × List Char} (htoken : item.1 ≠ .placeholder) :
    SameBut related item item :=
  ⟨rfl, fun h => absurd h htoken, fun _ => rfl⟩

theorem forall₂_corresponds_codeOf (code : List Char) :
    Forall₂ (Corresponds (SameBut related)) (codeOf code) (codeOf code) := by
  rw [List.forall₂_same]
  intro lexeme hlexeme
  exact ⟨.refl_of_ne (token_ne_placeholder_of_mem_codeOf hlexeme), rfl, rfl, rfl⟩

theorem corresponds_lineBreak : Corresponds (SameBut related) .lineBreak .lineBreak :=
  ⟨.refl_of_ne Token.noConfusion, rfl, rfl, rfl⟩

/-- Matching atoms are lexed to the same lexemes, but for their placeholders. -/
theorem lexAtoms_forall₂ {found others : List Atom} (hatoms : Forall₂ (Atom.Matches related) found others)
    (code : List Char) :
    Forall₂ (Corresponds (SameBut related)) (lexAtoms code found) (lexAtoms code others) := by
  induction hatoms generalizing code with
  | nil => exact List.rel_append (forall₂_corresponds_codeOf code) (.cons corresponds_lineBreak .nil)
  | cons hatom _ ih =>
      cases hatom with
      | char char =>
          rw [lexAtoms, lexAtoms]
          split
          · exact List.rel_append (forall₂_corresponds_codeOf code) (.cons corresponds_lineBreak (ih []))
          · exact ih _
      | literal hrelated =>
          refine List.rel_append (forall₂_corresponds_codeOf code) (.cons ?_ (ih []))
          exact ⟨⟨rfl, fun _ => hrelated, fun h => absurd rfl h⟩, rfl, rfl, rfl⟩

/-! ## Printed rows -/

theorem Lexeme.core_eq_of_item {first second : Lexeme} (hitem : first.item = second.item) :
    first.core = second.core := by
  obtain ⟨htoken, htext⟩ := Prod.mk.inj hitem
  rw [core, core, shown, shown, htoken, htext]

/-- Lexemes that are the same but for their placeholders show matching atoms. -/
theorem forall₂_atoms (first second : Lexeme) (hsame : SameBut related first.item second.item) :
    Forall₂ (Atom.Matches related) first.atoms second.atoms := by
  have htoken : first.token = second.token := hsame.token
  rw [Lexeme.atoms, Lexeme.atoms, ← htoken]
  split
  · rename_i hplaceholder
    exact .cons (.literal (hsame.literal hplaceholder)) .nil
  · rename_i hother
    have hitem : first.item = second.item := Prod.ext htoken (hsame.other hother)
    rw [Lexeme.core_eq_of_item hitem]
    exact forall₂_matches_chars _

section

variable {items : Token × List Char → Token × List Char → Prop} (hkeeps : KeepsSpacing items)
  (hshow : ∀ first second : Lexeme, items first.item second.item →
    Forall₂ (Atom.Matches related) first.atoms second.atoms)
  {stream stream' : List Lexeme} (hstreams : Forall₂ (Corresponds items) stream stream')

include hkeeps hshow hstreams

/-- Rows that are the same but for their placeholders have their spaces at the same places. -/
theorem rowAtoms_forall₂ {row row' : List Lexeme} (hrow : Forall₂ (Corresponds items) row row')
    {previous previous' : Option Lexeme} (hprevious : Option.Rel IsAlike previous previous') :
    Forall₂ (Atom.Matches related) (rowAtoms stream previous row)
      (rowAtoms stream' previous' row') := by
  induction hrow generalizing previous previous' with
  | nil => exact .nil
  | cons hfirst hrest ih =>
      cases hrest with
      | nil => exact hshow _ _ hfirst.item
      | cons hsecond hrest =>
          rw [rowAtoms, rowAtoms, isGapped_eq hkeeps hstreams hprevious hfirst hsecond
            (rel_head?_isAlike hkeeps hrest)]
          exact List.rel_append
            (List.rel_append (hshow _ _ hfirst.item) (forall₂_matches_chars _))
            (ih (.some (hkeeps _ _ hfirst.item).2))

/-- Corresponding rows are printed the same, but for their literals. -/
theorem printAtoms_forall₂ {found found' : List (List Lexeme)}
    (hfound : Forall₂ (Forall₂ (Corresponds items)) found found') (depth : Int) :
    Forall₂ (Atom.Matches related) (printAtoms stream depth found)
      (printAtoms stream' depth found') := by
  have hline : ∀ {row row' : List Lexeme}, Forall₂ (Corresponds items) row row' →
      ∀ depth, Forall₂ (Atom.Matches related) (lineAtoms stream depth row)
        (lineAtoms stream' depth row') := by
    intro row row' hrow depth
    rw [lineAtoms, lineAtoms, rowDepth_eq (map_token_eq hkeeps hrow)]
    exact List.rel_append (forall₂_matches_chars _)
      (rowAtoms_forall₂ hkeeps hshow hstreams hrow .none)
  induction hfound generalizing depth with
  | nil => exact .nil
  | cons hrow hlater ih =>
      cases hlater with
      | nil => exact hline hrow depth
      | cons hnext hlater =>
          rw [printAtoms, printAtoms, depthAfterRow_eq (map_token_eq hkeeps hrow)]
          exact List.rel_append (hline hrow depth) (.cons (.char '\n') (ih _))

end

/-! ## Trimmed rows -/

theorem isEmpty_eq_of_forall₂ {α β : Type} {relation : α → β → Prop} {front : List α}
    {back : List β} (hlists : Forall₂ relation front back) : front.isEmpty = back.isEmpty := by
  cases hlists <;> rfl

theorem dropWhile_isEmpty_forall₂ {α β : Type} {relation : α → β → Prop} {found : List (List α)}
    {found' : List (List β)} (hfound : Forall₂ (Forall₂ relation) found found') :
    Forall₂ (Forall₂ relation) (found.dropWhile List.isEmpty) (found'.dropWhile List.isEmpty) := by
  induction hfound with
  | nil => exact .nil
  | cons hrow hlater ih =>
      rw [List.dropWhile_cons, List.dropWhile_cons, isEmpty_eq_of_forall₂ hrow]
      split
      · exact ih
      · exact .cons hrow hlater

theorem trimRows_forall₂ {relation : Lexeme → Lexeme → Prop} {found found' : List (List Lexeme)}
    (hfound : Forall₂ (Forall₂ relation) found found') :
    Forall₂ (Forall₂ relation) (trimRows found) (trimRows found') := by
  have hfront := List.rel_reverse (dropWhile_isEmpty_forall₂ hfound)
  exact List.rel_reverse (dropWhile_isEmpty_forall₂ hfront)

end ChuckLayout
