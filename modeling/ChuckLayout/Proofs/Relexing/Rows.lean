import ChuckLayout.Proofs.Relexing.Neighbours
import ChuckLayout.Proofs.Rereading.Printed

/-!
# Rows are read back

The atoms of printed rows are lexed as the lexemes of the rows, settled, with a line break after each
row, unless raw text merges with its neighbour.
-/

namespace ChuckLayout

open Blank (IsTight padding)
open Spacing
open Word (isWordChar)

/-- The code at the front of atoms, up to a literal or a line break. -/
def ahead : List Atom → List Char
  | [] => []
  | .char char :: rest => if char = '\n' then [] else char :: ahead rest
  | .literal _ :: _ => []

/-- The lexemes after the code at the front of atoms. -/
def beyond : List Atom → List Lexeme
  | [] => [.lineBreak]
  | .char char :: rest => if char = '\n' then .lineBreak :: lexAtoms [] rest else beyond rest
  | .literal text :: rest => { token := .placeholder, text } :: lexAtoms [] rest

/-- Pending code grows by the code ahead, and is lexed together with it. -/
theorem lexAtoms_eq (code : List Char) (atoms : List Atom) :
    lexAtoms code atoms = codeOf (code ++ ahead atoms) ++ beyond atoms := by
  induction atoms generalizing code with
  | nil => rw [lexAtoms, ahead, beyond, List.append_nil]
  | cons atom rest ih =>
      cases atom with
      | char char =>
          rw [lexAtoms, ahead, beyond]
          split
          · rw [List.append_nil]
          · rw [ih, List.append_assoc, List.singleton_append]
      | literal text => rw [lexAtoms, ahead, beyond, List.append_nil]

theorem ahead_append {text : List Char} (htext : '\n' ∉ text) (rest : List Atom) :
    ahead (text.map .char ++ rest) = text ++ ahead rest ∧
      beyond (text.map .char ++ rest) = beyond rest := by
  induction text with
  | nil => exact ⟨rfl, rfl⟩
  | cons char text ih =>
      rw [List.mem_cons, not_or] at htext
      rw [List.map_cons, List.cons_append, ahead, beyond, if_neg (Ne.symm htext.1),
        if_neg (Ne.symm htext.1), (ih htext.2).1, (ih htext.2).2]
      exact ⟨rfl, rfl⟩

theorem lexAtoms_append {text : List Char} (htext : '\n' ∉ text) (rest : List Atom) :
    lexAtoms [] (text.map .char ++ rest) = codeOf (text ++ ahead rest) ++ beyond rest := by
  rw [lexAtoms_eq, (ahead_append htext rest).1, (ahead_append htext rest).2, List.nil_append]

theorem lexAtoms_spaces (count : Nat) (rest : List Atom) :
    lexAtoms [] ((List.replicate count ' ').map .char ++ rest) = lexAtoms [] rest := by
  induction count with
  | zero => rfl
  | succ count ih =>
      rw [List.replicate_succ, List.map_cons, List.cons_append, lexAtoms, if_neg (by decide),
        List.nil_append, lexAtoms_gap_cons (by decide), ih]

/-! ## One lexeme -/

namespace Lexeme

variable {lexeme : Lexeme}

theorem IsShown.lineFeed_not_mem_core (hshown : lexeme.IsShown)
    (hplaceholder : lexeme.token ≠ .placeholder) : '\n' ∉ lexeme.core := by
  rcases hshown.cases with hentry | htoken | htext
  · rw [(core_of_isTableEntry hentry).2]
    exact (Token.spelling_of_isTableEntry hentry hshown.2).2.1
  · exact absurd htoken hplaceholder
  · obtain ⟨hholds, -, -⟩ := hshown.core_of_text htext
    exact fun hfeed => absurd (hholds.marks _ hfeed) (by decide)

theorem settled_of_text (htext : lexeme.token = .text) (gapped : Bool) :
    lexeme.settled gapped = { token := .text, text := lexeme.core } := by
  simp [settled, htext, Token.settled, Token.isSign, padding]

theorem settled_of_placeholder (htoken : lexeme.token = .placeholder) (gapped : Bool) :
    lexeme.settled gapped = { token := .placeholder, text := lexeme.text } := by
  simp [settled, htoken, Token.settled, Token.isSign, padding, (core_of_placeholder htoken).2]

/-- A lexeme with a space after it is read back, whatever comes next. -/
theorem IsShown.codeOf_core_space (hshown : lexeme.IsShown)
    (hplaceholder : lexeme.token ≠ .placeholder) {back : List Char}
    (halone : lexeme.token = .text → StartsAlone back) :
    codeOf (lexeme.core ++ ' ' :: back) = lexeme.settled true :: codeOf back := by
  rcases hshown.cases with hentry | htoken | htext
  · exact codeOf_entry_space hentry back
  · exact absurd htoken hplaceholder
  · obtain ⟨hholds, htight, -⟩ := hshown.core_of_text htext
    rw [codeOf_text_space htight hholds (halone htext), settled_of_text htext]

/-- A lexeme with nothing after it is read back. -/
theorem IsShown.codeOf_core (hshown : lexeme.IsShown)
    (hplaceholder : lexeme.token ≠ .placeholder) :
    codeOf lexeme.core = [lexeme.settled false] := by
  have hcode : codeOf (lexeme.core ++ []) = lexeme.settled false :: codeOf [] := by
    rcases hshown.cases with hentry | htoken | htext
    · exact codeOf_entry_append hentry (fun _ => rfl) fun char hchar =>
        absurd hchar.symm (Option.some_ne_none _)
    · exact absurd htoken hplaceholder
    · obtain ⟨hholds, htight, -⟩ := hshown.core_of_text htext
      rw [codeOf_text_append htight hholds startsAlone_nil fun _ char _ hchar =>
        absurd hchar.symm (Option.some_ne_none _), settled_of_text htext]
  rwa [List.append_nil, codeOf_nil] at hcode

theorem atoms_of_code (hplaceholder : lexeme.token ≠ .placeholder) :
    lexeme.atoms = lexeme.core.map .char := by
  rw [Lexeme.atoms, if_neg hplaceholder]

end Lexeme

/-- A lexeme and the space after it are read back before whatever code comes next. -/
theorem lexAtoms_cons {lexeme : Lexeme} (hshown : lexeme.IsShown) (gapped : Bool) (rest : List Atom)
    (hcode : lexeme.token ≠ .placeholder → codeOf (lexeme.core ++ (padding gapped ++ ahead rest)) =
      lexeme.settled gapped :: codeOf (ahead rest)) :
    lexAtoms [] (lexeme.atoms ++ ((padding gapped).map .char ++ rest)) =
      lexeme.settled gapped :: lexAtoms [] rest := by
  have hspace : '\n' ∉ padding gapped := by cases gapped <;> decide
  by_cases htoken : lexeme.token = .placeholder
  · have hpadding : lexAtoms [] ((padding gapped).map .char ++ rest) = lexAtoms [] rest := by
      cases gapped with
      | false => rfl
      | true => exact lexAtoms_spaces 1 rest
    rw [Lexeme.atoms, if_pos htoken, List.singleton_append, lexAtoms, hpadding, codeOf_nil,
      Lexeme.settled_of_placeholder htoken]
    rfl
  · rw [Lexeme.atoms_of_code htoken, lexAtoms_append (hshown.lineFeed_not_mem_core htoken),
      (ahead_append hspace rest).1, (ahead_append hspace rest).2, hcode htoken, lexAtoms_eq [] rest]
    rfl

/-! ## Rows -/

def spaceAfter (stream : List Lexeme) (previous : Option Lexeme) (lexeme : Lexeme) :
    List Lexeme → Bool
  | [] => false
  | second :: rest => isGapped stream previous lexeme second rest.head?

/-- What a row is read back as when it follows `previous` in its line. -/
def relexed (stream : List Lexeme) (previous : Option Lexeme) : List Lexeme → List Lexeme
  | [] => []
  | lexeme :: rest =>
      lexeme.settled (spaceAfter stream previous lexeme rest) :: relexed stream (some lexeme) rest

theorem rowAtoms_cons (stream : List Lexeme) (previous : Option Lexeme) (lexeme : Lexeme)
    (rest : List Lexeme) : rowAtoms stream previous (lexeme :: rest) =
      lexeme.atoms ++ ((padding (spaceAfter stream previous lexeme rest)).map .char ++
        rowAtoms stream (some lexeme) rest) := by
  cases rest with
  | nil => exact (List.append_nil _).symm
  | cons second rest => rw [rowAtoms, List.append_assoc, spaceAfter]

/-- No raw text merges with the lexeme after it. -/
def NothingMerges (lexemes : List Lexeme) : Prop :=
  lexemes.IsChain fun first second => ¬Merges first second

instance (lexemes : List Lexeme) : Decidable (NothingMerges lexemes) :=
  inferInstanceAs (Decidable (lexemes.IsChain fun first second => ¬Merges first second))

section

variable {stream : List Lexeme} {first : Lexeme} {rest : List Lexeme} {tail : List Atom}
  (hrow : IsRow (first :: rest)) (htail : ahead tail = [])

theorem IsRow.of_cons (hrow : IsRow (first :: rest)) : IsRow rest := by
  cases rest with
  | nil => exact ⟨by simp, by simp, .nil, Or.inr (by simp)⟩
  | cons second rest => exact hrow.tail

/-- What follows a keyword in its row does not go on with a word. -/
theorem head?_ahead_of_isKeyword (hkeyword : first.token.isKeyword) (htail : ahead tail = [])
    (previous : Option Lexeme) :
    (ahead ((padding (spaceAfter stream previous first rest)).map .char ++
      (rowAtoms stream (some first) rest ++ tail))).head?.all fun char => !isWordChar char := by
  cases rest with
  | nil =>
      rw [spaceAfter, padding, if_neg Bool.false_ne_true, List.map_nil, List.nil_append, rowAtoms,
        List.nil_append, htail]
      rfl
  | cons second rest =>
      rw [spaceAfter, isGapped, Token.padsAfter_of_isKeyword hkeyword]
      rfl

include hrow htail in
/-- What follows raw text in its row is no part of it. -/
theorem startsAlone_rowAtoms (htext : first.token ≠ .text) (previous : Option Lexeme) :
    StartsAlone (ahead (rowAtoms stream previous (first :: rest) ++ tail)) := by
  have hshown := hrow.shown first List.mem_cons_self
  rw [rowAtoms_cons, List.append_assoc, List.append_assoc]
  rcases hshown.cases with hentry | htoken | hisText
  · have hplaceholder := (Token.ne_of_isTableEntry hentry).2
    rw [Lexeme.atoms_of_code hplaceholder, (ahead_append (hshown.lineFeed_not_mem_core hplaceholder) _).1]
    exact Lexeme.startsAlone_core_append hentry fun hkeyword =>
      head?_ahead_of_isKeyword hkeyword htail previous
  · rw [Lexeme.atoms, if_pos htoken]
    exact startsAlone_nil
  · exact absurd hisText htext

include hrow htail in
/-- The first lexeme of a row is read back, unless it merges with the second. -/
theorem lexAtoms_rowAtoms_cons (hmerges : ∀ second, rest.head? = some second → ¬Merges first second)
    (previous : Option Lexeme) :
    lexAtoms [] (rowAtoms stream previous (first :: rest) ++ tail) =
      first.settled (spaceAfter stream previous first rest) ::
        lexAtoms [] (rowAtoms stream (some first) rest ++ tail) := by
  have hshown := hrow.shown first List.mem_cons_self
  rw [rowAtoms_cons, List.append_assoc, List.append_assoc]
  refine lexAtoms_cons hshown _ _ fun hplaceholder => ?_
  cases rest with
  | nil =>
      rw [rowAtoms, List.nil_append, htail, spaceAfter, padding, if_neg Bool.false_ne_true,
        List.append_nil, List.append_nil, codeOf_nil]
      exact hshown.codeOf_core hplaceholder
  | cons second rest =>
      have hsecond := hrow.shown second (by simp)
      have hfollows : first.token = .text → second.token ≠ .text :=
        (List.isChain_cons_cons.mp hrow.follows).1.raw
      have halone : first.token = .text →
          StartsAlone (ahead (rowAtoms stream (some first) (second :: rest) ++ tail)) :=
        fun htext => startsAlone_rowAtoms hrow.tail htail (hfollows htext) (some first)
      rw [spaceAfter]
      cases hgap : isGapped stream previous first second rest.head? with
      | true => exact hshown.codeOf_core_space hplaceholder halone
      | false =>
          have hsecondPlaceholder := token_ne_placeholder_of_not_isGapped hgap
          rw [rowAtoms_cons, List.append_assoc, Lexeme.atoms_of_code hsecondPlaceholder,
            (ahead_append (hsecond.lineFeed_not_mem_core hsecondPlaceholder) _).1] at halone ⊢
          exact codeOf_append_of_not_isGapped hshown hsecond hgap hplaceholder hfollows
            (hmerges second rfl) (hrow.tight second (by simp)).ne_nil halone

end

/-- A row in which nothing merges is read back lexeme by lexeme. -/
theorem lexAtoms_rowAtoms_append {stream row : List Lexeme} (hrow : IsRow row)
    (hmerges : NothingMerges row) {tail : List Atom} (htail : ahead tail = [])
    (previous : Option Lexeme) :
    lexAtoms [] (rowAtoms stream previous row ++ tail) =
      relexed stream previous row ++ lexAtoms [] tail := by
  induction row generalizing previous with
  | nil => rfl
  | cons first rest ih =>
      obtain ⟨hpair, hrest⟩ := List.isChain_cons.mp hmerges
      rw [lexAtoms_rowAtoms_cons hrow htail hpair, ih hrow.of_cons hrest, relexed, List.cons_append]

end ChuckLayout
