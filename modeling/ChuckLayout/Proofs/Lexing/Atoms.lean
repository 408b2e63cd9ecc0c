import ChuckLayout.Proofs.Lexing.Code
import ChuckLayout.Proofs.Masking.Mark

/-!
# Lexing a text without masking it

A text that has been read is a list of atoms: characters of code, and literals.  Its lexemes are
found by lexing the code between the literals and line breaks, with no placeholder in sight.  Turning
literals into holes changes the atoms only by spaces that no lexeme depends on.
-/

namespace ChuckLayout

open Word (IsWord isWordChar separator)

inductive Atom where
  | char (char : Char)
  | literal (text : List Char)
  deriving DecidableEq, Repr

def Atom.text : Atom → List Char
  | .char single => [single]
  | .literal text => text

def spell (atoms : List Atom) : List Char :=
  atoms.flatMap Atom.text

theorem spell_append (front back : List Atom) : spell (front ++ back) = spell front ++ spell back :=
  List.flatMap_append

theorem spell_map_char (text : List Char) : spell (text.map .char) = text := by
  rw [spell, List.flatMap_map]
  exact List.flatMap_pure_eq_map _ _ |>.trans (List.map_id _)

def literalTexts (atoms : List Atom) : List (List Char) :=
  atoms.filterMap fun
    | .char _ => none
    | .literal text => some text

theorem literalTexts_cons (text : List Char) (atoms : List Atom) :
    literalTexts (.literal text :: atoms) = text :: literalTexts atoms := rfl

theorem literalTexts_append (front back : List Atom) :
    literalTexts (front ++ back) = literalTexts front ++ literalTexts back :=
  List.filterMap_append

theorem literalTexts_map_char_append (text : List Char) (atoms : List Atom) :
    literalTexts (text.map .char ++ atoms) = literalTexts atoms := by
  induction text with
  | nil => rfl
  | cons char rest ih => exact ih

def Segment.atom : Segment → Atom
  | .code char | .unclosed _ char => .char char
  | .literal .lineComment text => .literal (Blank.trimEnd text)
  | .literal _ text => .literal text

/-- The atoms of a source; a line comment without the blanks at its end. -/
def atoms (source : List Char) : List Atom :=
  (segments .all source).map Segment.atom

/-- The lexemes of atoms, where `code` is the code pending before them.  A literal is a placeholder
lexeme with its own text. -/
def lexAtoms (code : List Char) : List Atom → List Lexeme
  | [] => codeOf code ++ [.lineBreak]
  | .char char :: rest =>
      if char = '\n' then codeOf code ++ .lineBreak :: lexAtoms [] rest
      else lexAtoms (code ++ [char]) rest
  | .literal text :: rest =>
      codeOf code ++ { token := .placeholder, text } :: lexAtoms [] rest

def pendingCode (code : List Char) : List Atom → List Char
  | [] => code
  | .char char :: rest =>
      if char = '\n' then pendingCode [] rest else pendingCode (code ++ [char]) rest
  | .literal _ :: rest => pendingCode [] rest

/-- The lexemes of atoms without those of the code pending after them. -/
def lexedCode (code : List Char) : List Atom → List Lexeme
  | [] => []
  | .char char :: rest =>
      if char = '\n' then codeOf code ++ .lineBreak :: lexedCode [] rest
      else lexedCode (code ++ [char]) rest
  | .literal text :: rest =>
      codeOf code ++ { token := .placeholder, text } :: lexedCode [] rest

/-- Lexing goes on with the pending code. -/
theorem lexAtoms_append_atoms (code : List Char) (front back : List Atom) :
    lexAtoms code (front ++ back) = lexedCode code front ++ lexAtoms (pendingCode code front) back := by
  induction front generalizing code with
  | nil => rfl
  | cons atom rest ih =>
      cases atom with
      | char char =>
          rw [List.cons_append, lexAtoms, lexedCode, pendingCode]
          split
          · rw [ih, List.append_assoc, List.cons_append]
          · exact ih _
      | literal text =>
          rw [List.cons_append, lexAtoms, lexedCode, pendingCode, ih, List.append_assoc,
            List.cons_append]

theorem lexAtoms_gap_cons {char : Char} (hgap : Piece.isGap char) (code : List Char)
    (atoms : List Atom) : lexAtoms (char :: code) atoms = lexAtoms code atoms := by
  have hcode : ∀ code, codeOf (char :: code) = codeOf code := codeOf_gap_cons hgap
  induction atoms generalizing code with
  | nil => rw [lexAtoms, lexAtoms, hcode]
  | cons atom rest ih =>
      cases atom with
      | char other =>
          rw [lexAtoms, lexAtoms, hcode, List.cons_append, ih]
      | literal text => rw [lexAtoms, lexAtoms, hcode]

namespace Mark

variable {kind : Literal.Kind} {marks : List Mark} {before : Option Char}

def atom : Mark → Atom
  | code char | unclosed _ char => .char char
  | literal .lineComment text => .literal (Blank.trimEnd text)
  | literal _ text => .literal text
  | hole _ value => .literal value

theorem atom_ofSegment (segment : Segment) : (ofSegment segment).atom = segment.atom := by
  cases segment with
  | code char => rfl
  | unclosed kind char => rfl
  | literal kind text => cases kind <;> rfl

/-- The space that sets off a hole is lexed as nothing. -/
theorem lexAtoms_separator_cons (char : Option Char) (rest : List Mark) :
    lexAtoms [] ((codes (separator char) ++ rest).map atom) = lexAtoms [] (rest.map atom) := by
  rcases separator_cases char with ⟨hlead, -⟩ | ⟨hlead, -⟩
  · rw [hlead]
    rfl
  · rw [hlead, codes, List.map_cons, List.map_nil, List.cons_append, List.map_cons, atom, lexAtoms,
      if_neg (by decide)]
    exact lexAtoms_gap_cons (by decide) [] _

/-- `before` ends the code pending before some marks, unless it calls for no separator. -/
def Precedes (before : Option Char) (code : List Char) : Prop :=
  separator before = [] ∨ code = [] ∨ code.getLast? = before

/-- The separator after a word is a blank at the end of code, and lexed as nothing. -/
theorem codeOf_append_separator {code : List Char} (hbefore : Precedes before code) :
    codeOf (code ++ separator before) = codeOf code := by
  rcases separator_cases before with ⟨hlead, -⟩ | ⟨hlead, hword⟩
  · rw [hlead, List.append_nil]
  · rw [hlead]
    rcases hbefore with hnil | rfl | rfl
    · simp [hlead] at hnil
    · exact codeOf_gap_cons (by decide) []
    · exact codeOf_concat_space hword

theorem lexAtoms_codes_separator {code : List Char} (hbefore : Precedes before code)
    (text : List Char) (rest : List Atom) :
    lexAtoms code ((codes (separator before)).map atom ++ .literal text :: rest) =
      lexAtoms code (.literal text :: rest) := by
  have hcode := codeOf_append_separator hbefore
  rcases separator_cases before with ⟨hlead, -⟩ | ⟨hlead, hword⟩
  · rw [hlead]
    rfl
  · rw [hlead] at hcode ⊢
    rw [codes, List.map_cons, List.map_nil, List.map_cons, List.map_nil, List.singleton_append, atom,
      lexAtoms, if_neg (by decide), lexAtoms, lexAtoms, hcode]

/-- Hiding literals changes how the text is spelled, and not what it is lexed as. -/
theorem lexAtoms_hide (hkind : kind ≠ .lineComment) {code : List Char}
    (hbefore : Precedes before code) (offset : Nat) (table : LiteralTable) :
    lexAtoms code ((hide kind before offset table marks).1.map atom) =
      lexAtoms code (marks.map atom) := by
  induction marks generalizing before code offset table with
  | nil => rfl
  | cons mark rest ih =>
      have hchar : ∀ char offset, lexAtoms code
          (.char char :: (hide kind (some char) offset table rest).1.map atom) =
            lexAtoms code (.char char :: rest.map atom) := by
        intro char offset
        rw [lexAtoms, lexAtoms]
        split
        · rw [ih (Or.inr (Or.inl rfl))]
        · rw [ih (Or.inr (Or.inr (by simp)))]
      cases mark with
      | code char => exact hchar char _
      | unclosed other char =>
          rw [hide, keep]
          split <;> exact hchar char _
      | hole name value =>
          rw [hide, keep, List.map_cons, List.map_cons, atom, lexAtoms, lexAtoms,
            ih (Or.inr (Or.inl rfl))]
      | literal other text =>
          by_cases hother : other = kind
          · subst hother
            have hatom : (literal other text).atom = .literal text := by
              cases other with
              | lineComment => exact absurd rfl hkind
              | string => rfl
              | blockComment => rfl
            rw [hide_literal_self, List.map_append, List.map_cons, atom,
              lexAtoms_codes_separator hbefore, lexAtoms, lexAtoms_separator_cons,
              ih (Or.inr (Or.inl rfl)), List.map_cons, hatom, lexAtoms]
          · rw [hide, if_neg hother, keep, List.map_cons, List.map_cons]
            obtain ⟨shownText, htext⟩ : ∃ shownText, (literal other text).atom = .literal shownText := by
              cases other <;> exact ⟨_, rfl⟩
            rw [htext, lexAtoms, lexAtoms, ih (Or.inr (Or.inl rfl))]

end Mark

end ChuckLayout
