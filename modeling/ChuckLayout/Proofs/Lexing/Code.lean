import ChuckLayout.Proofs.Lexing.Boundary

/-!
# The lexemes of code

A stretch of code between two literals, or between a literal and the end of its line, is lexed on its
own.  Blanks at its front, and blanks after a word at its end, do not matter; neither does the table
of literals, as long as none of its placeholders can be read in the code.
-/

namespace ChuckLayout

open Blank (AllBlank)
open Placeholder (IsUnused)
open Word (IsWord isWordChar)

def codeOf (code : List Char) : List Lexeme :=
  Line.codeLexemes {} [] (scan code)

namespace Line

variable {table : LiteralTable}

theorem fragment_of_blank_append {lead : List Char} (hlead : AllBlank lead) (raw : List Char) :
    fragment (lead ++ raw) = fragment raw := by
  rw [fragment, fragment, Blank.trim_of_blank_append hlead]

theorem fragment_append_of_blank {trail : List Char} (htrail : AllBlank trail) (raw : List Char) :
    fragment (raw ++ trail) = fragment raw := by
  rw [fragment, fragment, Blank.trim_append_of_blank htrail]

theorem exists_item_of_standsAlone {piece : Piece} (halone : standsAlone table piece) :
    ∃ token text, piece = .item token text := by
  cases piece with
  | gap text => simp [standsAlone] at halone
  | stray char => simp [standsAlone] at halone
  | item token text => exact ⟨token, text, rfl⟩

theorem codeLexemes_item {token : Token} {text : List Char}
    (halone : standsAlone table (.item token text)) (raw : List Char) (rest : List Piece) :
    codeLexemes table raw (.item token text :: rest) =
      fragment raw ++ { token, text } :: codeLexemes table [] rest := by
  rw [codeLexemes, if_pos halone]

theorem codeLexemes_raw {piece : Piece} (hraw : standsAlone table piece = false) (raw : List Char)
    (rest : List Piece) :
    codeLexemes table raw (piece :: rest) = codeLexemes table (raw ++ piece.text) rest := by
  cases piece with
  | gap text => rfl
  | stray char => rfl
  | item token text =>
      rw [codeLexemes, hraw]
      rfl

/-- Pieces are lexed one by one: one that stands alone, or one more of the raw text pending. -/
@[elab_as_elim]
theorem pieces_induction (table : LiteralTable) {motive : List Piece → Prop} (nil : motive [])
    (raw : ∀ piece rest, standsAlone table piece = false → motive rest → motive (piece :: rest))
    (alone : ∀ token text rest, standsAlone table (.item token text) → motive rest →
      motive (.item token text :: rest)) (pieces : List Piece) : motive pieces := by
  induction pieces with
  | nil => exact nil
  | cons piece rest ih =>
      cases hpiece : standsAlone table piece with
      | false => exact raw piece rest hpiece ih
      | true =>
          obtain ⟨token, text, rfl⟩ := exists_item_of_standsAlone hpiece
          exact alone token text rest hpiece ih

/-- Blanks in front of raw text are trimmed away, so they may as well be missing. -/
theorem codeLexemes_of_blank_append {lead : List Char} (hlead : AllBlank lead) (raw : List Char)
    (pieces : List Piece) :
    codeLexemes table (lead ++ raw) pieces = codeLexemes table raw pieces := by
  induction pieces using pieces_induction table generalizing raw with
  | nil => exact fragment_of_blank_append hlead raw
  | raw piece rest hpiece ih =>
      rw [codeLexemes_raw hpiece, codeLexemes_raw hpiece, List.append_assoc, ih]
  | alone token text rest hpiece ih =>
      rw [codeLexemes_item hpiece, codeLexemes_item hpiece, fragment_of_blank_append hlead]

def pendingRaw (table : LiteralTable) (raw : List Char) : List Piece → List Char
  | [] => raw
  | piece :: rest =>
      if standsAlone table piece then pendingRaw table [] rest
      else pendingRaw table (raw ++ piece.text) rest

def lexedPieces (table : LiteralTable) (raw : List Char) : List Piece → List Lexeme
  | [] => []
  | .item token text :: rest =>
      if standsAlone table (.item token text) then
        fragment raw ++ { token, text } :: lexedPieces table [] rest
      else lexedPieces table (raw ++ text) rest
  | piece :: rest => lexedPieces table (raw ++ piece.text) rest

/-- Lexing goes on with the pending raw text. -/
theorem codeLexemes_append (raw : List Char) (front back : List Piece) :
    codeLexemes table raw (front ++ back) =
      lexedPieces table raw front ++ codeLexemes table (pendingRaw table raw front) back := by
  induction front using pieces_induction table generalizing raw with
  | nil => rfl
  | raw piece front hpiece ih =>
      have hlexed : lexedPieces table raw (piece :: front) =
          lexedPieces table (raw ++ piece.text) front := by
        cases piece with
        | gap text => rfl
        | stray char => rfl
        | item token text => rw [lexedPieces, if_neg (by simp [hpiece])]; rfl
      rw [List.cons_append, codeLexemes_raw hpiece, ih, hlexed, pendingRaw,
        if_neg (by simp [hpiece])]
  | alone token text front hpiece ih =>
      rw [List.cons_append, codeLexemes_item hpiece, ih, lexedPieces, if_pos hpiece, pendingRaw,
        if_pos hpiece, List.append_assoc, List.cons_append]

theorem codeLexemes_eq (raw : List Char) (pieces : List Piece) :
    codeLexemes table raw pieces =
      lexedPieces table raw pieces ++ fragment (pendingRaw table raw pieces) := by
  rw [← List.append_nil pieces, codeLexemes_append, List.append_nil, codeLexemes]

/-- A lexeme of its own ends the raw text before it, so code can be lexed in two parts there. -/
theorem codeLexemes_append_item {token : Token} {text : List Char}
    (halone : standsAlone table (.item token text)) (raw : List Char) (front back : List Piece) :
    codeLexemes table raw (front ++ .item token text :: back) =
      codeLexemes table raw front ++ { token, text } :: codeLexemes table [] back := by
  rw [codeLexemes_append, codeLexemes_item halone, codeLexemes_eq raw front, List.append_assoc]

theorem codeLexemes_concat_gap {gap : List Char} (hgap : AllBlank gap) (raw : List Char)
    (pieces : List Piece) :
    codeLexemes table raw (pieces ++ [.gap gap]) = codeLexemes table raw pieces := by
  rw [codeLexemes_append, codeLexemes_eq raw pieces]
  exact congrArg _ (fragment_append_of_blank hgap _)

/-- Only a placeholder stands alone for one table and not for another. -/
theorem standsAlone_eq_of_not_issued {piece : Piece}
    (hissued : ∀ name, piece = .item .placeholder name → table.isIssued name = false) :
    standsAlone table piece = standsAlone {} piece := by
  cases piece with
  | gap text => rfl
  | stray char => rfl
  | item token text =>
      cases token <;> try rfl
      exact hissued text rfl

/-- Of the table it matters only which pieces stand alone. -/
theorem codeLexemes_congr {other : LiteralTable} {pieces : List Piece}
    (hsame : ∀ piece ∈ pieces, standsAlone table piece = standsAlone other piece) (raw : List Char) :
    codeLexemes table raw pieces = codeLexemes other raw pieces := by
  induction pieces using pieces_induction table generalizing raw with
  | nil => rfl
  | raw piece rest hpiece ih =>
      obtain ⟨hfirst, hrest⟩ := List.forall_mem_cons.mp hsame
      rw [codeLexemes_raw hpiece, codeLexemes_raw (hfirst ▸ hpiece), ih hrest]
  | alone token text rest hpiece ih =>
      obtain ⟨hfirst, hrest⟩ := List.forall_mem_cons.mp hsame
      rw [codeLexemes_item hpiece, codeLexemes_item (hfirst ▸ hpiece), ih hrest]

/-- A table matters to lexing only by the placeholders that it has issued. -/
theorem codeLexemes_eq_of_not_issued {pieces : List Piece}
    (hissued : ∀ name, .item .placeholder name ∈ pieces → table.isIssued name = false)
    (raw : List Char) : codeLexemes table raw pieces = codeLexemes {} raw pieces := by
  apply codeLexemes_congr
  intro piece hpiece
  exact standsAlone_eq_of_not_issued fun name hname => hissued name (hname ▸ hpiece)

theorem mem_fragment {raw : List Char} {lexeme : Lexeme} (hlexeme : lexeme ∈ fragment raw) :
    lexeme = { token := .text, text := Blank.trim raw } ∧ Blank.trim raw ≠ [] := by
  rw [fragment] at hlexeme
  split at hlexeme
  · simp at hlexeme
  · exact ⟨List.mem_singleton.mp hlexeme, ‹_›⟩

/-- The text is what some raw pieces that follow each other spell, without the blanks around it. -/
def IsRaw (table : LiteralTable) (pieces : List Piece) (text : List Char) : Prop :=
  ∃ part, part <:+: pieces ∧ (∀ piece ∈ part, standsAlone table piece = false) ∧
    text = Blank.trim (part.flatMap Piece.text) ∧ text ≠ []

theorem IsRaw.of_isInfix {pieces part : List Piece} {text : List Char}
    (hraw : IsRaw table part text) (hpart : part <:+: pieces) : IsRaw table pieces text := by
  obtain ⟨front, hfront, halone, htext⟩ := hraw
  exact ⟨front, hfront.trans hpart, halone, htext⟩

theorem isRaw_of_mem_fragment {raw : List Piece} {lexeme : Lexeme}
    (hraw : ∀ piece ∈ raw, standsAlone table piece = false)
    (hlexeme : lexeme ∈ fragment (raw.flatMap Piece.text)) :
    lexeme = { token := .text, text := lexeme.text } ∧ IsRaw table raw lexeme.text := by
  obtain ⟨rfl, hne⟩ := mem_fragment hlexeme
  exact ⟨rfl, raw, List.infix_rfl, hraw, rfl, hne⟩

/-- A lexeme is raw text that has stayed together, or a piece that stands alone. -/
theorem mem_codeLexemes_of_raw (raw : List Piece) {pieces : List Piece} {lexeme : Lexeme}
    (hraw : ∀ piece ∈ raw, standsAlone table piece = false)
    (hlexeme : lexeme ∈ codeLexemes table (raw.flatMap Piece.text) pieces) :
    lexeme = { token := .text, text := lexeme.text } ∧ IsRaw table (raw ++ pieces) lexeme.text ∨
      ∃ token text, .item token text ∈ pieces ∧ standsAlone table (.item token text) ∧
        lexeme = { token, text } := by
  induction pieces using pieces_induction table generalizing raw with
  | nil => exact Or.inl (by simpa using isRaw_of_mem_fragment hraw hlexeme)
  | raw piece rest hpiece ih =>
      rw [codeLexemes_raw hpiece] at hlexeme
      have hraw' : ∀ other ∈ raw ++ [piece], standsAlone table other = false := by
        simpa [or_imp, forall_and] using ⟨hraw, hpiece⟩
      rcases ih _ hraw' (by simpa using hlexeme) with hleft | ⟨token, text, hmem, hitem⟩
      · exact Or.inl (by simpa using hleft)
      · exact Or.inr ⟨token, text, List.mem_cons_of_mem _ hmem, hitem⟩
  | alone token text rest hpiece ih =>
      rw [codeLexemes_item hpiece, List.mem_append, List.mem_cons] at hlexeme
      rcases hlexeme with hmem | rfl | hmem
      · obtain ⟨heq, hraw⟩ := isRaw_of_mem_fragment hraw hmem
        exact Or.inl ⟨heq, hraw.of_isInfix (List.prefix_append _ _).isInfix⟩
      · exact Or.inr ⟨token, text, List.mem_cons_self, hpiece, rfl⟩
      · rcases ih [] (by simp) (by simpa using hmem) with
          ⟨heq, hrest⟩ | ⟨token', text', hmem, hitem⟩
        · refine Or.inl ⟨heq, hrest.of_isInfix (List.IsSuffix.isInfix ?_)⟩
          exact ⟨raw ++ [.item token text], by simp⟩
        · exact Or.inr ⟨token', text', List.mem_cons_of_mem _ hmem, hitem⟩

/-- A lexeme of code is raw text that has been trimmed, or a piece that stands alone. -/
theorem mem_codeLexemes {pieces : List Piece} {lexeme : Lexeme}
    (hlexeme : lexeme ∈ codeLexemes table [] pieces) :
    lexeme = { token := .text, text := lexeme.text } ∧ IsRaw table pieces lexeme.text ∨
      ∃ token text, .item token text ∈ pieces ∧ standsAlone table (.item token text) ∧
        lexeme = { token, text } :=
  mem_codeLexemes_of_raw [] (by simp) hlexeme

end Line

theorem isInfix_of_mem_scan {text : List Char} {piece : Piece} (hpiece : piece ∈ scan text) :
    piece.text <:+: text := by
  obtain ⟨front, back, hscan⟩ := List.append_of_mem hpiece
  refine ⟨front.flatMap Piece.text, back.flatMap Piece.text, ?_⟩
  rw [← flatMap_scan text, hscan]
  simp

theorem Line.isInfix_flatMap_of_mem {table : LiteralTable} {pieces : List Piece} {lexeme : Lexeme}
    (hlexeme : lexeme ∈ codeLexemes table [] pieces) :
    lexeme.text <:+: pieces.flatMap Piece.text := by
  rcases mem_codeLexemes hlexeme with ⟨-, part, ⟨front, back, rfl⟩, -, htext, -⟩ |
    ⟨token, text, hmem, -, rfl⟩
  · rw [htext]
    refine (Blank.trim_isInfix _).trans ⟨front.flatMap Piece.text, back.flatMap Piece.text, ?_⟩
    simp
  · obtain ⟨front, back, rfl⟩ := List.append_of_mem hmem
    exact ⟨front.flatMap Piece.text, back.flatMap Piece.text, by simp [Piece.text]⟩

/-- Lexing puts nothing together that did not stand together in the code. -/
theorem isInfix_of_mem_codeLexemes {table : LiteralTable} {code : List Char} {lexeme : Lexeme}
    (hlexeme : lexeme ∈ Line.codeLexemes table [] (scan code)) : lexeme.text <:+: code := by
  have hoccurs := Line.isInfix_flatMap_of_mem hlexeme
  rwa [flatMap_scan] at hoccurs

/-- Code without the names of a table is lexed as with an empty one. -/
theorem codeLexemes_eq_codeOf {table : LiteralTable} (hnumbered : table.IsNumbered)
    {code : List Char} (hunused : IsUnused table.salt code) :
    Line.codeLexemes table [] (scan code) = codeOf code := by
  apply Line.codeLexemes_eq_of_not_issued
  intro name hname
  exact hnumbered.isIssued_eq_false (hunused.of_isInfix (isInfix_of_mem_scan hname))

@[simp]
theorem codeOf_nil : codeOf [] = [] := by
  rw [codeOf, scan_nil]
  rfl

theorem codeOf_dropWhile_isGap (code : List Char) :
    codeOf (code.dropWhile Piece.isGap) = codeOf code := by
  cases code with
  | nil => rfl
  | cons char rest =>
      by_cases hgap : Piece.isGap char
      · have hleading : Piece.leading char rest = .gap (char :: rest.takeWhile Piece.isGap) := by
          rw [Piece.leading, if_pos hgap]
        have hblank : AllBlank (char :: rest.takeWhile Piece.isGap) := by
          rw [Blank.allBlank_cons]
          exact ⟨Piece.isBlank_of_isGap hgap,
            fun other hother => Piece.isBlank_of_isGap (List.mem_takeWhile_imp hother)⟩
        rw [List.dropWhile_cons_of_pos hgap, codeOf, codeOf,
          scan_of_leading hleading (rest.dropWhile Piece.isGap) (by simp [Piece.text]),
          Line.codeLexemes_raw rfl, List.nil_append, ← Line.codeLexemes_of_blank_append hblank,
          List.append_nil]
        rfl
      · rw [List.dropWhile_cons_of_neg hgap]

theorem codeOf_gap_cons {char : Char} (hgap : Piece.isGap char) (code : List Char) :
    codeOf (char :: code) = codeOf code := by
  rw [← codeOf_dropWhile_isGap (char :: code), List.dropWhile_cons_of_pos hgap,
    codeOf_dropWhile_isGap]

theorem return_not_mem_of_mem_marks {mark : Token × List Char} (hmark : mark ∈ Piece.marks) :
    '\r' ∉ mark.2 := by
  revert mark
  decide

theorem codeLexemes_allGap (table : LiteralTable) (raw : List Char) {code : List Char}
    (hgap : ∀ char ∈ code, Piece.isGap char) :
    Line.codeLexemes table raw (scan code) = Line.fragment raw := by
  cases code with
  | nil => rw [scan_nil]; rfl
  | cons char rest =>
      have hrest : rest.takeWhile Piece.isGap = rest :=
        List.takeWhile_eq_self_iff.mpr fun other hother => hgap other (List.mem_cons_of_mem _ hother)
      have hleading : Piece.leading char rest = .gap (char :: rest) := by
        rw [Piece.leading, if_pos (hgap char List.mem_cons_self), hrest]
      rw [scan_of_leading hleading [] (by simp [Piece.text]), scan_nil]
      exact Line.fragment_append_of_blank (fun other hother =>
        Piece.isBlank_of_isGap (hgap other hother)) raw

/-- A carriage return belongs to a gap, so one at the end of a line changes no lexeme. -/
theorem codeLexemes_concat_return (table : LiteralTable) (raw code : List Char) :
    Line.codeLexemes table raw (scan (code ++ ['\r'])) = Line.codeLexemes table raw (scan code) := by
  induction hlength : code.length using Nat.strong_induction_on generalizing code raw with
  | _ length ih =>
      by_cases hgap : ∀ char ∈ code, Piece.isGap char
      · have hgap' : ∀ char ∈ code ++ ['\r'], Piece.isGap char := by
          simpa [or_imp, forall_and] using ⟨hgap, (by decide : Piece.isGap '\r' = true)⟩
        rw [codeLexemes_allGap table raw hgap, codeLexemes_allGap table raw hgap']
      · cases code with
        | nil => simp at hgap
        | cons char rest =>
            have hleading : Piece.leading char (rest ++ ['\r']) = Piece.leading char rest := by
              apply Piece.leading_append_of
              · intro hchar
                apply takeWhile_append_of_stop
                intro hrest
                exfalso
                apply hgap
                simpa [hchar] using hrest
              · intro _
                apply takeWhile_append_of_stop
                intro _ first hfirst
                obtain rfl : '\r' = first := by simpa using hfirst
                decide
              · intro mark hmark hstarts
                rcases List.prefix_concat_iff.mp hstarts with heq | hshort
                · exact absurd (by simp [heq]) (return_not_mem_of_mem_marks hmark)
                · exact hshort
            obtain ⟨later, hlater, hshorter⟩ := Piece.exists_later char rest
            have hlast := fun raw => ih later.length (hlength ▸ hshorter) raw later rfl
            rw [List.cons_append, scan_of_leading hleading (later ++ ['\r'])
              (by rw [← List.append_assoc, ← hlater, List.cons_append]),
              scan_of_leading rfl later hlater]
            cases hpiece : Line.standsAlone table (Piece.leading char rest) with
            | false => rw [Line.codeLexemes_raw hpiece, Line.codeLexemes_raw hpiece, hlast]
            | true =>
                obtain ⟨token, text, hitem⟩ := Line.exists_item_of_standsAlone hpiece
                rw [hitem] at hpiece ⊢
                rw [Line.codeLexemes_item hpiece, Line.codeLexemes_item hpiece, hlast]

theorem codeOf_concat_space {code : List Char} (hlast : code.getLast?.any isWordChar) :
    codeOf (code ++ [' ']) = codeOf code := by
  have hboundary : IsBoundary code [' '] := by
    intro last first hcode hfirst
    obtain rfl : ' ' = first := by simpa using hfirst
    rw [hcode, Option.any_some] at hlast
    rw [hlast]
    decide
  have hspace : scan [' '] = [.gap [' ']] := by
    have hleading : Piece.leading ' ' [] = .gap [' '] := rfl
    rw [scan_of_leading hleading [] rfl, scan_nil]
  rw [codeOf, scan_append hboundary, hspace, Line.codeLexemes_concat_gap, codeOf]
  simp [AllBlank, Blank.isBlank_space]

end ChuckLayout
