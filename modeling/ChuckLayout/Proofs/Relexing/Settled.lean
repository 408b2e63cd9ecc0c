import ChuckLayout.Proofs.Relexing.Pieces

/-!
# Settled lexemes

A lexeme that has been laid out is read back settled: its text is squeezed, and a sign has swallowed
a blank just when a space follows it.
-/

namespace ChuckLayout

open Blank (IsTight padding)
open Word (isWordChar)

namespace Token

def isSign : Token → Bool
  | plus | plusSpaced | minus | minusSpaced => true
  | _ => false

/-- The token that is read back where a space follows or where none does. -/
def settled (gapped : Bool) : Token → Token
  | plus | plusSpaced => if gapped then plusSpaced else plus
  | minus | minusSpaced => if gapped then minusSpaced else minus
  | token => token

theorem settled_of_not_isSign {token : Token} (hsign : token.isSign = false) (gapped : Bool) :
    token.settled gapped = token := by
  cases token <;> first | rfl | exact Bool.noConfusion hsign

theorem isTableEntry_settled (token : Token) (gapped : Bool) :
    (token.settled gapped).isTableEntry = token.isTableEntry := by
  cases token <;> cases gapped <;> rfl

theorem standsAlone_of_isTableEntry {token : Token} (hentry : token.isTableEntry)
    (text : List Char) : Line.standsAlone {} (.item token text) := by
  cases token <;> first | rfl | exact Bool.noConfusion hentry

theorem mem_marks {token : Token} (hentry : token.isTableEntry) (hkeyword : token.isKeyword = false) :
    (token.settled false, token.spelling) ∈ Piece.marks := by
  have hall : ∀ token ∈ all, token.isTableEntry → token.isKeyword = false →
      (token.settled false, token.spelling) ∈ Piece.marks := by
    decide
  exact hall token (mem_all token) hentry hkeyword

theorem spaced_mem_marks {token : Token} (hsign : token.isSign) :
    (token.settled true, token.spelling ++ [' ']) ∈ Piece.marks := by
  have hall : ∀ token ∈ all, token.isSign →
      (token.settled true, token.spelling ++ [' ']) ∈ Piece.marks := by
    decide
  exact hall token (mem_all token) hsign

/-- No mark goes on after a sign with its space. -/
theorem goesOn_spaced {token : Token} (hsign : token.isSign) (first : Char) :
    Piece.goesOn (token.spelling ++ [' ']) first = false := by
  have hall : ∀ mark ∈ Piece.marks, ' ' ∈ mark.2 → mark.2.length = 2 := by decide
  have hspelling : token.spelling.length = 1 := by
    revert hsign
    cases token <;> decide
  rw [Piece.goesOn_eq_false_iff]
  intro mark more hmark
  have hlength := hall _ hmark (by simp)
  simp only [List.length_append, List.length_cons, List.length_nil] at hlength
  omega

/-- No mark but a sign goes on with a space. -/
theorem goesOn_space {token : Token} (hentry : token.isTableEntry) (hsign : token.isSign = false) :
    Piece.goesOn token.spelling ' ' = false := by
  have hall : ∀ token ∈ all, token.isTableEntry → token.isSign = false →
      Piece.goesOn token.spelling ' ' = false := by
    decide
  exact hall token (mem_all token) hentry hsign

end Token

def Lexeme.settled (gapped : Bool) (lexeme : Lexeme) : Lexeme where
  token := lexeme.token.settled gapped
  text := lexeme.core ++ padding (gapped && lexeme.token.isSign)

variable {lexeme : Lexeme} {back : List Char}

/-- An entry is read up to a space after it; a sign swallows the space. -/
theorem codeOf_entry_space (hentry : lexeme.token.isTableEntry) (back : List Char) :
    codeOf (lexeme.core ++ ' ' :: back) = lexeme.settled true :: codeOf back := by
  have halone := Token.standsAlone_of_isTableEntry
    ((Token.isTableEntry_settled lexeme.token true).trans hentry)
  rw [Lexeme.settled, (Lexeme.core_of_isTableEntry hentry).2, Bool.true_and]
  cases hsign : lexeme.token.isSign with
  | true =>
      have hscan : scan (lexeme.token.spelling ++ [' '] ++ back) = _ :=
        scan_mark_append (Token.spaced_mem_marks hsign) fun first _ =>
          Token.goesOn_spaced hsign first
      rw [List.append_assoc, List.singleton_append] at hscan
      exact codeOf_of_scan hscan (halone _)
  | false =>
      have hspace : codeOf (' ' :: back) = codeOf back := codeOf_gap_cons (by decide) back
      rw [padding, if_neg Bool.false_ne_true, List.append_nil,
        Token.settled_of_not_isSign hsign, ← hspace]
      cases hkeyword : lexeme.token.isKeyword with
      | true =>
          obtain ⟨hword, hne, hof⟩ := Token.isWord_of_isKeyword hkeyword
          have hscan : scan (lexeme.token.spelling ++ ' ' :: back) = _ :=
            scan_word_append hword hne rfl
          rw [hof] at hscan
          exact codeOf_of_scan hscan (Token.standsAlone_of_isTableEntry hentry _)
      | false =>
          have hmark := Token.mem_marks hentry hkeyword
          rw [Token.settled_of_not_isSign hsign] at hmark
          refine codeOf_of_scan (scan_mark_append hmark ?_)
            (Token.standsAlone_of_isTableEntry hentry _)
          rintro first ⟨rfl⟩
          exact Token.goesOn_space hentry hsign

/-- An entry is read back bare when neither its word nor its mark goes on. -/
theorem codeOf_entry_append (hentry : lexeme.token.isTableEntry)
    (hkeyword : lexeme.token.isKeyword → back.head?.all fun char => !isWordChar char)
    (hmark : ∀ first, back.head? = some first →
      lexeme.token.isKeyword = false → Piece.goesOn lexeme.token.spelling first = false) :
    codeOf (lexeme.core ++ back) = lexeme.settled false :: codeOf back := by
  have halone := Token.standsAlone_of_isTableEntry
    ((Token.isTableEntry_settled lexeme.token false).trans hentry)
  rw [Lexeme.settled, (Lexeme.core_of_isTableEntry hentry).2, Bool.false_and, padding,
    if_neg Bool.false_ne_true, List.append_nil]
  cases hisKeyword : lexeme.token.isKeyword with
  | true =>
      obtain ⟨hword, hne, hof⟩ := Token.isWord_of_isKeyword hisKeyword
      have hsign : lexeme.token.isSign = false := by
        revert hisKeyword
        cases lexeme.token <;> decide
      have hscan := scan_word_append hword hne (hkeyword hisKeyword)
      rw [hof] at hscan
      rw [Token.settled_of_not_isSign hsign]
      exact codeOf_of_scan hscan (Token.standsAlone_of_isTableEntry hentry _)
  | false =>
      exact codeOf_of_scan (scan_mark_append (Token.mem_marks hentry hisKeyword)
        fun first hfirst => hmark first hfirst hisKeyword) (halone _)

end ChuckLayout
