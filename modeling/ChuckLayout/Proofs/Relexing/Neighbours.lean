import ChuckLayout.Proofs.Relexing.Settled
import ChuckLayout.Proofs.Rereading.Laid

/-!
# Neighbours without a space

Lexemes that are written next to each other without a space are read back apart, with two exceptions:
a word that raw text ends in goes on into a keyword, and so does a colon into two colons.
-/

namespace ChuckLayout

open Blank (IsTight isBlank)
open Spacing
open Word (isWordChar)

/-- Raw text that goes on into the lexeme after it. -/
def Merges (first second : Lexeme) : Prop :=
  first.token = .text ∧
    (first.text.getLast?.any isWordChar ∧ second.token.isKeyword ∨
      first.text.getLast? = some ':' ∧ second.token = .colonColon)

instance (first second : Lexeme) : Decidable (Merges first second) :=
  inferInstanceAs (Decidable (first.token = .text ∧
    (first.text.getLast?.any isWordChar ∧ second.token.isKeyword ∨
      first.text.getLast? = some ':' ∧ second.token = .colonColon)))

namespace Token

def isSetOff (token : Token) : Bool :=
  token.isOperator && token ∉ [increment, decrement, plus, minus]

theorem padsBefore_of_isSetOff {lexeme : Lexeme} (hsetOff : lexeme.token.isSetOff)
    (stream : List Lexeme) (previous next : Option Lexeme) :
    padsBefore stream previous lexeme next := by
  rw [padsBefore]
  generalize lexeme.token = token at hsetOff
  cases token <;> first | rfl | exact absurd hsetOff (by decide)

theorem padsAfter_of_isSetOff {lexeme : Lexeme} (hsetOff : lexeme.token.isSetOff)
    (previous next : Option Lexeme) : padsAfter previous lexeme next := by
  rw [padsAfter]
  generalize lexeme.token = token at hsetOff
  cases token <;> first | rfl | exact absurd hsetOff (by decide)

theorem padsAfter_of_isKeyword {lexeme : Lexeme} (hkeyword : lexeme.token.isKeyword)
    (previous next : Option Lexeme) : padsAfter previous lexeme next := by
  rw [padsAfter]
  generalize lexeme.token = token at hkeyword
  cases token <;> first | rfl | exact absurd hkeyword (by decide)

/-- A sign is set off from an entry after it. -/
theorem padsAfter_of_isSign {lexeme next : Lexeme} (hsign : lexeme.token.isSign)
    (hentry : next.token.isTableEntry) (previous : Option Lexeme) :
    padsAfter previous lexeme (some next) := by
  have htext : ∀ other, some next = some other → other.token ≠ .text := by
    rintro other ⟨rfl⟩
    exact (ne_of_isTableEntry hentry).1
  rw [padsAfter, isExponentSign_of_next htext previous, Option.any_some, hentry]
  generalize lexeme.token = token at hsign
  cases token <;> first | rfl | exact absurd hsign (by decide)

/-- What raw text joins with, of all the entries of the table. -/
theorem cases_of_joins {last first : Char} (hlast : Piece.isMarkChar last = false) {token : Token}
    (hfirst : token.spelling.head? = some first) (hjoins : Piece.joins last first) :
    isWordChar last ∧ token.isKeyword ∨ last = ':' ∧ token = .colonColon ∨ token.isSetOff ∨
      token = .closePrint := by
  have htokens : ∀ token ∈ all, token.spelling.head?.all fun first =>
      (isWordChar first → token.isKeyword) ∧ (first = ':' → token = .colonColon) ∧
        (first = '=' ∨ first = '>' → token.isSetOff ∨ token = .closePrint) := by
    decide
  have hmarks : ∀ mark ∈ Piece.marks, mark.2.head?.any Piece.isMarkChar ∨
      mark.2 = "::".toList ∨ (mark.2.drop 1).head? = some '=' ∨
        (mark.2.drop 1).head? = some '>' := by
    decide
  have htoken := htokens token (mem_all token)
  rw [hfirst, Option.all_some, decide_eq_true_eq] at htoken
  obtain ⟨hword, hcolon, hoperator⟩ := htoken
  rw [Piece.joins, Bool.or_eq_true, Bool.and_eq_true] at hjoins
  rcases hjoins with ⟨hlastWord, hfirstWord⟩ | hmark
  · exact Or.inl ⟨hlastWord, hword hfirstWord⟩
  · obtain ⟨mark, more, hmem⟩ := Piece.goesOn_iff.mp hmark
    rcases hmarks _ hmem with hhead | hcolons | hsecond | hsecond
    · simp [hlast] at hhead
    · obtain ⟨rfl, rfl, -⟩ : last = ':' ∧ first = ':' ∧ more = [] := by simpa using hcolons
      exact Or.inr (Or.inl ⟨rfl, hcolon rfl⟩)
    · exact Or.inr (Or.inr (hoperator (Or.inl (by simpa using hsecond))))
    · exact Or.inr (Or.inr (hoperator (Or.inr (by simpa using hsecond))))

/-- An entry that a mark could go on from is set off, unless it is a sign before raw text. -/
theorem goesOn_cases {token : Token} (hentry : token.isTableEntry) (first : Char) :
    token.isSetOff ∨ token.isKeyword ∨ token.isSign ∨
      Piece.goesOn token.spelling first = false := by
  have hall : ∀ token ∈ all, token.isTableEntry → token.isSetOff ∨ token.isKeyword ∨
      token.isSign ∨ Piece.marks.all fun mark =>
        !(token.spelling.isPrefixOf mark.2 && token.spelling.length < mark.2.length) := by
    decide
  refine (hall token (mem_all token) hentry).imp_right (Or.imp_right (Or.imp_right ?_))
  intro hmarks
  rw [Piece.goesOn_eq_false_iff]
  intro mark more hmark
  have hlonger := List.all_eq_true.mp hmarks _ hmark
  rw [List.isPrefixOf_iff_prefix.mpr (List.prefix_append _ _)] at hlonger
  simp at hlonger

/-- A sign goes on with a blank or with another mark, and with nothing else. -/
theorem goesOn_sign {token : Token} (hsign : token.isSign) {first : Char}
    (hmark : Piece.isMarkChar first = false) (hsolid : isBlank first = false) :
    Piece.goesOn token.spelling first = false := by
  have hspelling : token.spelling = ['+'] ∨ token.spelling = ['-'] := by
    revert hsign
    cases token <;> decide
  have hmarks : ∀ mark ∈ Piece.marks, mark.2.head? = some '+' ∨ mark.2.head? = some '-' →
      (mark.2.drop 1).head?.all fun char => Piece.isMarkChar char || isBlank char := by
    decide
  rw [Piece.goesOn_eq_false_iff]
  intro other more hother
  have hsecond := hmarks _ hother
    (hspelling.imp (fun h => by rw [h]; rfl) fun h => by rw [h]; rfl)
  rcases hspelling with hspelling | hspelling <;> simp [hspelling, hmark, hsolid] at hsecond

end Token

namespace Lexeme

variable {lexeme : Lexeme}

theorem IsShown.holdsNoEntry (hshown : lexeme.IsShown) (htoken : lexeme.token = .text) :
    HoldsNoEntry lexeme.text ∧ IsTight lexeme.text := by
  obtain ⟨code, hraw⟩ := hshown.1.exists_isRaw htoken
  exact ⟨holdsNoEntry_of_isRaw hraw, isTight_of_isRaw hraw⟩

theorem IsShown.core_of_text (hshown : lexeme.IsShown) (htoken : lexeme.token = .text) :
    HoldsNoEntry lexeme.core ∧ IsTight lexeme.core ∧
      lexeme.core.getLast? = lexeme.text.getLast? := by
  obtain ⟨hholds, htight⟩ := hshown.holdsNoEntry htoken
  rw [(Lexeme.core_of_text htoken).2]
  exact ⟨hholds.squeeze, Blank.isTight_squeeze htight, Blank.getLast?_squeeze htight⟩

/-- An entry of the table at the front of code, whatever follows it, ends the raw text before it. -/
theorem startsAlone_core_append (hentry : lexeme.token.isTableEntry) {back : List Char}
    (hback : lexeme.token.isKeyword → back.head?.all fun char => !isWordChar char) :
    StartsAlone (lexeme.core ++ back) := by
  intro piece hpiece
  rw [(Lexeme.core_of_isTableEntry hentry).2] at hpiece
  cases hkeyword : lexeme.token.isKeyword with
  | true =>
      obtain ⟨hword, hne, hof⟩ := Token.isWord_of_isKeyword hkeyword
      rw [scan_word_append hword hne (hback hkeyword), hof] at hpiece
      obtain rfl := Option.some.inj hpiece
      exact Token.standsAlone_of_isTableEntry hentry _
  | false =>
      have hmark := Token.mem_marks hentry hkeyword
      obtain ⟨char, tail, hspelling, hgap, hword⟩ := Piece.head?_of_mem_marks hmark
      have hstarts : lexeme.token.spelling.isPrefixOf (char :: (tail ++ back)) := by
        rw [List.isPrefixOf_iff_prefix, ← List.cons_append, ← hspelling]
        exact List.prefix_append _ _
      obtain ⟨later, hlater, -⟩ := Piece.exists_later char (tail ++ back)
      have hcode : lexeme.token.spelling ++ back = char :: (tail ++ back) :=
        congrArg (· ++ back) hspelling
      rw [hcode, scan_of_leading rfl later hlater] at hpiece
      obtain rfl := Option.some.inj hpiece
      rw [Piece.leading, hgap, hword, if_neg Bool.false_ne_true, if_neg Bool.false_ne_true]
      cases hfind : Piece.marks.find? fun mark => mark.2.isPrefixOf (char :: (tail ++ back)) with
      | some mark => exact Piece.standsAlone_of_mem_marks (List.mem_of_find?_eq_some hfind)
      | none => exact absurd hstarts (List.find?_eq_none.mp hfind _ hmark)

end Lexeme

/-! ## Two neighbours -/

section

variable {stream : List Lexeme} {previous next : Option Lexeme} {first second : Lexeme}
  (hfirst : first.IsShown) (hsecond : second.IsShown)
  (hgap : isGapped stream previous first second next = false)

include hgap in
theorem token_ne_placeholder_of_not_isGapped : second.token ≠ .placeholder := by
  intro htoken
  rw [isGapped, Bool.or_eq_false_iff] at hgap
  simp [padsBefore, htoken] at hgap

include hsecond hgap in
/-- Nothing goes on from an entry into its neighbour. -/
theorem goesOn_of_not_isGapped (hentry : first.token.isTableEntry)
    (hkeyword : first.token.isKeyword = false) {char : Char} (hhead : second.core.head? = some char) :
    Piece.goesOn first.token.spelling char = false := by
  have hplaceholder := token_ne_placeholder_of_not_isGapped hgap
  rw [isGapped, Bool.or_eq_false_iff] at hgap
  rcases Token.goesOn_cases hentry char with hsetOff | hisKeyword | hsign | hgoesOn
  · rw [Token.padsAfter_of_isSetOff hsetOff] at hgap
    exact Bool.noConfusion hgap.1
  · rw [hkeyword] at hisKeyword
    exact Bool.noConfusion hisKeyword
  · have htext : second.token = .text := by
      rcases hsecond.cases with hsecondEntry | htoken | htoken
      · have hpads := hgap.1
        rw [Token.padsAfter_of_isSign hsign hsecondEntry] at hpads
        exact Bool.noConfusion hpads
      · exact absurd htoken hplaceholder
      · exact htoken
    obtain ⟨hholds, htight, -⟩ := hsecond.core_of_text htext
    refine Token.goesOn_sign hsign (hholds.marks char (List.mem_of_head? hhead)) ?_
    simpa [hhead] using htight.1
  · exact hgoesOn

include hfirst hsecond hgap in
/-- Raw text joins with its neighbour only when it merges with it. -/
theorem joins_of_not_isGapped (htext : first.token = .text) (hsecondText : second.token ≠ .text)
    (hmerges : ¬Merges first second) {last char : Char} (hlast : first.core.getLast? = some last)
    (hhead : second.core.head? = some char) : Piece.joins last char = false := by
  obtain ⟨hholds, -, hsame⟩ := hfirst.core_of_text htext
  have hentry : second.token.isTableEntry := by
    rcases hsecond.cases with hentry | htoken | htoken
    · exact hentry
    · exact absurd htoken (token_ne_placeholder_of_not_isGapped hgap)
    · exact absurd htoken hsecondText
  rw [isGapped, Bool.or_eq_false_iff] at hgap
  rw [(Lexeme.core_of_isTableEntry hentry).2] at hhead
  rw [Bool.eq_false_iff]
  intro hjoins
  rcases Token.cases_of_joins (hholds.marks last (List.mem_of_getLast? hlast)) hhead hjoins with
    ⟨hword, hkeyword⟩ | ⟨rfl, hcolons⟩ | hsetOff | hclose
  · exact hmerges ⟨htext, Or.inl ⟨by rw [← hsame, hlast]; exact hword, hkeyword⟩⟩
  · exact hmerges ⟨htext, Or.inr ⟨hsame ▸ hlast, hcolons⟩⟩
  · rw [Token.padsBefore_of_isSetOff hsetOff] at hgap
    exact Bool.noConfusion hgap.2
  · simp [padsBefore, hclose] at hgap

include hfirst hsecond hgap in
/-- Without a space between them two lexemes are still read apart, unless they merge. -/
theorem codeOf_append_of_not_isGapped (hplaceholder : first.token ≠ .placeholder)
    (hfollows : first.token = .text → second.token ≠ .text) (hmerges : ¬Merges first second)
    (hcore : second.core ≠ []) {more : List Char}
    (halone : first.token = .text → StartsAlone (second.core ++ more)) :
    codeOf (first.core ++ (second.core ++ more)) =
      first.settled false :: codeOf (second.core ++ more) := by
  have hhead : ∀ char, (second.core ++ more).head? = some char → second.core.head? = some char := by
    intro char hchar
    rwa [List.head?_append_of_ne_nil _ hcore] at hchar
  rcases hfirst.cases with hentry | htoken | htext
  · have hkeyword : first.token.isKeyword = false := by
      rw [Bool.eq_false_iff]
      intro hkeyword
      rw [isGapped, Token.padsAfter_of_isKeyword hkeyword] at hgap
      exact Bool.noConfusion hgap
    refine codeOf_entry_append hentry (fun h => ?_) fun char hchar _ =>
      goesOn_of_not_isGapped hsecond hgap hentry hkeyword (hhead char hchar)
    rw [hkeyword] at h
    exact Bool.noConfusion h
  · exact absurd htoken hplaceholder
  · obtain ⟨hholds, htight, -⟩ := hfirst.core_of_text htext
    rw [codeOf_text_append htight hholds (halone htext) fun last char hlast hchar =>
      joins_of_not_isGapped hfirst hsecond hgap htext (hfollows htext) hmerges hlast
        (hhead char hchar)]
    simp [Lexeme.settled, htext, Token.settled, Token.isSign, Blank.padding]

end

end ChuckLayout
