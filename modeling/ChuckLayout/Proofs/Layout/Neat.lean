import ChuckLayout.Proofs.Layout.Rows
import ChuckLayout.Proofs.Lexing.Stream

/-!
# Lexemes that can be written in a row

Entries of the table, words and raw text hold no line break, and squeezing leaves nothing of them
out.  Raw text and words hold no brace.
-/

namespace ChuckLayout

open Blank (IsTight isBlank squeeze)
open Word (IsWord isWordChar)

theorem isBlank_of_isWordChar {char : Char} (hword : isWordChar char) : isBlank char = false := by
  by_contra hblank
  simp only [isBlank, Blank.ranges, Bool.not_eq_false, List.any_cons, List.any_nil, Bool.or_false,
    Bool.or_eq_true, Bool.and_eq_true, decide_eq_true_eq, Char.toNat] at hblank
  have hcases : (((65 ≤ char.val.toNat ∧ char.val.toNat ≤ 90) ∨
      (97 ≤ char.val.toNat ∧ char.val.toNat ≤ 122)) ∨
        (48 ≤ char.val.toNat ∧ char.val.toNat ≤ 57)) ∨ char = '_' := by
    rw [isWordChar, Bool.or_eq_true, Char.isAlphanum, Bool.or_eq_true, beq_iff_eq] at hword
    refine hword.imp_left (Or.imp (fun halpha => ?_) fun hdigit => ?_)
    · have hsplit : (char.isUpper || char.isLower) = true := halpha
      rw [Bool.or_eq_true] at hsplit
      refine hsplit.imp (fun hupper => ?_) fun hlower => ?_
      · exact of_decide_eq_true hupper
      · exact (Bool.and_eq_true_iff.mp hlower).imp of_decide_eq_true of_decide_eq_true
    · exact (Bool.and_eq_true_iff.mp hdigit).imp of_decide_eq_true of_decide_eq_true
  rcases hcases with ((⟨hlow, hhigh⟩ | ⟨hlow, hhigh⟩) | ⟨hlow, hhigh⟩) | rfl
  · omega
  · omega
  · omega
  · revert hblank
    decide

namespace Token

/-- Entries of the table are spelled without anything that squeezing or trimming could change. -/
theorem spelling_of_isTableEntry {token : Token} (hentry : token.isTableEntry)
    (htoken : token ≠ .newline) :
    IsTight token.spelling ∧ '\n' ∉ token.spelling ∧ squeeze token.spelling = token.spelling := by
  have hall : ∀ token ∈ all, token.isTableEntry → token ≠ .newline →
      IsTight token.spelling ∧ '\n' ∉ token.spelling ∧ squeeze token.spelling = token.spelling := by
    unfold IsTight
    decide
  exact hall token (mem_all token) hentry htoken

/-- The open-ended kinds are no entries of the table. -/
theorem ne_of_isTableEntry {token : Token} (hentry : token.isTableEntry) :
    token ≠ .text ∧ token ≠ .placeholder := by
  constructor <;> rintro rfl <;> exact Bool.noConfusion hentry

theorem eq_of_spelling_eq_brace {token brace : Token} (hbrace : brace.isBrace)
    (hspelling : token.spelling = brace.spelling) : token = brace := by
  revert hspelling
  cases brace <;> simp only [isBrace, Bool.false_eq_true] at hbrace <;> cases token <;> decide

theorem isMarkChar_of_isBrace {brace : Token} (hbrace : brace.isBrace) :
    ∃ char, brace.spelling = [char] ∧ isBlank char = false ∧ Piece.isMarkChar char := by
  cases brace <;> simp only [isBrace, Bool.false_eq_true] at hbrace
  · exact ⟨'\x7b', by decide⟩
  · exact ⟨'\x7d', by decide⟩

end Token

theorem IsEntry.isTableEntry {item : Token × List Char} (hentry : IsEntry item) :
    item.1.isTableEntry := by
  rcases hentry with ⟨hkeyword, -⟩ | hmark
  · revert hkeyword
    cases item.1 <;> decide
  · revert item
    decide

namespace IsStreamItem

variable {isLiteral : List Char → Prop} {lexeme : Lexeme}
  (hitem : IsStreamItem isLiteral lexeme.item)

include hitem

/-- What a lexeme of a stream can be, and what is known of it then. -/
theorem cases_token :
    lexeme.token.isTableEntry ∧ IsEntry lexeme.item ∨
      lexeme.token = .placeholder ∧ isLiteral lexeme.text ∨
      lexeme.token = .text ∧ ∃ code, Line.IsRaw {} (scan code) lexeme.text := by
  generalize hsame : lexeme.item = item at hitem ⊢
  cases hitem with
  | entry hentry =>
      have htoken := hentry.isTableEntry
      rw [← hsame] at htoken
      exact Or.inl ⟨htoken, hentry⟩
  | literal hliteral =>
      obtain ⟨htoken, rfl⟩ := Prod.mk.inj hsame
      exact Or.inr (Or.inl ⟨htoken, hliteral⟩)
  | @raw code _ hraw =>
      obtain ⟨htoken, rfl⟩ := Prod.mk.inj hsame
      exact Or.inr (Or.inr ⟨htoken, code, hraw⟩)

theorem isEntry (hentry : lexeme.token.isTableEntry) : IsEntry lexeme.item := by
  rcases hitem.cases_token with ⟨-, hentry⟩ | ⟨htoken, -⟩ | ⟨htoken, -⟩
  · exact hentry
  · rw [htoken] at hentry
    exact Bool.noConfusion hentry
  · rw [htoken] at hentry
    exact Bool.noConfusion hentry

theorem isLiteral_text (hplaceholder : lexeme.token = .placeholder) : isLiteral lexeme.text := by
  rcases hitem.cases_token with ⟨hentry, -⟩ | ⟨-, hliteral⟩ | ⟨htoken, -⟩
  · rw [hplaceholder] at hentry
    exact Bool.noConfusion hentry
  · exact hliteral
  · exact Token.noConfusion (hplaceholder.symm.trans htoken)

theorem exists_isRaw (htext : lexeme.token = .text) :
    ∃ code, Line.IsRaw {} (scan code) lexeme.text := by
  rcases hitem.cases_token with ⟨hentry, -⟩ | ⟨htoken, -⟩ | ⟨-, hraw⟩
  · rw [htext] at hentry
    exact Bool.noConfusion hentry
  · exact Token.noConfusion (htext.symm.trans htoken)
  · exact hraw

end IsStreamItem

theorem Word.IsWord.isTight {word : List Char} (hword : IsWord word) (hne : word ≠ []) :
    IsTight word := by
  constructor
  · rw [List.head?_eq_some_head hne]
    simp [isBlank_of_isWordChar (hword _ (List.head_mem hne))]
  · rw [List.getLast?_eq_some_getLast hne]
    simp [isBlank_of_isWordChar (hword _ (List.getLast_mem hne))]

theorem Blank.squeeze_of_solid {text : List Char} (hsolid : ∀ char ∈ text, isBlank char = false) :
    squeeze text = text := by
  induction text with
  | nil => rfl
  | cons char rest ih =>
      obtain ⟨hchar, hrest⟩ := List.forall_mem_cons.mp hsolid
      rw [squeeze, squeezeFrom, isHorizontal, hchar, Bool.false_and, if_neg Bool.false_ne_true,
        ← squeeze, ih hrest]

theorem Blank.squeeze_append_solid {word : List Char} (hsolid : ∀ char ∈ word, isBlank char = false)
    (front : List Char) : squeeze (front ++ word) = squeeze front ++ word := by
  obtain ⟨after, hsqueeze⟩ := exists_squeezeFrom_append false front word
  rw [squeeze, hsqueeze, ← squeeze]
  cases word with
  | nil => rfl
  | cons char rest =>
      have hhead : (char :: rest).head?.any fun char => !isHorizontal char := by
        simp [isHorizontal, hsolid char List.mem_cons_self]
      rw [squeezeFrom_of_head hhead, squeeze_of_solid hsolid]

namespace Lexeme

variable {lexeme : Lexeme}

theorem core_of_isTableEntry (hentry : lexeme.token.isTableEntry) :
    lexeme.shown = lexeme.token.spelling ∧ lexeme.core = lexeme.token.spelling := by
  unfold core shown
  cases htoken : lexeme.token <;> rw [htoken] at hentry <;> simp_all [Token.isTableEntry, Token.spelling?]

theorem core_of_placeholder (htoken : lexeme.token = .placeholder) :
    lexeme.shown = lexeme.text ∧ lexeme.core = lexeme.text := by
  simp [core, shown, htoken]

theorem core_of_text (htoken : lexeme.token = .text) :
    lexeme.shown = lexeme.text ∧ lexeme.core = squeeze lexeme.text := by
  simp [core, shown, htoken]

/-- An item of a stream whose literals are words can be written in a row. -/
theorem isNeat_of_isStreamItem {isLiteral : List Char → Prop}
    (hitem : IsStreamItem isLiteral lexeme.item)
    (hliteral : ∀ text, isLiteral text → IsWord text ∧ text ≠ [])
    (htoken : lexeme.token ≠ .newline) : lexeme.IsNeat := by
  rcases hitem.cases_token with ⟨hentry, -⟩ | ⟨hplaceholder, htext⟩ | ⟨htext, code, hraw⟩
  · obtain ⟨hshown, hcore⟩ := core_of_isTableEntry hentry
    obtain ⟨htight, hfeed, hsqueeze⟩ := Token.spelling_of_isTableEntry hentry htoken
    refine ⟨hshown ▸ htight, hshown ▸ hfeed, by rw [hshown, hcore, hsqueeze], ?_⟩
    intro brace hbrace hspelling
    exact Token.eq_of_spelling_eq_brace hbrace (hcore ▸ hspelling)
  · obtain ⟨hword, hne⟩ := hliteral _ htext
    obtain ⟨hshown, hcore⟩ := core_of_placeholder hplaceholder
    have hsolid : ∀ char ∈ lexeme.text, isBlank char = false :=
      fun char hchar => isBlank_of_isWordChar (hword char hchar)
    refine ⟨hshown ▸ hword.isTight hne, ?_, by rw [hshown, hcore, Blank.squeeze_of_solid hsolid], ?_⟩
    · rw [hshown]
      intro hfeed
      exact absurd (hword _ hfeed) (by decide)
    · intro brace hbrace hspelling
      obtain ⟨char, hchar, -, hmark⟩ := Token.isMarkChar_of_isBrace hbrace
      rw [hcore, hchar] at hspelling
      have hchar := hword char (hspelling ▸ List.mem_singleton_self char)
      rw [Piece.isMarkChar_of_isWordChar hchar] at hmark
      exact absurd hmark Bool.false_ne_true
  · obtain ⟨hshown, hcore⟩ := core_of_text htext
    have hmarks := isMarkChar_of_isRaw hraw
    refine ⟨hshown ▸ isTight_of_isRaw hraw, ?_, by rw [hshown, hcore], ?_⟩
    · rw [hshown]
      intro hfeed
      exact absurd (hmarks _ hfeed) (by decide)
    · intro brace hbrace hspelling
      obtain ⟨char, hchar, hblank, hmark⟩ := Token.isMarkChar_of_isBrace hbrace
      -- The brace is not blank, so it has been there before the text was squeezed.
      have hsolid : Blank.solid lexeme.text = [char] := by
        rw [← Blank.solid_squeeze, ← hcore, hspelling, hchar, Blank.solid_cons_of_not_blank hblank,
          Blank.solid_nil]
      have hmem : char ∈ lexeme.text := by
        apply List.mem_of_mem_filter
        rw [← Blank.solid, hsolid]
        exact List.mem_singleton_self char
      rw [hmarks char hmem] at hmark
      exact absurd hmark Bool.false_ne_true

end Lexeme

end ChuckLayout
