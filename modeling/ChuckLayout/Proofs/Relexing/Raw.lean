import ChuckLayout.Proofs.Layout.Neat
import ChuckLayout.Proofs.Text.Words

/-!
# Raw text stays raw

Raw text holds no mark and no keyword, and neither squeezing nor trimming it brings one about.  So
raw text that has been laid out is raw text again.
-/

namespace ChuckLayout

open Blank (isBlank wordsBy squeeze)
open Word (IsWord isWordChar)

def Word.runs (text : List Char) : List (List Char) :=
  wordsBy (fun char => !isWordChar char) text

structure HoldsNoEntry (text : List Char) : Prop where
  marks : ∀ char ∈ text, Piece.isMarkChar char = false
  colons : ¬"::".toList <:+: text
  words : ∀ word ∈ Word.runs text, (Piece.ofWord word).isKeyword = false

namespace Piece

/-- A mark that is no mark character is a colon before a colon. -/
theorem eq_colons_of_mem_marks {mark : Token × List Char} (hmark : mark ∈ marks) :
    mark.2 = "::".toList ∨ ∃ char ∈ mark.2, isMarkChar char := by
  have hall : ∀ mark ∈ marks, mark.2 = "::".toList ∨ mark.2.any isMarkChar := by decide
  simpa only [List.any_eq_true] using hall mark hmark

theorem find?_of_imp {A : Type} {keeps holds : A → Bool} {items : List A} {found : A}
    (hfound : items.find? keeps = some found) (hholds : holds found)
    (himp : ∀ item, holds item → keeps item) : items.find? holds = some found := by
  induction items with
  | nil => simp at hfound
  | cons item rest ih =>
      by_cases hkeeps : keeps item
      · rw [List.find?_cons_of_pos hkeeps] at hfound
        obtain rfl := Option.some.inj hfound
        exact List.find?_cons_of_pos hholds
      · rw [List.find?_cons_of_neg hkeeps] at hfound
        rw [List.find?_cons_of_neg (mt (himp item) hkeeps), ih hfound]

/-- What is scanned first does not depend on what follows it. -/
theorem leading_isLocal : Cut.IsLocal leading text := by
  intro char rest front hpiece hfront
  have hmarks : ∀ mark : Token × List Char, mark.2.isPrefixOf (char :: front) →
      mark.2.isPrefixOf (char :: rest) := by
    intro mark hmark
    rw [List.isPrefixOf_iff_prefix] at hmark ⊢
    exact hmark.trans ((List.prefix_cons_inj char).mpr hfront)
  unfold leading at hpiece ⊢
  by_cases hgap : isGap char
  · rw [if_pos hgap, text, List.prefix_cons_inj] at hpiece
    rw [if_pos hgap, if_pos hgap, takeWhile_of_isPrefix hpiece hfront]
  rw [if_neg hgap] at hpiece
  rw [if_neg hgap, if_neg hgap]
  by_cases hword : isWordChar char
  · rw [if_pos hword, text, List.prefix_cons_inj] at hpiece
    rw [if_pos hword, if_pos hword, takeWhile_of_isPrefix hpiece hfront]
  rw [if_neg hword] at hpiece
  rw [if_neg hword, if_neg hword]
  cases hfind : marks.find? fun mark => mark.2.isPrefixOf (char :: rest) with
  | some mark =>
      rw [hfind] at hpiece
      rw [find?_of_imp hfind (List.isPrefixOf_iff_prefix.mpr hpiece) hmarks]
  | none =>
      have hnone : (marks.find? fun mark => mark.2.isPrefixOf (char :: front)) = none := by
        rw [List.find?_eq_none] at hfind ⊢
        exact fun mark hmark hstarts => hfind mark hmark (hmarks mark hstarts)
      rw [hnone]

theorem standsAlone_of_mem_marks {mark : Token × List Char} (hmark : mark ∈ marks) :
    Line.standsAlone {} (.item mark.1 mark.2) := by
  obtain ⟨htext, hplaceholder⟩ := token_of_mem_marks hmark
  unfold Line.standsAlone
  split <;> simp_all

def word? : Piece → Option (List Char)
  | item _ text => if text.all isWordChar then some text else none
  | _ => none

theorem word?_of_mem_marks {mark : Token × List Char} (hmark : mark ∈ marks) :
    (item mark.1 mark.2).word? = none := by
  obtain ⟨first, tail, htext⟩ := List.exists_cons_of_ne_nil (ne_nil_of_mem_marks hmark)
  have hfirst := not_isWordChar_of_mem_marks hmark first (htext ▸ List.mem_cons_self)
  rw [word?, htext, if_neg]
  rw [List.all_cons, hfirst, Bool.false_and]
  exact Bool.false_ne_true

theorem runs_leading_append {char : Char} {rest later : List Char}
    (hlater : char :: rest = (leading char rest).text ++ later) :
    Word.runs (char :: rest) = (leading char rest).word?.toList ++ Word.runs later := by
  by_cases hword : isWordChar char
  · have hgap : isGap char = false := by
      rw [Bool.eq_false_iff]
      intro hgap
      rw [isWordChar_of_isGap hgap] at hword
      exact Bool.noConfusion hword
    have hleading : leading char rest =
        .item (ofWord (char :: rest.takeWhile isWordChar)) (char :: rest.takeWhile isWordChar) := by
      rw [leading, hgap, if_neg Bool.false_ne_true, if_pos hword]
    rw [hleading, text, List.cons_append, List.cons.injEq] at hlater
    have hdrop : later = rest.dropWhile isWordChar := by
      rw [← List.append_cancel_left_eq (rest.takeWhile isWordChar), ← hlater.2,
        List.takeWhile_append_dropWhile]
    have hrun : ∀ other ∈ char :: rest.takeWhile isWordChar, isWordChar other :=
      List.forall_mem_cons.mpr ⟨hword, fun other hother => List.mem_takeWhile_imp hother⟩
    have hend : later.head?.all fun other => !isWordChar other := by
      have hhead := List.head?_dropWhile_not isWordChar rest
      rw [hdrop]
      cases hfirst : (rest.dropWhile isWordChar).head? with
      | none => rfl
      | some first => simpa [hfirst] using hhead
    have hall : (char :: rest.takeWhile isWordChar).all isWordChar := List.all_eq_true.mpr hrun
    have htext : char :: rest = (char :: rest.takeWhile isWordChar) ++ later := by
      rw [List.cons_append, ← hlater.2]
    rw [hleading, word?, if_pos hall, htext]
    exact Blank.wordsBy_word_append (fun other hother => by simpa using hrun other hother)
      (List.cons_ne_nil _ _) hend
  · have hchars : (∀ other ∈ (leading char rest).text, isWordChar other = false) ∧
        (leading char rest).word? = none := by
      rcases leading_cases char rest with ⟨gap, heq, -, hgap⟩ | ⟨word, heq, hne, hisWord⟩ |
        ⟨mark, hmark, heq⟩ | ⟨heq, -, hnot, -⟩
      · rw [heq]
        exact ⟨fun other hother => isWordChar_of_isGap (hgap other hother), rfl⟩
      · obtain ⟨first, tail, rfl⟩ := List.exists_cons_of_ne_nil hne
        rw [heq, text, List.cons_append, List.cons.injEq] at hlater
        exact absurd (hlater.1 ▸ hisWord first List.mem_cons_self) hword
      · rw [heq]
        exact ⟨not_isWordChar_of_mem_marks hmark, word?_of_mem_marks hmark⟩
      · rw [heq]
        exact ⟨fun other hother => List.mem_singleton.mp hother ▸ hnot, rfl⟩
    rw [hchars.2, hlater]
    refine Blank.wordsBy_append_of_all (fun other hother => ?_) later
    rw [hchars.1 other hother]
    rfl

end Piece

/-- Scanning finds every run of word characters as one piece. -/
theorem runs_eq_filterMap (text : List Char) : Word.runs text = (scan text).filterMap Piece.word? := by
  induction hlength : text.length using Nat.strong_induction_on generalizing text with
  | _ length ih =>
      cases text with
      | nil => rw [scan_nil]; rfl
      | cons char rest =>
          obtain ⟨later, hlater, hshorter⟩ := Piece.exists_later char rest
          rw [scan_of_leading rfl later hlater, Piece.runs_leading_append hlater,
            ih later.length (hlength ▸ hshorter) later rfl, List.filterMap_cons]
          cases (Piece.leading char rest).word? <;> rfl

theorem mem_scan_of_mem_runs {text word : List Char} (hword : word ∈ Word.runs text) :
    .item (Piece.ofWord word) word ∈ scan text := by
  rw [runs_eq_filterMap, List.mem_filterMap] at hword
  obtain ⟨piece, hpiece, hword⟩ := hword
  obtain ⟨char, rest, hleading⟩ := mem_scan hpiece
  rcases Piece.leading_cases char rest with ⟨gap, heq, -, -⟩ | ⟨run, heq, -, hrun⟩ |
    ⟨mark, hmark, heq⟩ | ⟨heq, -, -, -⟩
  · rw [hleading, heq] at hword
    exact absurd hword.symm (Option.some_ne_none _)
  · rw [hleading, heq, Piece.word?, if_pos (List.all_eq_true.mpr hrun)] at hword
    obtain rfl := Option.some.inj hword
    rwa [hleading, heq] at hpiece
  · rw [hleading, heq, Piece.word?_of_mem_marks hmark] at hword
    exact absurd hword.symm (Option.some_ne_none _)
  · rw [hleading, heq] at hword
    exact absurd hword.symm (Option.some_ne_none _)

/-! ## Raw pieces -/

theorem standsAlone_eq_false_of_isWord {word : List Char}
    (hword : (Piece.ofWord word).isKeyword = false) :
    Line.standsAlone {} (.item (Piece.ofWord word) word) = false := by
  unfold Piece.ofWord at hword ⊢
  cases hfind : Piece.keywords.find? fun keyword => keyword.spelling = word with
  | some keyword =>
      rw [hfind] at hword
      have hkeyword := (List.mem_filter.mp (List.mem_of_find?_eq_some hfind)).2
      rw [hkeyword] at hword
      exact Bool.noConfusion hword
  | none =>
      simp only
      split <;> rfl

theorem isKeyword_eq_false_of_raw {token : Token} {text : List Char}
    (hraw : Line.standsAlone {} (.item token text) = false) : token.isKeyword = false := by
  cases token <;> first | rfl | exact Bool.noConfusion hraw

/-- Every piece of a text without entries is raw. -/
theorem HoldsNoEntry.standsAlone_eq_false {text : List Char} (hholds : HoldsNoEntry text) :
    ∀ piece ∈ scan text, Line.standsAlone {} piece = false := by
  intro piece hpiece
  obtain ⟨char, rest, rfl⟩ := mem_scan hpiece
  rcases Piece.leading_cases char rest with ⟨gap, heq, -, -⟩ | ⟨word, heq, hne, hword⟩ |
    ⟨mark, hmark, heq⟩ | ⟨heq, -, -, -⟩
  · rw [heq]
    rfl
  · rw [heq] at hpiece ⊢
    apply standsAlone_eq_false_of_isWord
    apply hholds.words
    rw [runs_eq_filterMap, List.mem_filterMap]
    exact ⟨_, hpiece, if_pos (List.all_eq_true.mpr hword)⟩
  · rw [heq] at hpiece
    have hoccurs := isInfix_of_mem_scan hpiece
    rcases Piece.eq_colons_of_mem_marks hmark with hcolons | ⟨other, hother, hmarkChar⟩
    · exact absurd (hcolons ▸ hoccurs) hholds.colons
    · rw [hholds.marks other (hoccurs.subset hother)] at hmarkChar
      exact Bool.noConfusion hmarkChar
  · rw [heq]
    rfl

theorem not_isInfix_colons_of_raw {text : List Char}
    (hraw : ∀ piece ∈ scan text, Line.standsAlone {} piece = false) :
    ¬"::".toList <:+: text := by
  induction hlength : text.length using Nat.strong_induction_on generalizing text with
  | _ length ih =>
      cases text with
      | nil => decide
      | cons char rest =>
          obtain ⟨later, hlater, hshorter⟩ := Piece.exists_later char rest
          rw [scan_of_leading rfl later hlater, List.forall_mem_cons] at hraw
          have hrest := ih later.length (hlength ▸ hshorter) hraw.2 rfl
          intro hoccurs
          rw [hlater] at hoccurs
          have hnot : ':' ∈ (Piece.leading char rest).text → Piece.leading char rest = .stray ':' ∧
              ¬"::".toList <+: char :: rest := by
            intro hcolon
            rcases Piece.leading_cases char rest with ⟨gap, heq, -, hgap⟩ |
              ⟨word, heq, -, hword⟩ | ⟨mark, hmark, heq⟩ | ⟨heq, -, -, hmarks⟩
            · rw [heq] at hcolon
              exact absurd (hgap _ hcolon) (by decide)
            · rw [heq] at hcolon
              exact absurd (hword _ hcolon) (by decide)
            · rw [heq] at hraw
              rw [Piece.standsAlone_of_mem_marks hmark] at hraw
              exact Bool.noConfusion hraw.1
            · rw [heq] at hcolon
              obtain rfl := List.mem_singleton.mp hcolon
              exact ⟨heq, hmarks (.colonColon, "::".toList) (by decide)⟩
          rcases isInfix_pair_append hoccurs with hfront | hback | ⟨hlast, hhead⟩
          · obtain ⟨heq, -⟩ := hnot (hfront.subset List.mem_cons_self)
            rw [heq] at hfront
            exact absurd hfront.length_le (by decide)
          · exact hrest hback
          · obtain ⟨heq, hstarts⟩ := hnot (List.mem_of_getLast? hlast)
            apply hstarts
            obtain ⟨more, rfl⟩ := List.head?_eq_some_iff.mp hhead
            rw [hlater, heq]
            exact List.prefix_append _ _

/-- A text whose pieces are all raw has no entry in it, so the condition can be checked on the
text. -/
theorem holdsNoEntry_of_raw {text : List Char}
    (hraw : ∀ piece ∈ scan text, Line.standsAlone {} piece = false) : HoldsNoEntry text where
  marks char hchar := by
    rw [← flatMap_scan text, List.mem_flatMap] at hchar
    obtain ⟨piece, hpiece, hmem⟩ := hchar
    exact Piece.isMarkChar_of_raw hpiece (hraw piece hpiece) char hmem
  colons := not_isInfix_colons_of_raw hraw
  words word hword := isKeyword_eq_false_of_raw (hraw _ (mem_scan_of_mem_runs hword))

/-! ## Layout -/

theorem not_isWordChar_of_isBlank {char : Char} (hblank : isBlank char) : !isWordChar char := by
  rw [Bool.not_eq_true', Bool.eq_false_iff]
  intro hword
  rw [isBlank_of_isWordChar hword] at hblank
  exact Bool.noConfusion hblank

theorem HoldsNoEntry.trim {text : List Char} (hholds : HoldsNoEntry text) :
    HoldsNoEntry (Blank.trim text) where
  marks char hchar := hholds.marks char ((Blank.trim_isInfix text).subset hchar)
  colons hoccurs := hholds.colons (hoccurs.trans (Blank.trim_isInfix text))
  words := by
    rw [Word.runs, Blank.wordsBy_trim fun _ => not_isWordChar_of_isBlank]
    exact hholds.words

/-- Squeezing makes no mark and no keyword: it joins no two characters. -/
theorem HoldsNoEntry.squeeze {text : List Char} (hholds : HoldsNoEntry text) :
    HoldsNoEntry (Blank.squeeze text) where
  marks char hchar := by
    rcases Blank.mem_of_mem_squeeze hchar with rfl | hmem
    · decide
    · exact hholds.marks char hmem
  colons hoccurs := hholds.colons (Blank.isInfix_of_isInfix_squeeze
    (Blank.not_isBlank_of_any (by decide)) hoccurs)
  words := by
    rw [Word.runs, Blank.wordsBy_squeeze fun _ => not_isWordChar_of_isBlank]
    exact hholds.words

/-- Raw text of a stream holds no entry, though it has been trimmed. -/
theorem holdsNoEntry_of_isRaw {code text : List Char} (hraw : Line.IsRaw {} (scan code) text) :
    HoldsNoEntry text := by
  obtain ⟨part, hpart, halone, rfl, -⟩ := hraw
  have hscan : scan (part.flatMap Piece.text) = part :=
    Cut.cut_flatMap_of_isInfix Piece.leading_isFront Piece.leading_isLocal hpart
  exact (holdsNoEntry_of_raw (hscan.symm ▸ halone)).trim

end ChuckLayout
