import ChuckLayout.Proofs.Relexing.Rows

/-!
# Raw text that merges

Where raw text goes on into the lexeme after it, the two are not read back: raw text that takes a
keyword in is read as longer raw text, and raw text that gives a colon away as shorter raw text, or as
none at all.
-/

namespace ChuckLayout

open Blank (AllBlank IsTight padding solid)
open Spacing
open Word (IsWord isWordChar)

/-! ## Raw text at the front of code -/

/-- Raw text that is pending, and not blank, is the front of the first lexeme. -/
theorem Line.exists_codeLexemes {raw : List Char} (hraw : ¬AllBlank raw) (pieces : List Piece) :
    ∃ more later, codeLexemes {} raw pieces =
      { token := .text, text := Blank.trim (raw ++ more) } :: later := by
  have hfragment : ∀ raw : List Char, ¬AllBlank raw →
      fragment raw = [{ token := .text, text := Blank.trim raw }] := by
    intro raw hraw
    rw [fragment, if_neg (Blank.isTight_trim hraw).ne_nil]
  induction pieces using pieces_induction {} generalizing raw with
  | nil => exact ⟨[], [], by rw [codeLexemes, List.append_nil, hfragment raw hraw]⟩
  | raw piece rest hpiece ih =>
      have hlonger : ¬AllBlank (raw ++ piece.text) :=
        fun hblank => hraw (Blank.allBlank_append.mp hblank).1
      obtain ⟨more, later, hlexemes⟩ := ih hlonger
      rw [codeLexemes_raw hpiece, hlexemes, List.append_assoc]
      exact ⟨_, _, rfl⟩
  | alone token text rest hpiece ih =>
      rw [codeLexemes_item hpiece, hfragment raw hraw]
      exact ⟨[], _, by rw [List.append_nil]; rfl⟩

/-- The word that a text ends in, and what comes before it. -/
theorem exists_run {text : List Char} (hlast : text.getLast?.any isWordChar) :
    ∃ front word, text = front ++ word ∧ IsWord word ∧ word ≠ [] ∧
      ∀ last, front.getLast? = some last → isWordChar last = false := by
  refine ⟨text.rdropWhile isWordChar, text.rtakeWhile isWordChar,
    List.rdropWhile_append_rtakeWhile.symm, fun char => List.mem_rtakeWhile_imp, ?_, ?_⟩
  · intro hnone
    have hne : text ≠ [] := by
      rintro rfl
      exact Bool.noConfusion hlast
    rw [List.getLast?_eq_some_getLast hne, Option.any_some] at hlast
    exact List.rtakeWhile_eq_nil_iff.mp hnone hne hlast
  · intro last hmem
    obtain ⟨hne, rfl⟩ := List.mem_getLast?_eq_getLast hmem
    exact Bool.eq_false_iff.mpr (List.rdropWhile_last_not isWordChar text hne)

/-! ## Keywords -/

/-- No keyword ends in another. -/
theorem isKeyword_ofWord_append {word : List Char} (hne : word ≠ []) {keyword : Token}
    (hkeyword : keyword.isKeyword) :
    (Piece.ofWord (word ++ keyword.spelling)).isKeyword = false := by
  have hall : ∀ keyword ∈ Piece.keywords, ∀ other ∈ Piece.keywords,
      keyword.spelling <:+ other.spelling → other.spelling.length = keyword.spelling.length := by
    decide
  have hmem : keyword ∈ Piece.keywords := List.mem_filter.mpr ⟨Token.mem_all keyword, hkeyword⟩
  rw [Piece.ofWord]
  cases hfind : Piece.keywords.find? fun other => other.spelling = word ++ keyword.spelling with
  | some other =>
      have hspelling : other.spelling = word ++ keyword.spelling := by
        simpa using List.find?_some hfind
      have hlength := hall keyword hmem other (List.mem_of_find?_eq_some hfind)
        ⟨word, hspelling.symm⟩
      rw [hspelling, List.length_append] at hlength
      exact absurd (List.length_eq_zero_iff.mp (by omega)) hne
  | none =>
      simp only
      split <;> rfl

variable {core back : List Char}

/-- The code is read as something else than these solid characters as raw text. -/
def StartsOtherwise (text code : List Char) : Prop :=
  ∃ lexeme later, codeOf code = lexeme :: later ∧ lexeme.token ≠ .newline ∧
    (lexeme.token = .text → solid lexeme.text ≠ solid text)

/-- A keyword that raw text goes on into is read as more of the raw text. -/
theorem exists_codeOf_keyword (hholds : HoldsNoEntry core) (hlast : core.getLast?.any isWordChar)
    {keyword : Token} (hkeyword : keyword.isKeyword)
    (hback : back.head?.all fun char => !isWordChar char) :
    ∃ more later, codeOf (core ++ (keyword.spelling ++ back)) =
      { token := .text, text := Blank.trim (core ++ keyword.spelling ++ more) } :: later := by
  obtain ⟨hisWord, hsome, -⟩ := Token.isWord_of_isKeyword hkeyword
  obtain ⟨front, word, rfl, hword, hne, hfront⟩ := exists_run hlast
  have hlonger : IsWord (word ++ keyword.spelling) := by
    intro char hchar
    rcases List.mem_append.mp hchar with hmem | hmem
    · exact hword char hmem
    · exact hisWord char hmem
  have hboundary : ∀ more, IsBoundary front (word ++ more) := by
    intro more last first hlast hfirst
    rw [List.head?_append_of_ne_nil _ hne] at hfirst
    rw [hfront last hlast, hword first (List.mem_of_head? hfirst)]
    exact Bool.noConfusion
  have hraw : ∀ piece ∈ scan front ++
      [.item (Piece.ofWord (word ++ keyword.spelling)) (word ++ keyword.spelling)],
        Line.standsAlone {} piece = false := by
    intro piece hpiece
    rcases List.mem_append.mp hpiece with hmem | hmem
    · refine hholds.standsAlone_eq_false piece ?_
      rw [← List.append_nil word, scan_append (hboundary [])]
      exact List.mem_append_left _ hmem
    · rw [List.mem_singleton.mp hmem]
      exact standsAlone_eq_false_of_isWord (isKeyword_ofWord_append hne hkeyword)
  have hscan : scan (front ++ word ++ (keyword.spelling ++ back)) =
      scan front ++ [.item (Piece.ofWord (word ++ keyword.spelling)) (word ++ keyword.spelling)] ++
        scan back := by
    rw [List.append_assoc, scan_append (hboundary _), ← List.append_assoc word,
      scan_word_append hlonger (by simp [hne]) hback, List.append_assoc, List.singleton_append]
  have htext : (scan front ++ [Piece.item (Piece.ofWord (word ++ keyword.spelling))
      (word ++ keyword.spelling)]).flatMap Piece.text = front ++ word ++ keyword.spelling := by
    rw [List.flatMap_append, flatMap_scan, List.flatMap_singleton, Piece.text, List.append_assoc]
  rw [codeOf, hscan, Line.codeLexemes_append_raw hraw, htext, List.nil_append]
  refine Line.exists_codeLexemes (fun hblank => ?_) _
  obtain ⟨char, rest, hchars⟩ := List.exists_cons_of_ne_nil hsome
  have hchar := hisWord char (hchars ▸ List.mem_cons_self)
  rw [hchars, Blank.allBlank_append, Blank.allBlank_cons, isBlank_of_isWordChar hchar] at hblank
  exact Bool.noConfusion hblank.2.1

/-! ## Colons -/

/-- Raw text that ends in a word grows together with a keyword right after it. -/
theorem startsOtherwise_keyword (hholds : HoldsNoEntry core)
    (hlast : core.getLast?.any isWordChar) {keyword : Token} (hkeyword : keyword.isKeyword)
    (hback : back.head?.all fun char => !isWordChar char) :
    StartsOtherwise core (core ++ (keyword.spelling ++ back)) := by
  obtain ⟨more, later, hcode⟩ := exists_codeOf_keyword hholds hlast hkeyword hback
  refine ⟨_, later, hcode, Token.noConfusion, fun _ hsame => ?_⟩
  rw [Blank.solid_trim, Blank.solid_append, Blank.solid_append, List.append_assoc,
    List.append_right_eq_self, List.append_eq_nil_iff, Blank.solid_eq_nil_iff] at hsame
  obtain ⟨hword, hne, -⟩ := Token.isWord_of_isKeyword hkeyword
  exact (hword.isTight hne).not_allBlank hsame.1

/-- No mark but two colons has a colon after its first character. -/
theorem Piece.joins_colon {last : Char} (hlast : last ≠ ':') : joins last ':' = false := by
  have hall : ∀ mark ∈ marks, (mark.2.drop 1).head? = some ':' → mark.2.head? = some ':' := by
    decide
  rw [joins_eq_goesOn (by decide), goesOn_eq_false_iff]
  intro mark more hmark
  exact hlast (Option.some.inj (hall _ hmark rfl))

/-- A colon that raw text ends in is read with the colon after it. -/
theorem exists_codeOf_colons (hholds : HoldsNoEntry (core ++ [':'])) (back : List Char) :
    ∃ later, codeOf (core ++ [':'] ++ ("::".toList ++ back)) =
      Line.fragment core ++ { token := .colonColon, text := "::".toList } :: later := by
  have hcolons : ∀ last, core.getLast? = some last → last ≠ ':' := by
    rintro last hlast rfl
    obtain ⟨front, rfl⟩ := List.getLast?_eq_some_iff.mp hlast
    exact hholds.colons ⟨front, [], by simp⟩
  have hcore : HoldsNoEntry core := by
    refine ⟨fun char hchar => hholds.marks char (List.mem_append_left _ hchar), ?_, ?_⟩
    · exact fun hoccurs => hholds.colons (hoccurs.trans (List.prefix_append _ _).isInfix)
    · have hruns : Word.runs (core ++ [':']) = Word.runs core := by
        rw [Word.runs, Blank.wordsBy_append_all (by simp [isWordChar]), Word.runs]
      rw [← hruns]
      exact hholds.words
  have hscan : scan (core ++ ("::".toList ++ ':' :: back)) =
      scan core ++ .item .colonColon "::".toList :: scan (':' :: back) := by
    have hmark : (Token.colonColon, "::".toList) ∈ Piece.marks := by decide
    rw [scan_raw_append hcore, scan_mark_append hmark]
    · rintro first ⟨rfl⟩
      decide
    · rintro last first - ⟨rfl⟩ -
      decide
    · rintro last first hlast ⟨rfl⟩
      exact Piece.joins_colon (hcolons last hlast)
  have hcode : core ++ [':'] ++ ("::".toList ++ back) = core ++ ("::".toList ++ ':' :: back) := by
    simp
  rw [hcode, codeOf, hscan, Line.codeLexemes_append_raw hcore.standsAlone_eq_false, flatMap_scan,
    Line.codeLexemes_item rfl]
  exact ⟨_, rfl⟩

/-- Raw text that ends in a colon gives it up to a double colon right after it, as the longest mark
is read first. -/
theorem startsOtherwise_colons (hholds : HoldsNoEntry core) (hlast : core.getLast? = some ':')
    (back : List Char) : StartsOtherwise core (core ++ ("::".toList ++ back)) := by
  obtain ⟨front, rfl⟩ := List.getLast?_eq_some_iff.mp hlast
  obtain ⟨later, hcode⟩ := exists_codeOf_colons hholds back
  rw [StartsOtherwise, hcode, Line.fragment]
  split
  · exact ⟨_, _, rfl, Token.noConfusion, Token.noConfusion⟩
  · refine ⟨_, _, rfl, Token.noConfusion, fun _ hsame => ?_⟩
    have hcolon : solid [':'] = [':'] := by decide
    rw [Blank.solid_trim, Blank.solid_append, hcolon] at hsame
    exact absurd hsame.symm (by simp)

/-! ## Rows -/

section

variable {stream : List Lexeme} {first second : Lexeme} {rest : List Lexeme}

/-- No space is between raw text and the lexeme that it merges with. -/
theorem not_isGapped_of_merges (hmerges : Merges first second) (stream : List Lexeme)
    (previous next : Option Lexeme) : isGapped stream previous first second next = false := by
  obtain ⟨htext, hsecond⟩ := hmerges
  have hafter : padsAfter previous first (some second) = false := by
    rw [padsAfter, htext]
    rfl
  rw [isGapped, hafter, Bool.false_or, padsBefore]
  rcases hsecond with ⟨-, hkeyword⟩ | ⟨-, hcolons⟩
  · generalize second.token = token at hkeyword
    cases token <;> first | rfl | exact Bool.noConfusion hkeyword
  · rw [hcolons]
    rfl

/-- Raw text that merges is read back as other raw text, or as no raw text at all. -/
theorem exists_lexAtoms_of_merges (hrow : IsRow (first :: second :: rest))
    (hmerges : Merges first second) {tail : List Atom} (htail : ahead tail = [])
    (previous : Option Lexeme) :
    ∃ lexeme later, lexAtoms [] (rowAtoms stream previous (first :: second :: rest) ++ tail) =
        lexeme :: later ∧ lexeme.token ≠ .newline ∧
      (lexeme.token = .text → solid lexeme.text ≠ solid first.text) := by
  have hgap := not_isGapped_of_merges hmerges stream previous rest.head?
  obtain ⟨htext, hsecond⟩ := hmerges
  have hshown := hrow.shown first (by simp)
  have hshown' := hrow.shown second (by simp)
  obtain ⟨hholds, -, hlast⟩ := hshown.core_of_text htext
  have hentry : second.token.isTableEntry := by
    rcases hsecond with ⟨-, hkeyword⟩ | ⟨-, hcolons⟩
    · revert hkeyword
      cases second.token <;> decide
    · rw [hcolons]
      rfl
  have hplaceholder : first.token ≠ .placeholder := by simp [htext]
  have hplaceholder' := (Token.ne_of_isTableEntry hentry).2
  have hotherwise : StartsOtherwise first.core (first.core ++ (second.core ++
      ahead ((padding (spaceAfter stream (some first) second rest)).map .char ++
        (rowAtoms stream (some second) rest ++ tail)))) := by
    rw [(Lexeme.core_of_isTableEntry hentry).2]
    rcases hsecond with ⟨hword, hkeyword⟩ | ⟨hcolon, hcolons⟩
    · exact startsOtherwise_keyword hholds (hlast ▸ hword) hkeyword
        (head?_ahead_of_isKeyword hkeyword htail (some first))
    · rw [hcolons]
      exact startsOtherwise_colons hholds (hlast.trans hcolon) _
  obtain ⟨lexeme, later, hcode, htoken, hsolid⟩ := hotherwise
  rw [rowAtoms_cons, spaceAfter, hgap, padding, if_neg Bool.false_ne_true, List.map_nil,
    List.nil_append, rowAtoms_cons, Lexeme.atoms_of_code hplaceholder,
    Lexeme.atoms_of_code hplaceholder', List.append_assoc, List.append_assoc, List.append_assoc,
    lexAtoms_append (hshown.lineFeed_not_mem_core hplaceholder),
    (ahead_append (hshown'.lineFeed_not_mem_core hplaceholder') _).1, hcode]
  refine ⟨lexeme, _, rfl, htoken, fun htext' => ?_⟩
  rw [← Blank.solid_squeeze first.text, ← (Lexeme.core_of_text htext).2]
  exact hsolid htext'

end

/-- Lexemes that stand in different rows do not merge. -/
theorem nothingMerges_of_rowsAfter {previous : Option Token} {lexemes : List Lexeme}
    (hrows : ∀ row ∈ rowsAfter previous lexemes, NothingMerges row) : NothingMerges lexemes := by
  have hends : ∀ first second : Lexeme, endsRow first.token ∨ endsRow second.token →
      ¬Merges first second := by
    rintro first second hends ⟨htext, hsecond⟩
    rcases hends with hends | hends
    · exact not_text_of_endsRow hends htext
    · rcases hsecond with ⟨-, hkeyword⟩ | ⟨-, hcolons⟩
      · revert hkeyword hends
        cases second.token <;> decide
      · rw [hcolons] at hends
        exact absurd hends (by decide)
  induction lexemes generalizing previous with
  | nil => exact .nil
  | cons lexeme rest ih =>
      rw [NothingMerges, List.isChain_cons]
      cases hendsRow : endsRow lexeme.token with
      | true =>
          have hlater : ∀ row ∈ rowsAfter (some lexeme.token) rest, NothingMerges row := by
            intro row hrow
            apply hrows row
            by_cases htoken : lexeme.token = .newline
            · rw [rowsAfter_lineBreak htoken]
              exact List.mem_cons_of_mem _ hrow
            · have hbrace : lexeme.token.isBrace := by
                simpa [endsRow, htoken] using hendsRow
              rw [rowsAfter_brace hbrace]
              exact List.mem_append_right _ (List.mem_cons_of_mem _ hrow)
          exact ⟨fun next _ => hends _ _ (Or.inl hendsRow), ih hlater⟩
      | false =>
          have hother : ∀ token, some lexeme.token = some token → token.isBrace = false := by
            rintro token ⟨rfl⟩
            exact (endsRow_eq_false_iff.mp hendsRow).2
          obtain ⟨row, later, hlater, hhead⟩ := rowsAfter_eq_cons (some lexeme.token) rest hother
          rw [rowsAfter_other hendsRow, hlater, List.modifyHead_cons, List.forall_mem_cons] at hrows
          obtain ⟨hpair, hrow⟩ := List.isChain_cons.mp hrows.1
          have hrest : NothingMerges rest := by
            apply ih
            rw [hlater]
            exact List.forall_mem_cons.mpr ⟨hrow, hrows.2⟩
          refine ⟨fun next hnext => ?_, hrest⟩
          rcases hhead with ⟨-, hnone⟩ | ⟨next', hnext', hrowHead, -⟩
          · exact hends _ _ (Or.inr (hnone next hnext))
          · obtain rfl := Option.some.inj (hnext.symm.trans hnext')
            exact hpair next hrowHead

end ChuckLayout
