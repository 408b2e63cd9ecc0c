import ChuckLayout.Proofs.Code.Between

/-!
# Gaps in the code

How wide a gap between two tokens is, and whether spaces or tabs make it up, changes nothing in the
layout.  A gap ends a word and any mark, or is swallowed by a sign; in raw text it is squeezed.  Main
statement: a source is formatted the same whichever gap stands at a place in its code.
-/

namespace ChuckLayout

open Blank (squeeze squeezeFrom)
open List (Forall₂)
open Lexeme (Corresponds)
open Spacing
open Word (isWordChar)

/-- A run of spaces and tabs, not empty. -/
structure IsGapRun (run : List Char) : Prop where
  ne_nil : run ≠ []
  blank : ∀ char ∈ run, char = ' ' ∨ char = '\t'

namespace IsGapRun

variable {run : List Char} (hrun : IsGapRun run)

include hrun

theorem exists_cons : ∃ char rest, run = char :: rest ∧ (char = ' ' ∨ char = '\t') := by
  obtain ⟨char, rest, rfl⟩ := List.exists_cons_of_ne_nil hrun.ne_nil
  exact ⟨char, rest, rfl, hrun.blank char List.mem_cons_self⟩

theorem isGap : ∀ char ∈ run, Piece.isGap char := by
  intro char hchar
  rcases hrun.blank char hchar with rfl | rfl <;> decide

theorem isHorizontal : ∀ char ∈ run, Blank.isHorizontal char := by
  intro char hchar
  rcases hrun.blank char hchar with rfl | rfl <;> decide

theorem not_mem {char : Char} (hspace : char ≠ ' ') (htab : char ≠ '\t') : char ∉ run := by
  intro hchar
  rcases hrun.blank char hchar with rfl | rfl
  · exact hspace rfl
  · exact htab rfl

theorem head?_append_ne {char : Char} (hspace : char ≠ ' ') (htab : char ≠ '\t')
    (back : List Char) : (run ++ back).head? ≠ some char := by
  obtain ⟨first, rest, rfl, hfirst⟩ := hrun.exists_cons
  rintro ⟨rfl⟩
  rcases hfirst with rfl | rfl
  · exact hspace rfl
  · exact htab rfl

end IsGapRun

/-! ## Reading across a gap -/

section

variable {gap gap' : List Char} (hgap : IsGapRun gap) (hgap' : IsGapRun gap')

include hgap'

/-- Whatever gap follows, the same opens before it. -/
theorem Scope.opening?_gap {scope : Scope} {char : Char} {front back : List Char}
    (hopening : scope.opening? char (front ++ (gap ++ back)).head? = none) :
    scope.opening? char (front ++ (gap' ++ back)).head? = none := by
  cases front with
  | cons first front => exact hopening
  | nil =>
      rw [List.nil_append, opening?_eq_none_iff] at hopening ⊢
      refine ⟨fun h => ?_, fun h => ?_, hopening.2.2⟩
      · exact hgap'.head?_append_ne (by decide) (by decide) back h.2
      · exact hgap'.head?_append_ne (by decide) (by decide) back h.2.1

include hgap in
/-- Another gap in the code is read in the same way as the first, and so is what stands around it. -/
theorem Reads.replace_gap {scope : Scope} {front back : List Char} {before after : List Segment}
    (hreads : Reads scope (front ++ (gap ++ back)) (before ++ (gap.map .code ++ after)))
    (hfront : before.flatMap Segment.text = front)
    (hclosed : ∀ kind char, .unclosed kind char ∉ before) :
    Reads scope (front ++ (gap' ++ back)) (before ++ (gap'.map .code ++ after)) := by
  induction before generalizing front with
  | nil =>
      obtain rfl : front = [] := hfront.symm
      rw [List.nil_append, List.nil_append] at hreads
      rw [List.nil_append, List.nil_append]
      have hback : Reads scope back after := hreads.of_code_append
      have hslash : '/' ∉ gap' := hgap'.not_mem (by decide) (by decide)
      have hquote : '\"' ∉ gap' := hgap'.not_mem (by decide) (by decide)
      exact reads_code_append (opensNothing_of_ne hslash (fun h => absurd h hquote) _) hback
  | cons segment before ih =>
      have hlater : ∀ kind char, Segment.unclosed kind char ∉ before :=
        fun kind char hmem => hclosed kind char (List.mem_cons_of_mem _ hmem)
      rw [List.flatMap_cons] at hfront
      obtain ⟨rest, rfl⟩ : ∃ rest, front = segment.text ++ rest := ⟨_, hfront.symm⟩
      rw [List.append_assoc] at hreads
      have hrest := List.append_cancel_left hfront
      generalize htext : segment.text ++ (rest ++ (gap ++ back)) = text at hreads
      cases hreads with
      | unclosed hopening hliteral htail =>
          exact absurd List.mem_cons_self (hclosed _ _)
      | code hopening htail =>
          obtain rfl := (List.cons.inj htext).2
          exact .code (Scope.opening?_gap hgap' hopening) (ih htail hrest hlater)
      | @literal _ kind char tail _ _ hopening hliteral htail =>
          obtain rfl := List.append_cancel_left htext
          obtain ⟨next, tail, rfl⟩ :=
            List.exists_cons_of_ne_nil (Segment.tail_ne_nil hopening hliteral)
          obtain ⟨blank, later, rfl, hblank⟩ := hgap.exists_cons
          have hfeed : blank ≠ '\n' := by rcases hblank with rfl | rfl <;> decide
          have hliteral' : Segment.literalAt? (char :: next :: tail ++ (rest ++ (gap' ++ back))) kind =
              some (char :: next :: tail) := by
            rw [← List.append_assoc] at hliteral ⊢
            exact Segment.literalAt?_of_head? (by simp) hfeed (List.prefix_append _ rest) hliteral
          have hopening' : scope.opening? char (next :: tail ++ (rest ++ (gap' ++ back))).head? =
              some kind := hopening
          rw [List.append_assoc]
          exact .literal hopening' hliteral' (ih htail hrest hlater)

end

/-! ## Lexemes that show alike -/

/-- Raw texts look the same once they are squeezed, literals are the same, and table entries are
written as their tokens call for. -/
structure ShowsAlike (first second : Token × List Char) : Prop where
  token : first.1 = second.1
  literal : first.1 = .placeholder → first.2 = second.2
  squeeze : first.1 = .text → squeeze first.2 = squeeze second.2
  head : first.1 = .text → first.2.head? = second.2.head?

namespace ShowsAlike

theorem refl (item : Token × List Char) : ShowsAlike item item :=
  ⟨rfl, fun _ => rfl, fun _ => rfl, fun _ => rfl⟩

/-- Items that look alike belong to lexemes with the same spaces around them. -/
theorem keepsSpacing : KeepsSpacing ShowsAlike := by
  intro first second halike
  have htoken : first.token = second.token := halike.token
  refine ⟨htoken, by rw [htoken], by rw [htoken], by rw [htoken], fun htext => ?_, halike.head⟩
  rw [← Blank.lastWord_squeeze, ← Blank.lastWord_squeeze second.text]
  exact congrArg Blank.lastWord (halike.squeeze htext)

theorem core_eq {first second : Lexeme} (halike : ShowsAlike first.item second.item) :
    first.core = second.core := by
  have htoken : first.token = second.token := halike.token
  by_cases htext : first.token = .text
  · rw [(Lexeme.core_of_text htext).2, (Lexeme.core_of_text (htoken ▸ htext)).2]
    exact halike.squeeze htext
  · by_cases hplaceholder : first.token = .placeholder
    · rw [(Lexeme.core_of_placeholder hplaceholder).2,
        (Lexeme.core_of_placeholder (htoken ▸ hplaceholder)).2]
      exact halike.literal hplaceholder
    · have hentry : first.token.isTableEntry := by
        revert htext hplaceholder
        cases first.token <;> decide
      rw [(Lexeme.core_of_isTableEntry hentry).2, (Lexeme.core_of_isTableEntry (htoken ▸ hentry)).2,
        htoken]

theorem forall₂_atoms (first second : Lexeme) (halike : ShowsAlike first.item second.item) :
    Forall₂ (Atom.Matches Eq) first.atoms second.atoms := by
  have htoken : first.token = second.token := halike.token
  rw [Lexeme.atoms, Lexeme.atoms, ← htoken, halike.core_eq]
  split
  · rename_i hplaceholder
    exact .cons (.literal (halike.literal hplaceholder)) .nil
  · exact forall₂_matches_chars _

theorem forall₂_self (lexemes : List Lexeme) : Forall₂ (Corresponds ShowsAlike) lexemes lexemes :=
  List.forall₂_same.mpr fun lexeme _ => ⟨.refl lexeme.item, rfl, rfl, rfl⟩

end ShowsAlike

theorem eq_of_matches_eq {found others : List Atom}
    (hmatches : Forall₂ (Atom.Matches Eq) found others) : found = others := by
  induction hmatches with
  | nil => rfl
  | cons hatom _ ih =>
      rw [ih]
      cases hatom with
      | char char => rfl
      | literal hsame => rw [hsame]

/-! ## Lexing across a gap -/

namespace Line

/-- Raw texts that are squeezed to the same make up fragments that show alike. -/
theorem forall₂_fragment {raw raw' : List Char} (hraw : squeeze raw = squeeze raw') :
    Forall₂ (Corresponds ShowsAlike) (fragment raw) (fragment raw') := by
  have hcontent : squeeze (Blank.trim raw) = squeeze (Blank.trim raw') := by
    rw [Blank.squeeze_trim, Blank.squeeze_trim, Blank.content, Blank.content, hraw]
  have hblank : Blank.trim raw = [] ↔ Blank.trim raw' = [] := by
    rw [Blank.trim_eq_nil_iff, Blank.trim_eq_nil_iff, ← Blank.solid_eq_nil_iff, ← Blank.solid_eq_nil_iff,
      ← Blank.solid_squeeze, hraw, Blank.solid_squeeze]
  rw [fragment, fragment]
  by_cases hnil : Blank.trim raw = []
  · rw [if_pos hnil, if_pos (hblank.mp hnil)]
    exact .nil
  · have htight : ∀ text, Blank.trim text ≠ [] → Blank.IsTight (Blank.trim text) :=
      fun text hne => Blank.isTight_trim fun h => hne (Blank.trim_eq_nil_iff.mpr h)
    rw [if_neg hnil, if_neg (mt hblank.mpr hnil)]
    refine .cons ⟨⟨rfl, fun _ => ?_, fun _ => hcontent, fun _ => ?_⟩, rfl, rfl, rfl⟩ .nil
    · contradiction
    · have hhead := congrArg List.head? hcontent
      rwa [Blank.head?_squeeze (htight raw hnil), Blank.head?_squeeze (htight raw' (mt hblank.mpr hnil))]
        at hhead

/-- Raw texts that are the same when squeezed lead to lexemes that look alike. -/
theorem forall₂_codeLexemes {raw raw' : List Char} (hraw : squeeze raw = squeeze raw')
    (pieces : List Piece) :
    Forall₂ (Corresponds ShowsAlike) (codeLexemes {} raw pieces) (codeLexemes {} raw' pieces) := by
  induction pieces using pieces_induction {} generalizing raw raw' with
  | nil => exact forall₂_fragment hraw
  | raw piece rest hpiece ih =>
      rw [codeLexemes_raw hpiece, codeLexemes_raw hpiece]
      exact ih (Blank.squeeze_append_of_eq hraw _)
  | alone token text rest hpiece ih =>
      rw [codeLexemes_item hpiece, codeLexemes_item hpiece]
      exact List.rel_append (forall₂_fragment hraw) (.cons ⟨.refl _, rfl, rfl, rfl⟩ (ih rfl))

end Line

/-- A gap runs on to the next character that belongs to no gap. -/
theorem scan_gap_append {run : List Char} (hne : run ≠ []) (hrun : ∀ char ∈ run, Piece.isGap char)
    (back : List Char) :
    scan (run ++ back) =
      .gap (run ++ back.takeWhile Piece.isGap) :: scan (back.dropWhile Piece.isGap) := by
  obtain ⟨char, rest, rfl⟩ := List.exists_cons_of_ne_nil hne
  obtain ⟨hchar, hrest⟩ := List.forall_mem_cons.mp hrun
  have hleading : Piece.leading char (rest ++ back) =
      .gap (char :: rest ++ back.takeWhile Piece.isGap) := by
    rw [Piece.leading, if_pos hchar, List.takeWhile_append_of_pos hrest, List.cons_append]
  refine scan_of_leading hleading _ ?_
  rw [Piece.text, List.append_assoc, List.takeWhile_append_dropWhile, List.cons_append]

theorem codeOf_gap_append {run : List Char} (hrun : ∀ char ∈ run, Piece.isGap char)
    (code : List Char) : codeOf (run ++ code) = codeOf code := by
  induction run with
  | nil => rfl
  | cons char run ih =>
      obtain ⟨hchar, hrest⟩ := List.forall_mem_cons.mp hrun
      rw [List.cons_append, codeOf_gap_cons hchar, ih hrest]

/-- Only a sign takes a blank along. -/
theorem Piece.eq_sign_of_goesOn {text : List Char} {blank : Char} (hblank : blank = ' ' ∨ blank = '\t')
    (hgoes : goesOn text blank) : text = ['+'] ∨ text = ['-'] := by
  have hall : ∀ mark ∈ marks, ' ' ∈ mark.2 ∨ '\t' ∈ mark.2 →
      mark.2.length = 2 ∧ (mark.2.head? = some '+' ∨ mark.2.head? = some '-') := by
    decide
  obtain ⟨mark, more, hmark⟩ := goesOn_iff.mp hgoes
  obtain ⟨hlength, hhead⟩ := hall _ hmark (by rcases hblank with rfl | rfl <;> simp)
  cases text with
  | nil => rcases hblank with rfl | rfl <;> exact absurd hhead (by simp)
  | cons char text =>
      obtain rfl : text = [] := by
        refine List.length_eq_zero_iff.mp ?_
        simp only [List.length_append, List.length_cons] at hlength
        omega
      simpa using hhead

section

variable {gap gap' : List Char} (hgap : IsGapRun gap) (hgap' : IsGapRun gap')

include hgap

/-- A sign swallows the first blank of a gap and leaves the rest to be skipped. -/
theorem Line.exists_codeLexemes_sign {sign : Char} {token : Token}
    (hsign : sign = '+' ∧ token = .plusSpaced ∨ sign = '-' ∧ token = .minusSpaced)
    (raw back : List Char) :
    ∃ blank, codeLexemes {} raw (scan (sign :: (gap ++ back))) =
      fragment raw ++ { token, text := [sign, blank] } :: codeOf back := by
  obtain ⟨blank, rest, rfl, hblank⟩ := hgap.exists_cons
  have hleading : Piece.leading sign (blank :: rest ++ back) = .item token [sign, blank] := by
    rcases hsign with ⟨rfl, rfl⟩ | ⟨rfl, rfl⟩ <;> rcases hblank with rfl | rfl <;> rfl
  have halone : standsAlone {} (.item token [sign, blank]) := by
    rcases hsign with ⟨-, rfl⟩ | ⟨-, rfl⟩ <;> rfl
  have hrest : codeLexemes {} [] (scan (rest ++ back)) = codeOf back :=
    codeOf_gap_append (fun char hchar => hgap.isGap char (List.mem_cons_of_mem _ hchar)) back
  refine ⟨blank, ?_⟩
  rw [scan_of_leading hleading (rest ++ back) rfl, codeLexemes_item halone, hrest]

/-- Code that is neither a sign nor all gap is cut alike whatever gap follows. -/
theorem Piece.leading_append_gap {char : Char} {rest : List Char}
    (hcode : ¬∀ other ∈ char :: rest, isGap other)
    (hsign : ¬(char :: rest = ['+'] ∨ char :: rest = ['-'])) (back : List Char) :
    leading char (rest ++ (gap ++ back)) = leading char rest := by
  obtain ⟨blank, later, rfl, hblank⟩ := hgap.exists_cons
  refine leading_append_of (fun hchar => ?_) (fun _ => ?_) fun mark hmark => ?_
  · refine takeWhile_append_of_stop fun hrest => ?_
    have hall : ∀ other ∈ char :: rest, isGap other := List.forall_mem_cons.mpr ⟨hchar, hrest⟩
    exact absurd hall hcode
  · refine takeWhile_append_of_stop fun _ first hfirst => ?_
    obtain rfl : blank = first := by simpa using hfirst
    exact isWordChar_of_isGap (hgap.isGap blank List.mem_cons_self)
  · refine isPrefix_of_goesOn (fun first hfirst => ?_) hmark
    obtain rfl : blank = first := by simpa using hfirst
    exact Bool.eq_false_iff.mpr fun hgoes => hsign (eq_sign_of_goesOn hblank hgoes)

include hgap'

theorem squeeze_gap {front front' : List Char} (hfront : squeeze front = squeeze front')
    (back : List Char) : squeeze (front ++ (gap ++ back)) = squeeze (front' ++ (gap' ++ back)) := by
  rw [Blank.squeeze_append_of_eq hfront]
  refine Blank.squeezeFrom_append_congr (fun afterBlank => ?_) false front'
  rw [Blank.squeezeFrom_run_append hgap.ne_nil hgap.isHorizontal,
    Blank.squeezeFrom_run_append hgap'.ne_nil hgap'.isHorizontal]

/-- A gap after a gap is part of a longer one, which the raw text takes in. -/
theorem Line.forall₂_codeLexemes_run {raw raw' : List Char} (hraw : squeeze raw = squeeze raw')
    {code : List Char} (hcode : ∀ char ∈ code, Piece.isGap char) (back : List Char) :
    Forall₂ (Corresponds ShowsAlike) (codeLexemes {} raw (scan (code ++ (gap ++ back))))
      (codeLexemes {} raw' (scan (code ++ (gap' ++ back)))) := by
  have hscan : ∀ run, IsGapRun run → scan (code ++ (run ++ back)) =
      .gap (code ++ run ++ back.takeWhile Piece.isGap) :: scan (back.dropWhile Piece.isGap) := by
    intro run hrun
    rw [← List.append_assoc]
    refine scan_gap_append (by simp [hrun.ne_nil]) (fun char hchar => ?_) back
    exact (List.mem_append.mp hchar).elim (hcode char) (hrun.isGap char)
  rw [hscan gap hgap, hscan gap' hgap', codeLexemes_raw rfl, codeLexemes_raw rfl]
  refine forall₂_codeLexemes ?_ _
  rw [Piece.text, Piece.text, List.append_assoc, List.append_assoc, ← List.append_assoc raw,
    ← List.append_assoc raw']
  exact squeeze_gap hgap hgap' (Blank.squeeze_append_of_eq hraw code) _

/-- A sign swallows the first blank of the gap after it, whatever the gap is, and leaves the rest to
be skipped. -/
theorem Line.forall₂_codeLexemes_sign {raw raw' : List Char} (hraw : squeeze raw = squeeze raw')
    {code : List Char} (hsign : code = ['+'] ∨ code = ['-']) (back : List Char) :
    Forall₂ (Corresponds ShowsAlike) (codeLexemes {} raw (scan (code ++ (gap ++ back))))
      (codeLexemes {} raw' (scan (code ++ (gap' ++ back)))) := by
  obtain ⟨sign, token, rfl, hentry⟩ : ∃ sign token, code = [sign] ∧
      (sign = '+' ∧ token = Token.plusSpaced ∨ sign = '-' ∧ token = .minusSpaced) := by
    rcases hsign with rfl | rfl
    · exact ⟨_, _, rfl, Or.inl ⟨rfl, rfl⟩⟩
    · exact ⟨_, _, rfl, Or.inr ⟨rfl, rfl⟩⟩
  obtain ⟨blank, hlexed⟩ := exists_codeLexemes_sign hgap hentry raw back
  obtain ⟨blank', hlexed'⟩ := exists_codeLexemes_sign hgap' hentry raw' back
  have halike : ShowsAlike (token, [sign, blank]) (token, [sign, blank']) := by
    refine ⟨rfl, fun h => ?_, fun h => ?_, fun _ => rfl⟩
    all_goals rcases hentry with ⟨-, rfl⟩ | ⟨-, rfl⟩ <;> exact Token.noConfusion h
  rw [List.singleton_append, List.singleton_append, hlexed, hlexed']
  exact List.rel_append (forall₂_fragment hraw)
    (.cons ⟨halike, rfl, rfl, rfl⟩ (ShowsAlike.forall₂_self _))

/-- Code is lexed alike whichever gap stands in it. -/
theorem Line.forall₂_codeLexemes_gap {raw raw' : List Char} (hraw : squeeze raw = squeeze raw')
    (code back : List Char) :
    Forall₂ (Corresponds ShowsAlike) (codeLexemes {} raw (scan (code ++ (gap ++ back))))
      (codeLexemes {} raw' (scan (code ++ (gap' ++ back)))) := by
  induction hlength : code.length using Nat.strong_induction_on generalizing code raw raw' with
  | _ length ih =>
      by_cases hcode : ∀ char ∈ code, Piece.isGap char
      · exact forall₂_codeLexemes_run hgap hgap' hraw hcode back
      by_cases hsign : code = ['+'] ∨ code = ['-']
      · exact forall₂_codeLexemes_sign hgap hgap' hraw hsign back
      -- The first piece ends before the gap, so the gap stands in what is left.
      obtain ⟨char, rest, rfl⟩ : ∃ char rest, code = char :: rest := by
        apply List.exists_cons_of_ne_nil
        rintro rfl
        exact hcode fun _ hchar => absurd hchar List.not_mem_nil
      obtain ⟨later, hlater, hshorter⟩ := Piece.exists_later char rest
      have hscan : ∀ run, IsGapRun run → scan (char :: rest ++ (run ++ back)) =
          Piece.leading char rest :: scan (later ++ (run ++ back)) := by
        intro run hrun
        refine scan_of_leading (Piece.leading_append_gap hrun hcode hsign back) _ ?_
        rw [← List.append_assoc (Piece.text _), ← hlater, List.cons_append]
      have hlast : ∀ {raw raw' : List Char}, squeeze raw = squeeze raw' → _ :=
        fun hraw => ih later.length (hlength ▸ hshorter) hraw later rfl
      rw [hscan gap hgap, hscan gap' hgap']
      cases hpiece : standsAlone {} (Piece.leading char rest) with
      | false =>
          rw [codeLexemes_raw hpiece, codeLexemes_raw hpiece]
          exact hlast (Blank.squeeze_append_of_eq hraw _)
      | true =>
          obtain ⟨token, text, hitem⟩ := exists_item_of_standsAlone hpiece
          rw [hitem] at hpiece ⊢
          rw [codeLexemes_item hpiece, codeLexemes_item hpiece]
          exact List.rel_append (forall₂_fragment hraw) (.cons ⟨.refl _, rfl, rfl, rfl⟩ (hlast rfl))

end

/-! ## Canonical spacing -/

/-- Which gap stands at a place in the code, and how wide it is, changes nothing in the formatted
source. -/
theorem tidy_gap {front gap gap' back : List Char} (hcode : IsCodeBetween front gap back)
    (hclosed : WellClosed (front ++ gap ++ back)) (hgap : IsGapRun gap) (hgap' : IsGapRun gap') :
    Document.tidy (front ++ gap ++ back) = Document.tidy (front ++ gap' ++ back) := by
  obtain ⟨before, after, hfound, hfront⟩ := hcode
  have hbefore : ∀ kind char, Segment.unclosed kind char ∉ before := by
    intro kind char hmem
    exact hclosed kind char (by rw [hfound]; simp [hmem])
  have hreads := reads_iff.mpr hfound
  rw [List.append_assoc, List.append_assoc] at hreads
  have hfound' := (hreads.replace_gap hgap hgap' hfront hbefore).segments_eq
  rw [← List.append_assoc, ← List.append_assoc] at hfound'
  have hatoms : ∀ run, segments .all (front ++ run ++ back) = before ++ run.map .code ++ after →
      atoms (front ++ run ++ back) =
        before.map Segment.atom ++ run.map .char ++ after.map Segment.atom := by
    intro run hrun
    rw [atoms, hrun, List.map_append, List.map_append, map_atom_code]
  have hlexed : Forall₂ (Corresponds ShowsAlike) (lexAtoms [] (atoms (front ++ gap ++ back)))
      (lexAtoms [] (atoms (front ++ gap' ++ back))) := by
    rw [hatoms gap hfound, hatoms gap' hfound',
      lexAtoms_around (hgap.not_mem (by decide) (by decide)),
      lexAtoms_around (hgap'.not_mem (by decide) (by decide))]
    exact List.rel_append (ShowsAlike.forall₂_self _)
      (List.rel_append (Line.forall₂_codeLexemes_gap hgap hgap' rfl _ _) (ShowsAlike.forall₂_self _))
  have hprinted := printAtoms_forall₂_of_lexAtoms ShowsAlike.keepsSpacing ShowsAlike.forall₂_atoms hlexed
  rw [tidy_eq_spell, tidy_eq_spell, eq_of_matches_eq hprinted]

/-- The sign swallows the first blank of the gap, which is a tab or a space, after a brace that is
never closed and before a string. -/
theorem tidy_gap_after_sign :
    let front := "\x7bx+".toList
    let gap := "\t ".toList
    let gap' := " ".toList
    let back := "y\"  \"".toList
    (IsCodeBetween front gap back ∧ WellClosed (front ++ gap ++ back) ∧ IsGapRun gap ∧
      IsGapRun gap') ∧
        Document.tidy (front ++ gap ++ back) = Document.tidy (front ++ gap' ++ back) := by
  intro front gap gap' back
  have hstring : Reads .all ('\"' :: "  \"".toList ++ []) [.literal .string "\"  \"".toList] :=
    .literal rfl rfl (.done .all)
  have hreads : Reads .all (front ++ gap ++ back) _ :=
    .code rfl (.code rfl (.code rfl (.code rfl (.code rfl (.code rfl hstring)))))
  have hcode : IsCodeBetween front gap back :=
    ⟨front.map .code, [.code 'y', .literal .string "\"  \"".toList], hreads.segments_eq, rfl⟩
  have hclosed : WellClosed (front ++ gap ++ back) := by
    intro kind char
    rw [hreads.segments_eq]
    simp
  have hgap : IsGapRun gap := ⟨List.cons_ne_nil _ _, by simp [gap]⟩
  have hgap' : IsGapRun gap' := ⟨List.cons_ne_nil _ _, by simp [gap']⟩
  exact ⟨⟨hcode, hclosed, hgap, hgap'⟩, tidy_gap hcode hclosed hgap hgap'⟩

end ChuckLayout
