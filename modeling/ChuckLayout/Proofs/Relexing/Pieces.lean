import ChuckLayout.Proofs.Layout.Rows
import ChuckLayout.Proofs.Relexing.Raw

/-!
# Lexemes are read back

A lexeme that has been laid out is read back from the text, as long as neither a mark nor a word goes
on into what follows it.  A sign takes the space after it along.
-/

namespace ChuckLayout

open Blank (IsTight AllBlank padding)
open Word (IsWord isWordChar)

/-! ## Where marks and words go on -/

namespace Piece

/-- A mark goes on after the text with this character. -/
def goesOn (text : List Char) (first : Char) : Bool :=
  marks.any fun mark => (text ++ [first]).isPrefixOf mark.2

/-- The two characters can be part of one word, or of one mark that starts with them. -/
def joins (last first : Char) : Bool :=
  isWordChar last && isWordChar first || goesOn [last] first

theorem goesOn_iff {text : List Char} {first : Char} :
    goesOn text first ↔ ∃ token rest, (token, text ++ first :: rest) ∈ marks := by
  rw [goesOn, List.any_eq_true]
  constructor
  · rintro ⟨⟨token, spelling⟩, hmark, hstarts⟩
    obtain ⟨rest, rfl⟩ := List.isPrefixOf_iff_prefix.mp hstarts
    rw [List.append_assoc] at hmark
    exact ⟨token, rest, hmark⟩
  · rintro ⟨token, rest, hmark⟩
    exact ⟨_, hmark, List.isPrefixOf_iff_prefix.mpr ⟨rest, List.append_assoc _ _ _⟩⟩

theorem goesOn_eq_false_iff {text : List Char} {first : Char} :
    goesOn text first = false ↔ ∀ token rest, (token, text ++ first :: rest) ∉ marks := by
  rw [Bool.eq_false_iff, ne_eq, goesOn_iff, not_exists]
  exact forall_congr' fun token => not_exists

/-- Only a mark can go on with a character that belongs to no word. -/
theorem joins_eq_goesOn {last first : Char} (hfirst : isWordChar first = false) :
    joins last first = goesOn [last] first := by
  rw [joins, hfirst, Bool.and_false, Bool.false_or]

/-- A mark that no character goes on from is the longest one, whatever follows. -/
theorem isPrefix_of_goesOn {text back : List Char}
    (hback : ∀ first, back.head? = some first → goesOn text first = false)
    {mark : Token × List Char} (hmark : mark ∈ marks) (hstarts : mark.2 <+: text ++ back) :
    mark.2 <+: text := by
  rcases List.prefix_or_prefix_of_prefix hstarts (List.prefix_append text back) with hshort | hlong
  · exact hshort
  · obtain ⟨later, hlater⟩ := hlong
    cases later with
    | nil => rw [← hlater, List.append_nil]
    | cons first later =>
        rw [← hlater, List.prefix_append_right_inj] at hstarts
        obtain ⟨more, rfl⟩ := hstarts
        refine absurd ?_ (goesOn_eq_false_iff.mp (hback first rfl) mark.1 later)
        rw [hlater]
        exact hmark

theorem head?_of_mem_marks {mark : Token × List Char} (hmark : mark ∈ marks) :
    ∃ char tail, mark.2 = char :: tail ∧ isGap char = false ∧ isWordChar char = false := by
  have hall : ∀ mark ∈ marks, mark.2.head?.all fun char => !isGap char && !isWordChar char := by
    decide
  obtain ⟨char, tail, htext⟩ := List.exists_cons_of_ne_nil (ne_nil_of_mem_marks hmark)
  have hchar := hall mark hmark
  rw [htext] at hchar
  exact ⟨char, tail, htext, by simpa using hchar⟩

end Piece

/-- The mark is read where the text is followed by nothing that a mark goes on with. -/
theorem scan_mark_append {token : Token} {text back : List Char} (hmark : (token, text) ∈ Piece.marks)
    (hback : ∀ first, back.head? = some first → Piece.goesOn text first = false) :
    scan (text ++ back) = .item token text :: scan back := by
  have hfind : ∀ mark ∈ Piece.marks,
      (Piece.marks.find? fun other => other.2.isPrefixOf mark.2) = some mark := by
    decide
  obtain ⟨char, tail, htext, hgap, hword⟩ := Piece.head?_of_mem_marks hmark
  obtain rfl : text = char :: tail := htext
  have hleading : Piece.leading char tail = .item token (char :: tail) := by
    rw [Piece.leading, hgap, hword, if_neg Bool.false_ne_true, if_neg Bool.false_ne_true,
      hfind _ hmark]
  have hlonger : Piece.leading char (tail ++ back) = .item token (char :: tail) := by
    rw [← hleading]
    refine Piece.leading_append_of (fun h => ?_) (fun h => ?_)
      fun other hother => Piece.isPrefix_of_goesOn hback hother
    · rw [hgap] at h
      exact Bool.noConfusion h
    · rw [hword] at h
      exact Bool.noConfusion h
  exact scan_of_leading hlonger back rfl

theorem Token.isWord_of_isKeyword {token : Token} (hkeyword : token.isKeyword) :
    IsWord token.spelling ∧ token.spelling ≠ [] ∧ Piece.ofWord token.spelling = token := by
  have hall : ∀ token ∈ all, token.isKeyword →
      token.spelling.all isWordChar ∧ token.spelling ≠ [] ∧
        Piece.keywords.find? (fun keyword => keyword.spelling = token.spelling) = some token := by
    decide
  obtain ⟨hword, hne, hfind⟩ := hall token (mem_all token) hkeyword
  refine ⟨List.all_eq_true.mp hword, hne, ?_⟩
  rw [Piece.ofWord, hfind]

/-- The word is read where the text is followed by no part of a word. -/
theorem scan_word_append {word back : List Char} (hword : IsWord word) (hne : word ≠ [])
    (hback : back.head?.all fun char => !isWordChar char) :
    scan (word ++ back) = .item (Piece.ofWord word) word :: scan back := by
  have hboundary : IsBoundary word back := by
    intro last first hlast hfirst
    rw [hfirst, Option.all_some, Bool.not_eq_true'] at hback
    rw [hback, hword last (List.mem_of_getLast? hlast)]
    exact Bool.noConfusion
  rw [scan_append hboundary, scan_word hword hne, List.singleton_append]

/-! ## Code that starts with what stands alone -/

def StartsAlone (code : List Char) : Prop :=
  ∀ piece, (scan code).head? = some piece → Line.standsAlone {} piece

theorem startsAlone_nil : StartsAlone [] := by
  intro piece hpiece
  rw [scan_nil] at hpiece
  exact absurd hpiece.symm (Option.some_ne_none _)

theorem codeOf_of_scan {code back : List Char} {token : Token} {text : List Char}
    (hscan : scan code = .item token text :: scan back)
    (halone : Line.standsAlone {} (.item token text)) :
    codeOf code = { token, text } :: codeOf back := by
  rw [codeOf, hscan, Line.codeLexemes_item halone]
  rfl

namespace Line

theorem codeLexemes_append_raw {table : LiteralTable} {front : List Piece}
    (hfront : ∀ piece ∈ front, standsAlone table piece = false) (raw : List Char)
    (back : List Piece) : codeLexemes table raw (front ++ back) =
      codeLexemes table (raw ++ front.flatMap Piece.text) back := by
  induction front generalizing raw with
  | nil => rw [List.nil_append, List.flatMap_nil, List.append_nil]
  | cons piece front ih =>
      obtain ⟨hpiece, hrest⟩ := List.forall_mem_cons.mp hfront
      rw [List.cons_append, codeLexemes_raw hpiece, ih hrest, List.flatMap_cons, List.append_assoc]

/-- What stands alone ends the raw text before it. -/
theorem codeLexemes_of_startsAlone {code : List Char} (halone : StartsAlone code)
    (raw : List Char) : codeLexemes {} raw (scan code) = fragment raw ++ codeOf code := by
  have hstarts := halone
  rw [StartsAlone] at hstarts
  rw [codeOf]
  cases hscan : scan code with
  | nil => rw [codeLexemes, codeLexemes]; exact (List.append_nil _).symm
  | cons piece rest =>
      have hpiece := hstarts piece (by rw [hscan]; rfl)
      obtain ⟨token, text, rfl⟩ := exists_item_of_standsAlone hpiece
      rw [codeLexemes_item hpiece, codeLexemes_item hpiece]
      rfl

end Line

/-- A space before a piece that stands alone is lexed as nothing. -/
theorem StartsAlone.codeLexemes_space {code : List Char} (halone : StartsAlone code)
    (raw : List Char) :
    Line.codeLexemes {} raw (scan (' ' :: code)) = Line.fragment raw ++ codeOf code := by
  have hgap : code.takeWhile Piece.isGap = [] := by
    cases code with
    | nil => rfl
    | cons char rest =>
        apply List.takeWhile_cons_of_neg
        intro hchar
        have hleading : Piece.leading char rest = .gap (char :: rest.takeWhile Piece.isGap) := by
          rw [Piece.leading, if_pos hchar]
        obtain ⟨later, hlater, -⟩ := Piece.exists_later char rest
        have hpiece := halone _ (by rw [scan_of_leading hleading later (hleading ▸ hlater)]; rfl)
        exact absurd hpiece Bool.false_ne_true
  have hleading : Piece.leading ' ' code = .gap [' '] := by
    rw [Piece.leading, if_pos (by decide), hgap]
  rw [scan_of_leading hleading code rfl, Line.codeLexemes_raw rfl,
    Line.codeLexemes_of_startsAlone halone, Piece.text,
    Line.fragment_append_of_blank (Blank.allBlank_cons.mpr ⟨Blank.isBlank_space, Blank.allBlank_nil⟩)]

/-! ## Raw text -/

/-- No mark has two characters at its front that are no marks, and goes on after them. -/
theorem Piece.goesOn_eq_false {char next : Char} (hchar : isMarkChar char = false)
    (hnext : isMarkChar next = false) (rest : List Char) (first : Char) :
    goesOn (char :: next :: rest) first = false := by
  have hall : ∀ mark ∈ marks, 2 < mark.2.length → (mark.2.take 2).any isMarkChar := by decide
  rw [goesOn_eq_false_iff]
  intro token more hmark
  have hpair := hall _ hmark (by simp only [List.length_append, List.length_cons]; omega)
  simp [hchar, hnext] at hpair

theorem Piece.joins_space {last : Char} (hlast : isMarkChar last = false) :
    joins last ' ' = false := by
  have hall : ∀ mark ∈ marks, (mark.2.drop 1).head? = some ' ' → mark.2.head?.any isMarkChar := by
    decide
  rw [joins_eq_goesOn (by decide), goesOn_eq_false_iff]
  intro token more hmark
  have hhead := hall _ hmark rfl
  simp [hlast] at hhead

variable {core back : List Char}

/-- No piece of raw text reaches into what follows it. -/
theorem scan_raw_append (hholds : HoldsNoEntry core)
    (hgap : ∀ last first, core.getLast? = some last → back.head? = some first →
      Piece.isGap last → Piece.isGap first = false)
    (hclean : ∀ last first, core.getLast? = some last → back.head? = some first →
      Piece.joins last first = false) :
    scan (core ++ back) = scan core ++ scan back := by
  refine Cut.cut_append Piece.leading_isFront fun char rest hsuffix => ?_
  have hmarks : ∀ other ∈ char :: rest, Piece.isMarkChar other = false :=
    fun other hother => hholds.marks other (hsuffix.subset hother)
  obtain ⟨last, hlast⟩ : ∃ last, (char :: rest).getLast? = some last :=
    ⟨_, List.getLast?_eq_some_getLast (List.cons_ne_nil _ _)⟩
  have hcore : core.getLast? = some last := by
    obtain ⟨lead, rfl⟩ := hsuffix
    rw [List.getLast?_append, hlast]
    rfl
  have hrun : ∀ keeps : Char → Bool, keeps char → (∀ other ∈ rest, keeps other) → keeps last := by
    intro keeps hchar hrest
    have hkeeps : ∀ other ∈ char :: rest, keeps other := List.forall_mem_cons.mpr ⟨hchar, hrest⟩
    exact hkeeps last (List.mem_of_getLast? hlast)
  refine Piece.leading_append_of
    (fun hisGap => takeWhile_append_of_stop fun hall first hfirst => ?_)
    (fun hword => takeWhile_append_of_stop fun hall first hfirst => ?_) fun mark hmark => ?_
  · exact hgap last first hcore hfirst (hrun _ hisGap hall)
  · have hjoins := hclean last first hcore hfirst
    rw [Piece.joins, hrun _ hword hall, Bool.true_and, Bool.or_eq_false_iff] at hjoins
    exact hjoins.1
  · refine Piece.isPrefix_of_goesOn (fun first hfirst => ?_) hmark
    cases rest with
    | nil =>
        obtain rfl : char = last := by simpa using hlast
        have hjoins := hclean char first hcore hfirst
        rw [Piece.joins, Bool.or_eq_false_iff] at hjoins
        exact hjoins.2
    | cons next rest =>
        exact Piece.goesOn_eq_false (hmarks char (by simp)) (hmarks next (by simp)) rest first

/-- Raw text is scanned apart from what follows when the two characters at the seam do not join. -/
theorem scan_text_append (htight : IsTight core) (hholds : HoldsNoEntry core)
    (hclean : ∀ last first, core.getLast? = some last → back.head? = some first →
      Piece.joins last first = false) :
    scan (core ++ back) = scan core ++ scan back := by
  refine scan_raw_append hholds (fun last _ hlast _ hgap => ?_) hclean
  have hsolid := htight.2
  rw [hlast, Option.any_some, Piece.isBlank_of_isGap hgap] at hsolid
  exact Bool.noConfusion hsolid

theorem fragment_of_isTight (htight : IsTight core) :
    Line.fragment core = [{ token := .text, text := core }] := by
  rw [Line.fragment, Blank.trim_of_tight htight, if_neg htight.ne_nil]

/-- Raw text is read back as one lexeme when nothing joins it at the seam. -/
theorem codeOf_text_append (htight : IsTight core) (hholds : HoldsNoEntry core)
    (halone : StartsAlone back)
    (hclean : ∀ last first, core.getLast? = some last → back.head? = some first →
      Piece.joins last first = false) :
    codeOf (core ++ back) = { token := .text, text := core } :: codeOf back := by
  rw [codeOf, scan_text_append htight hholds hclean,
    Line.codeLexemes_append_raw hholds.standsAlone_eq_false, flatMap_scan, List.nil_append,
    Line.codeLexemes_of_startsAlone halone, fragment_of_isTight htight]
  rfl

theorem codeOf_text_space (htight : IsTight core) (hholds : HoldsNoEntry core)
    (halone : StartsAlone back) :
    codeOf (core ++ ' ' :: back) = { token := .text, text := core } :: codeOf back := by
  have hclean : ∀ last first, core.getLast? = some last → (' ' :: back).head? = some first →
      Piece.joins last first = false := by
    intro last first hlast hfirst
    obtain rfl := Option.some.inj hfirst
    exact Piece.joins_space (hholds.marks last (List.mem_of_getLast? hlast))
  rw [codeOf, scan_text_append htight hholds hclean,
    Line.codeLexemes_append_raw hholds.standsAlone_eq_false, flatMap_scan, List.nil_append,
    halone.codeLexemes_space, fragment_of_isTight htight]
  rfl

end ChuckLayout
