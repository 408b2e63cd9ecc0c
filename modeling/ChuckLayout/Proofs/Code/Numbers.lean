import ChuckLayout.Proofs.Code.Between
import ChuckLayout.Proofs.Layout.Places
import ChuckLayout.Proofs.Literals.Placement
import ChuckLayout.Proofs.Relexing.Merging

/-!
# Numbers with a signed exponent

A number with a signed exponent is no token of its own: it is read as words, a point and a sign.  The
point is written tight.  The sign is written tight when the word before it begins with a digit, and
raw text in front of the number may be part of that word.  Main statement: a number in the code stays
in one piece exactly when the word before its sign begins with a digit, and one in a literal always does.
-/

namespace ChuckLayout

open Blank (IsTight isBlank lastWord padding solid squeeze trim trimStart)
open Spacing
open Word (IsWord isWordChar)

/-- A number with an exponent and its sign.  There is a digit before the exponent. -/
structure SignedFloat where
  whole : List Char
  /-- What follows the point, if there is one. -/
  fraction : Option (List Char)
  mark : Char
  sign : Char
  exponent : List Char
  whole_digits : ∀ char ∈ whole, char.isDigit
  fraction_digits : ∀ digits, fraction = some digits → ∀ char ∈ digits, char.isDigit
  has_digit : whole ≠ [] ∨ ∃ digits, fraction = some digits ∧ digits ≠ []
  mark_eq : mark = 'e' ∨ mark = 'E'
  sign_eq : sign = '+' ∨ sign = '-'
  exponent_digits : ∀ char ∈ exponent, char.isDigit
  exponent_ne_nil : exponent ≠ []

/-- A character that a number can be part of a longer one with. -/
def isNumberChar (char : Char) : Bool :=
  isWordChar char || char == '.'

theorem isBlank_of_isNumberChar {char : Char} (hchar : isNumberChar char) : isBlank char = false := by
  rw [isNumberChar, Bool.or_eq_true, beq_iff_eq] at hchar
  rcases hchar with hword | rfl
  · exact isBlank_of_isWordChar hword
  · decide

namespace SignedFloat

variable (number : SignedFloat)

def mantissa : List Char :=
  number.whole ++ number.fraction.elim [] ('.' :: ·) ++ [number.mark]

def text : List Char :=
  number.mantissa ++ number.sign :: number.exponent

/-- The word that the sign follows, when raw text is `merged` with the front of the number.  A point
ends the raw text before it. -/
def wordBeforeSign (merged : List Char) : List Char :=
  match number.fraction with
  | some digits => digits ++ [number.mark]
  | none => lastWord merged ++ (number.whole ++ [number.mark])

/-- The word before the sign begins with a digit. -/
def keepsSign (merged : List Char) : Bool :=
  (number.wordBeforeSign merged).head?.any Char.isDigit

def laidOut (merged : List Char) : List Char :=
  number.mantissa ++ padding (!number.keepsSign merged) ++ number.sign :: number.exponent

theorem laidOut_of_keepsSign {merged : List Char} (hkeeps : number.keepsSign merged) :
    number.laidOut merged = number.text := by
  rw [laidOut, hkeeps, text, Bool.not_true, padding, if_neg Bool.false_ne_true, List.append_nil]

def signToken : Token :=
  if number.sign = '+' then .plus else .minus

end SignedFloat

/-! ## Scanning -/

def isMantissaChar (char : Char) : Bool :=
  char.isDigit || char == 'e' || char == 'E'

theorem isWordChar_of_isMantissaChar {char : Char} (hchar : isMantissaChar char) : isWordChar char := by
  simp only [isMantissaChar, Bool.or_eq_true, beq_iff_eq] at hchar
  rcases hchar with (hdigit | rfl) | rfl
  · exact Placeholder.isWordChar_of_isDigit hdigit
  · decide
  · decide

theorem isWord_of_isMantissaChar {word : List Char} (hword : ∀ char ∈ word, isMantissaChar char) :
    IsWord word :=
  fun char hchar => isWordChar_of_isMantissaChar (hword char hchar)

theorem isMantissaChar_of_isDigit {char : Char} (hdigit : char.isDigit) : isMantissaChar char := by
  rw [isMantissaChar, hdigit]
  rfl

namespace Piece

/-- Neither a keyword nor a placeholder is made of digits and the marks of exponents. -/
theorem ofWord_of_isMantissaChar {word : List Char} (hword : ∀ char ∈ word, isMantissaChar char) :
    ofWord word = .text := by
  have hkeywords : ∀ keyword ∈ keywords, keyword.spelling.any fun char => !isMantissaChar char := by
    decide
  have htags : ∀ kind ∈ Literal.Kind.all,
      (Placeholder.tag kind).any fun char => !isMantissaChar char := by
    decide
  have hother : ∀ text : List Char, (text.any fun char => !isMantissaChar char) → ¬text <+: word := by
    intro text hany hstarts
    obtain ⟨char, hchar, hnot⟩ := List.any_eq_true.mp hany
    rw [hword char (hstarts.subset hchar)] at hnot
    exact Bool.noConfusion hnot
  have hkeyword : (keywords.find? fun keyword => keyword.spelling = word) = none := by
    rw [List.find?_eq_none]
    intro keyword hkeyword hsame
    exact hother _ (hkeywords keyword hkeyword) (of_decide_eq_true hsame ▸ List.prefix_rfl)
  have hname : Placeholder.isName word = false := by
    have htag : (Literal.Kind.all.find? fun kind => (Placeholder.tag kind).isPrefixOf word) = none := by
      rw [List.find?_eq_none]
      intro kind hkind hstarts
      exact hother _ (htags kind hkind) (List.isPrefixOf_iff_prefix.mp hstarts)
    rw [Placeholder.isName, Placeholder.leadingName?, htag]
    rfl
  rw [ofWord, hkeyword]
  simp [hname]

/-- No mark goes on with a part of a word. -/
theorem goesOn_of_isWordChar {first : Char} (hfirst : isWordChar first) (text : List Char) :
    goesOn text first = false := by
  rw [goesOn_eq_false_iff]
  intro mark more hmark
  rw [not_isWordChar_of_mem_marks hmark first (by simp)] at hfirst
  exact Bool.noConfusion hfirst

/-- A point is all of its mark. -/
theorem goesOn_of_point {text : List Char} (hne : text ≠ []) {first : Char}
    (hpoint : '.' ∈ text ++ [first]) : goesOn text first = false := by
  have hall : ∀ mark ∈ marks, '.' ∈ mark.2 → mark.2.length = 1 := by decide
  rw [goesOn_eq_false_iff]
  intro mark more hmark
  rw [List.append_cons] at hmark
  have hlength := hall _ hmark (List.mem_append_left more hpoint)
  simp only [List.length_append, List.length_singleton] at hlength
  exact hne (List.length_eq_zero_iff.mp (by omega))

end Piece

/-- A point is a piece of its own, whatever stands around it. -/
theorem scan_append_point (front back : List Char) :
    scan (front ++ '.' :: back) = scan front ++ .item .period ['.'] :: scan back := by
  have hpoint : scan ('.' :: back) = .item .period ['.'] :: scan back := by
    have hmark : (Token.period, ['.']) ∈ Piece.marks := by decide
    exact scan_mark_append hmark fun first _ => Piece.goesOn_of_point (by simp) (by simp)
  rw [← hpoint]
  refine Cut.cut_append Piece.leading_isFront fun char rest _ => ?_
  have hfirst : ∀ first, ('.' :: back).head? = some first → first = '.' :=
    fun first hfirst => (Option.some.inj hfirst).symm
  refine Piece.leading_append_of (fun _ => takeWhile_append_of_stop fun _ first h => ?_)
    (fun _ => takeWhile_append_of_stop fun _ first h => ?_)
    fun mark hmark => Piece.isPrefix_of_goesOn (fun first h => ?_) hmark
  · rw [hfirst first h]
    decide
  · rw [hfirst first h]
    decide
  · rw [hfirst first h]
    exact Piece.goesOn_of_point (List.cons_ne_nil _ _) (by simp)

/-- The digits and the mark of a number are scanned as one word. -/
theorem scan_mantissa_append {word back : List Char} (hword : ∀ char ∈ word, isMantissaChar char)
    (hne : word ≠ []) (hback : back.head?.all fun char => !isWordChar char) :
    scan (word ++ back) = .item .text word :: scan back := by
  rw [scan_word_append (isWord_of_isMantissaChar hword) hne hback, Piece.ofWord_of_isMantissaChar hword]

/-! ## Rows -/

namespace Spacing

/-- However lexemes with these items are placed in a row, they are written as `middle` after `lead`. -/
def Writes (run : List Lexeme) (lead middle : List Char) : Prop :=
  ∀ run' : List Lexeme, run'.map Lexeme.item = run.map Lexeme.item → ∀ stream previous right,
    ∃ trail, rowText stream previous (run' ++ right) = lead ++ middle ++ trail

theorem writes_literal (lead middle trail : List Char) :
    Writes [{ token := .placeholder, text := lead ++ middle ++ trail }] lead middle := by
  intro run' hrun' stream previous right
  obtain ⟨lexeme, rest, rfl, hitem, hrest⟩ := List.map_eq_cons_iff.mp hrun'
  obtain rfl := List.map_eq_nil_iff.mp hrest
  obtain ⟨htoken, htext⟩ := Prod.mk.inj hitem
  obtain ⟨back, hrow⟩ := exists_rowText_cons stream previous lexeme right
  refine ⟨trail ++ back, ?_⟩
  rw [List.singleton_append, hrow, (Lexeme.core_of_placeholder htoken).2, htext]
  exact List.append_assoc _ _ _

/-- No space stands between raw text and a point. -/
theorem rowText_point {first second : Lexeme}
    (hpair : first.token = .text ∧ second.token = .period ∨ first.token = .period ∧ second.token = .text)
    (stream : List Lexeme) (previous : Option Lexeme) (rest : List Lexeme) :
    rowText stream previous (first :: second :: rest) =
      first.core ++ rowText stream (some first) (second :: rest) := by
  have hgap : isGapped stream previous first second rest.head? = false := by
    rcases hpair with ⟨hfirst, hsecond⟩ | ⟨hfirst, hsecond⟩ <;>
      simp [isGapped, padsAfter, padsBefore, hfirst, hsecond, Token.isKeyword, Token.isOperator]
  rw [rowText, hgap, padding, if_neg Bool.false_ne_true, List.append_nil]

/-- A number is written through its point: no space stands on either side. -/
theorem Writes.cons_point {first second : Lexeme}
    (hpair : first.token = .text ∧ second.token = .period ∨ first.token = .period ∧ second.token = .text)
    {rest : List Lexeme} {lead front middle : List Char} (hcore : first.core = lead ++ front)
    (hwrites : Writes (second :: rest) [] middle) :
    Writes (first :: second :: rest) lead (front ++ middle) := by
  intro run hrun stream previous right
  obtain ⟨first', run, rfl, hfirst, hrun⟩ := List.map_eq_cons_iff.mp hrun
  obtain ⟨second', run', rfl, hsecond, -⟩ := List.map_eq_cons_iff.mp hrun
  obtain ⟨trail, hrow⟩ := hwrites (second' :: run') hrun stream (some first') right
  have hpair' : first'.token = .text ∧ second'.token = .period ∨
      first'.token = .period ∧ second'.token = .text := by
    rwa [(Prod.mk.inj hfirst).1, (Prod.mk.inj hsecond).1]
  rw [List.cons_append] at hrow
  rw [List.cons_append, List.cons_append, rowText_point hpair', hrow, Lexeme.core_eq_of_item hfirst,
    hcore]
  exact ⟨trail, by simp only [List.append_assoc, List.nil_append]⟩

/-- Between raw texts a sign is written tight, or with a space before it. -/
theorem rowText_sign {first sign last : Lexeme} (hfirst : first.token = .text)
    (hsign : sign.token = .plus ∨ sign.token = .minus) (hlast : last.token = .text)
    (stream : List Lexeme) (previous : Option Lexeme) (rest : List Lexeme) :
    rowText stream previous (first :: sign :: last :: rest) =
      first.core ++ padding (!isExponentSign (some first) (some last)) ++
        (sign.core ++ rowText stream (some sign) (last :: rest)) := by
  have hbefore : isGapped stream previous first sign (some last) =
      !isExponentSign (some first) (some last) := by
    rcases hsign with hsign | hsign <;>
      simp [isGapped, padsAfter, padsBefore, hfirst, hsign, Token.isKeyword, Token.isOperator]
  have hafter : isGapped stream (some first) sign last rest.head? = false := by
    have hentry : Token.text.isTableEntry = false := rfl
    rcases hsign with hsign | hsign <;>
      simp [isGapped, padsAfter, padsBefore, hlast, hsign, hentry, Token.isOperator]
  rw [rowText, List.head?_cons, hbefore, rowText, hafter, padding, padding, if_neg Bool.false_ne_true,
    List.append_nil]

end Spacing

/-- What lexemes of the source are written as stands in the formatted source, after the solid text of
the lexemes before them. -/
theorem exists_tidy_of_writes {source lead middle : List Char} {before run after : List Lexeme}
    (hlexed : lexAtoms [] (atoms source) = before ++ (run ++ after)) (hne : run ≠ [])
    (hrun : ∀ lexeme ∈ run, endsRow lexeme.token = false) (hwrites : Writes run lead middle)
    (htight : IsTight middle) :
    ∃ front back, Document.tidy source = front ++ middle ++ back ∧
      solid front = solidOf (before.map Lexeme.item) ++ solid lead := by
  obtain ⟨front, previous, run', right, back, htidy, hitems, hsolid⟩ := exists_tidy_of_run hlexed hne hrun
  obtain ⟨trail, hrow⟩ := hwrites run' hitems (plainStream source) previous right
  have htext : front ++ (lead ++ middle ++ trail) ++ back = front ++ lead ++ middle ++ (trail ++ back) := by
    simp only [List.append_assoc]
  rw [hrow, htext, Blank.trim_around_tight htight] at htidy
  refine ⟨_, _, htidy, ?_⟩
  rw [Blank.solid_trimStart, Blank.solid_append, hsolid]

/-! ## The sign -/

namespace SignedFloat

variable (number : SignedFloat)

theorem signToken_spec :
    (number.signToken = .plus ∨ number.signToken = .minus) ∧
      number.signToken.spelling = [number.sign] ∧
        (number.signToken, [number.sign]) ∈ Piece.marks := by
  rcases number.sign_eq with hsign | hsign <;> rw [signToken, hsign] <;> decide

theorem isMantissaChar_mark : isMantissaChar number.mark := by
  rcases number.mark_eq with hmark | hmark <;> rw [hmark] <;> decide

theorem isWord_exponent : IsWord number.exponent :=
  fun char hchar => Placeholder.isWordChar_of_isDigit (number.exponent_digits char hchar)

theorem isTight_exponent : IsTight number.exponent :=
  number.isWord_exponent.isTight number.exponent_ne_nil

theorem squeeze_exponent_append (more : List Char) :
    squeeze (number.exponent ++ more) = number.exponent ++ squeeze more := by
  have hsolid : ∀ char ∈ number.exponent, isBlank char = false :=
    fun char hchar => isBlank_of_isWordChar (number.isWord_exponent char hchar)
  rw [squeeze, Blank.squeezeFrom_tight_append number.isTight_exponent, Blank.squeeze_of_solid hsolid]

theorem head?_exponent_append (more : List Char) :
    (number.exponent ++ more).head?.any Char.isDigit := by
  obtain ⟨char, rest, hexponent⟩ := List.exists_cons_of_ne_nil number.exponent_ne_nil
  rw [hexponent]
  exact number.exponent_digits char (hexponent ▸ List.mem_cons_self)

section

variable {word : List Char} (hsolid : ∀ char ∈ word ++ [number.mark], isBlank char = false)

include hsolid

/-- The sign is that of an exponent when the word before it begins with a digit. -/
theorem isExponentSign_eq {merged more : List Char} {first last : Lexeme}
    (hfirst : first.item = (.text, trimStart merged ++ (word ++ [number.mark])))
    (hlast : last.item = (.text, number.exponent ++ more)) :
    isExponentSign (some first) (some last) =
      (lastWord merged ++ (word ++ [number.mark])).head?.any Char.isDigit := by
  obtain ⟨hfirst, htext⟩ := Prod.mk.inj hfirst
  obtain ⟨hlast, hnext⟩ := Prod.mk.inj hlast
  have hends : (number.mark == 'e' || number.mark == 'E') = true := by
    simpa using number.mark_eq
  rw [isExponentSign, hfirst, hlast, htext, hnext, Blank.lastWord_append_solid hsolid,
    Blank.lastWord_trimStart, number.head?_exponent_append, ← List.append_assoc]
  simp only [List.getLast?_concat, Option.any_some, hends, Bool.and_true, BEq.rfl, Bool.true_and]

/-- Between raw texts the sign is written as the word before it calls for. -/
theorem writes_sign (merged more : List Char) :
    Writes [{ token := .text, text := trimStart merged ++ (word ++ [number.mark]) },
        { token := number.signToken, text := [number.sign] },
        { token := .text, text := number.exponent ++ more }]
      (squeeze (trimStart merged))
      (word ++ [number.mark] ++
        padding (!(lastWord merged ++ (word ++ [number.mark])).head?.any Char.isDigit) ++
          number.sign :: number.exponent) := by
  intro run hrun stream previous right
  obtain ⟨first, rest, rfl, hfirst, hrest⟩ := List.map_eq_cons_iff.mp hrun
  obtain ⟨sign, rest, rfl, hsign, hrest⟩ := List.map_eq_cons_iff.mp hrest
  obtain ⟨last, rest, rfl, hlast, hrest⟩ := List.map_eq_cons_iff.mp hrest
  obtain rfl := List.map_eq_nil_iff.mp hrest
  have hexponent := number.isExponentSign_eq hsolid hfirst hlast
  obtain ⟨hfirst, htext⟩ := Prod.mk.inj hfirst
  obtain ⟨hsign, -⟩ := Prod.mk.inj hsign
  obtain ⟨hlast, hnext⟩ := Prod.mk.inj hlast
  obtain ⟨htoken, hspelling, -⟩ := number.signToken_spec
  have hsignCore : sign.core = [number.sign] := by
    have hentry : sign.token.isTableEntry := by
      rw [hsign]
      rcases htoken with htoken | htoken <;> rw [htoken] <;> rfl
    rw [(Lexeme.core_of_isTableEntry hentry).2, hsign, hspelling]
  obtain ⟨trail, hrow⟩ := exists_rowText_cons stream (some sign) last right
  refine ⟨squeeze more ++ trail, ?_⟩
  rw [List.cons_append, List.cons_append, List.singleton_append,
    rowText_sign hfirst (hsign ▸ htoken) hlast, hrow, hexponent, hsignCore,
    (Lexeme.core_of_text hfirst).2, htext, (Lexeme.core_of_text hlast).2, hnext,
    number.squeeze_exponent_append, Blank.squeeze_append_solid hsolid]
  simp only [List.append_assoc, List.cons_append, List.nil_append]

end

end SignedFloat

/-! ## Lexing -/

theorem Line.fragment_append_tight {word : List Char} (htight : IsTight word) (raw : List Char) :
    fragment (raw ++ word) = [{ token := .text, text := trimStart raw ++ word }] := by
  have htrim := Blank.trim_around_tight htight raw []
  rw [List.append_nil, Blank.trimEnd, List.reverse_nil, List.dropWhile_nil, List.reverse_nil,
    List.append_nil] at htrim
  rw [fragment, htrim, if_neg (by simp [htight.ne_nil])]

namespace SignedFloat

variable (number : SignedFloat)

theorem isMantissaChar_of_mem {word : List Char} (hword : ∀ char ∈ word, char.isDigit) :
    ∀ char ∈ word ++ [number.mark], isMantissaChar char := by
  intro char hchar
  rcases List.mem_append.mp hchar with hmem | hmem
  · exact isMantissaChar_of_isDigit (hword char hmem)
  · exact List.mem_singleton.mp hmem ▸ number.isMantissaChar_mark

theorem scan_sign (back : List Char) :
    scan (number.sign :: (number.exponent ++ back)) =
      .item number.signToken [number.sign] :: scan (number.exponent ++ back) := by
  have hnext : ∀ first, (number.exponent ++ back).head? = some first →
      Piece.goesOn [number.sign] first = false := by
    intro first hfirst
    have hdigit := number.head?_exponent_append back
    rw [hfirst] at hdigit
    exact Piece.goesOn_of_isWordChar (Placeholder.isWordChar_of_isDigit hdigit) _
  exact scan_mark_append number.signToken_spec.2.2 hnext

/-- The word before the sign, the sign and the exponent are three lexemes, the first and the last of
which raw text around them is merged with. -/
theorem exists_codeLexemes {word back : List Char} (hword : ∀ char ∈ word, char.isDigit)
    (hback : back.head?.all fun char => !isNumberChar char) (raw : List Char) :
    ∃ first rest later, Line.codeLexemes {} raw
        (scan (word ++ [number.mark] ++ number.sign :: (number.exponent ++ back))) =
          first :: rest ++ later ∧
      first.token = .text ∧ (∀ lexeme ∈ first :: rest, endsRow lexeme.token = false) ∧
      Writes (first :: rest) (squeeze (trimStart raw))
        (word ++ [number.mark] ++
          padding (!(lastWord raw ++ (word ++ [number.mark])).head?.any Char.isDigit) ++
            number.sign :: number.exponent) := by
  have hmantissa := number.isMantissaChar_of_mem hword
  have hexponent : ∀ char ∈ number.exponent, isMantissaChar char :=
    fun char hchar => isMantissaChar_of_isDigit (number.exponent_digits char hchar)
  have hisWord := isWord_of_isMantissaChar hmantissa
  have hend : back.head?.all fun char => !isWordChar char := by
    cases hfirst : back.head? with
    | none => rfl
    | some first =>
        rw [hfirst, Option.all_some, isNumberChar, Bool.not_eq_true', Bool.or_eq_false_iff] at hback
        rw [Option.all_some, hback.1]
        rfl
  obtain ⟨htoken, -, hmark⟩ := number.signToken_spec
  have hsign : isWordChar number.sign = false :=
    Piece.not_isWordChar_of_mem_marks hmark _ List.mem_cons_self
  obtain ⟨more, later, hlater⟩ :=
    Line.exists_codeLexemes number.isTight_exponent.not_allBlank (scan back)
  have htrim := Blank.trim_around_tight number.isTight_exponent [] more
  rw [List.nil_append, Blank.trimStart, List.dropWhile_nil, List.nil_append] at htrim
  refine ⟨{ token := .text, text := trimStart raw ++ (word ++ [number.mark]) },
    [{ token := number.signToken, text := [number.sign] },
      { token := .text, text := number.exponent ++ Blank.trimEnd more }], later, ?_, rfl, ?_, ?_⟩
  · rw [scan_mantissa_append hmantissa (by simp) (by simp [hsign]), scan_sign,
      scan_mantissa_append hexponent number.exponent_ne_nil hend, Line.codeLexemes_raw rfl,
      Line.codeLexemes_item (Piece.standsAlone_of_mem_marks hmark), Line.codeLexemes_raw rfl,
      Piece.text, Piece.text, List.nil_append, hlater, htrim,
      Line.fragment_append_tight (hisWord.isTight (by simp))]
    rfl
  · have hends : endsRow number.signToken = false := by
      rcases htoken with htoken | htoken <;> rw [htoken] <;> rfl
    have htextEnds : endsRow .text = false := rfl
    simp [hends, htextEnds]
  · exact number.writes_sign (fun char hchar => isBlank_of_isWordChar (hisWord char hchar)) raw _

theorem isBoundary_of_digits {code word : List Char}
    (hcode : code.getLast?.all fun char => !isNumberChar char) (hword : ∀ char ∈ word, char.isDigit)
    (hne : word ≠ []) (rest : List Char) : IsBoundary code (word ++ rest) := by
  intro last first hlast hfirst
  rw [List.head?_append_of_ne_nil _ hne] at hfirst
  rw [hlast, Option.all_some, isNumberChar, Bool.not_eq_true', Bool.or_eq_false_iff] at hcode
  rw [hcode.1, Placeholder.isWordChar_of_isDigit (hword first (List.mem_of_head? hfirst))]
  exact Bool.false_ne_true

def IsShownIn (code : List Char) (lexemes : List Lexeme) : Prop :=
  ∃ before run lead later, lexemes = before ++ (run ++ later) ∧ run ≠ [] ∧
    (∀ lexeme ∈ run, endsRow lexeme.token = false) ∧
    Writes run lead (number.laidOut (Line.pendingRaw {} [] (scan code))) ∧
    solidOf (before.map Lexeme.item) ++ solid lead = solid code

theorem solid_pending_squeezed (code : List Char) :
    solidOf ((Line.lexedPieces {} [] (scan code)).map Lexeme.item) ++
      solid (squeeze (trimStart (Line.pendingRaw {} [] (scan code)))) = solid code := by
  have hcode := solidOf_codeOf code
  rw [codeOf, Line.codeLexemes_eq, List.map_append, solidOf_append, solidOf_fragment] at hcode
  rw [Blank.solid_squeeze, Blank.solid_trimStart, hcode]

variable {code back : List Char} (hcode : code.getLast?.all fun char => !isNumberChar char)
  (hback : back.head?.all fun char => !isNumberChar char)

include hcode

/-- The digits before the point are one lexeme with the raw text before them. -/
theorem exists_codeOf_whole (hwhole : number.whole ≠ []) :
    ∃ lexeme, codeOf (code ++ number.whole) = Line.lexedPieces {} [] (scan code) ++ [lexeme] ∧
      lexeme.token = .text ∧
      lexeme.core = squeeze (trimStart (Line.pendingRaw {} [] (scan code))) ++ number.whole := by
  have hmantissa : ∀ char ∈ number.whole, isMantissaChar char :=
    fun char hchar => isMantissaChar_of_isDigit (number.whole_digits char hchar)
  have hisWord := isWord_of_isMantissaChar hmantissa
  have hboundary := isBoundary_of_digits hcode number.whole_digits hwhole []
  rw [List.append_nil] at hboundary
  have hscan : scan number.whole = [.item .text number.whole] := by
    rw [scan_word hisWord hwhole, Piece.ofWord_of_isMantissaChar hmantissa]
  refine ⟨{ token := .text, text := trimStart (Line.pendingRaw {} [] (scan code)) ++ number.whole },
    ?_, rfl, ?_⟩
  · rw [codeOf, scan_append hboundary, Line.codeLexemes_append, hscan, Line.codeLexemes_raw rfl,
      Line.codeLexemes, Piece.text, Line.fragment_append_tight (hisWord.isTight hwhole)]
  · rw [(Lexeme.core_of_text rfl).2, Blank.squeeze_append_solid]
    exact fun char hchar => isBlank_of_isWordChar (hisWord char hchar)

include hback

/-- Without a point the front of the number is part of the raw text before it. -/
theorem isShownIn_of_no_point (hfraction : number.fraction = none) :
    number.IsShownIn code (codeOf (code ++ (number.text ++ back))) := by
  have hwhole : number.whole ≠ [] := by
    rcases number.has_digit with hwhole | ⟨digits, hdigits, -⟩
    · exact hwhole
    · rw [hfraction] at hdigits
      exact absurd hdigits.symm (Option.some_ne_none _)
  have htext : number.text ++ back =
      number.whole ++ [number.mark] ++ number.sign :: (number.exponent ++ back) := by
    simp [text, mantissa, hfraction]
  have hlaidOut : ∀ merged, number.laidOut merged = number.whole ++ [number.mark] ++
      padding (!(lastWord merged ++ (number.whole ++ [number.mark])).head?.any Char.isDigit) ++
        number.sign :: number.exponent := by
    intro merged
    simp [laidOut, mantissa, keepsSign, wordBeforeSign, hfraction]
  have hscan : scan (code ++ (number.text ++ back)) = scan code ++ scan (number.text ++ back) := by
    rw [htext, List.append_assoc]
    exact scan_append (isBoundary_of_digits hcode number.whole_digits hwhole _)
  obtain ⟨first, rest, later, hlater, -, hends, hwrites⟩ :=
    number.exists_codeLexemes number.whole_digits hback (Line.pendingRaw {} [] (scan code))
  refine ⟨_, first :: rest, _, later, ?_, List.cons_ne_nil _ _, hends, hlaidOut _ ▸ hwrites,
    solid_pending_squeezed code⟩
  rw [codeOf, hscan, Line.codeLexemes_append, htext, hlater]

/-- A point ends the raw text before it, so only the fraction stands before the sign. -/
theorem isShownIn_of_point {digits : List Char} (hfraction : number.fraction = some digits) :
    number.IsShownIn code (codeOf (code ++ (number.text ++ back))) := by
  have htext : number.text ++ back =
      number.whole ++ '.' :: (digits ++ [number.mark] ++ number.sign :: (number.exponent ++ back)) := by
    simp [text, mantissa, hfraction]
  have hlaidOut : ∀ merged, number.laidOut merged = number.whole ++ (['.'] ++ (digits ++ [number.mark] ++
      padding (!(digits ++ [number.mark]).head?.any Char.isDigit) ++
        number.sign :: number.exponent)) := by
    intro merged
    simp [laidOut, mantissa, keepsSign, wordBeforeSign, hfraction]
  obtain ⟨first, rest, later, hlater, htoken, hends, hwrites⟩ :=
    number.exists_codeLexemes (number.fraction_digits digits hfraction) hback []
  have hpoint : Writes ({ token := .period, text := ['.'] } :: first :: rest) [] _ :=
    hwrites.cons_point (Or.inr ⟨rfl, htoken⟩) rfl
  have hcodeOf : codeOf (code ++ (number.text ++ back)) = codeOf (code ++ number.whole) ++
      ({ token := .period, text := ['.'] } :: first :: rest ++ later) := by
    rw [htext, ← List.append_assoc, codeOf, scan_append_point, Line.codeLexemes_append_item rfl, hlater]
    rfl
  have hendsPoint : ∀ lexeme ∈ ({ token := .period, text := ['.'] } : Lexeme) :: first :: rest,
      endsRow lexeme.token = false :=
    List.forall_mem_cons.mpr ⟨rfl, hends⟩
  rw [hcodeOf]
  by_cases hwhole : number.whole = []
  · refine ⟨codeOf code, _, [], later, ?_, List.cons_ne_nil _ _, hendsPoint, ?_, ?_⟩
    · rw [hwhole, List.append_nil]
    · rw [hlaidOut, hwhole]
      exact hpoint
    · rw [solidOf_codeOf, Blank.solid_nil, List.append_nil]
  · obtain ⟨digitsLexeme, hfront, htext, hcore⟩ := number.exists_codeOf_whole hcode hwhole
    have hwhole : Writes (digitsLexeme :: { token := .period, text := ['.'] } :: first :: rest) _ _ :=
      hpoint.cons_point (Or.inl ⟨htext, rfl⟩) hcore
    have hends : ∀ lexeme ∈ digitsLexeme :: { token := .period, text := ['.'] } :: first :: rest,
        endsRow lexeme.token = false :=
      List.forall_mem_cons.mpr ⟨by rw [htext]; rfl, hendsPoint⟩
    refine ⟨_, _, _, later, ?_, List.cons_ne_nil _ _, hends, hlaidOut _ ▸ hwhole,
      solid_pending_squeezed code⟩
    rw [hfront, List.append_assoc]
    rfl

theorem isShownIn_codeOf : number.IsShownIn code (codeOf (code ++ (number.text ++ back))) := by
  cases hfraction : number.fraction with
  | none => exact number.isShownIn_of_no_point hcode hback hfraction
  | some digits => exact number.isShownIn_of_point hcode hback hfraction

end SignedFloat

/-! ## The formatted source -/

/-- The raw text right before a place in the code. -/
def rawBefore (found : List Segment) : List Char :=
  Line.pendingRaw {} [] (scan (pendingCode [] (found.map Segment.atom)))

namespace SignedFloat

variable (number : SignedFloat)

theorem isNumberChar_of_mem_mantissa : ∀ char ∈ number.mantissa, isNumberChar char := by
  have hdigits : ∀ word : List Char, (∀ char ∈ word, char.isDigit) →
      ∀ char ∈ word ++ [number.mark], isNumberChar char := by
    intro word hword char hchar
    rw [isNumberChar, isWordChar_of_isMantissaChar (number.isMantissaChar_of_mem hword char hchar)]
    rfl
  have hwhole : ∀ char ∈ number.whole, isNumberChar char :=
    fun char hchar => hdigits _ number.whole_digits char (List.mem_append_left _ hchar)
  rw [mantissa]
  cases hfraction : number.fraction with
  | none =>
      rw [Option.elim_none, List.append_nil]
      exact hdigits _ number.whole_digits
  | some digits =>
      rw [Option.elim_some, List.append_assoc, List.forall_mem_append, List.cons_append,
        List.forall_mem_cons]
      exact ⟨hwhole, by decide, hdigits _ (number.fraction_digits digits hfraction)⟩

theorem mantissa_ne_nil : number.mantissa ≠ [] := by
  simp [mantissa]

/-- The number begins and ends with a character that is not blank, whatever stands before its sign. -/
theorem isTight_around (middle : List Char) :
    IsTight (number.mantissa ++ middle ++ number.sign :: number.exponent) := by
  obtain ⟨first, rest, hmantissa⟩ := List.exists_cons_of_ne_nil number.mantissa_ne_nil
  have hfirst := isBlank_of_isNumberChar
    (number.isNumberChar_of_mem_mantissa first (hmantissa ▸ List.mem_cons_self))
  constructor
  · rw [hmantissa, List.cons_append, List.cons_append, List.head?_cons, Option.any_some, hfirst]
    rfl
  · rw [List.append_cons, List.getLast?_append_of_ne_nil _ number.exponent_ne_nil]
    exact number.isTight_exponent.2

theorem not_mem_text {char : Char} (hchar : isNumberChar char = false) (hplus : char ≠ '+')
    (hminus : char ≠ '-') : char ∉ number.text := by
  have hother : ∀ word : List Char, (∀ other ∈ word, isNumberChar other) → char ∉ word := by
    intro word hword hmem
    rw [hword char hmem] at hchar
    exact Bool.noConfusion hchar
  rw [text, List.mem_append, List.mem_cons, not_or, not_or]
  refine ⟨hother _ number.isNumberChar_of_mem_mantissa, ?_, hother _ fun other hmem => ?_⟩
  · rcases number.sign_eq with hsign | hsign <;> rw [hsign]
    · exact hplus
    · exact hminus
  · rw [isNumberChar, number.isWord_exponent other hmem]
    rfl

/-- Where the number stands in one piece, it is laid out in one piece. -/
theorem keepsSign_of_append_eq {merged lead trail lead' trail' : List Char}
    (htext : lead ++ number.text ++ trail = lead' ++ number.laidOut merged ++ trail')
    (hsolid : solid lead = solid lead') : number.keepsSign merged := by
  cases hkeeps : number.keepsSign merged with
  | true => rfl
  | false =>
      have hmark := isBlank_of_isWordChar (isWordChar_of_isMantissaChar number.isMantissaChar_mark)
      have hlast : ∀ front : List Char,
          (front ++ number.mantissa).getLast?.any fun char => !isBlank char := by
        intro front
        rw [mantissa, ← List.append_assoc, List.getLast?_concat, Option.any_some, hmark]
        rfl
      have hsame : lead ++ number.mantissa ++ (number.sign :: number.exponent ++ trail) =
          lead' ++ number.mantissa ++ (' ' :: number.sign :: number.exponent ++ trail') := by
        rw [laidOut, hkeeps] at htext
        simpa [text, padding] using htext
      -- Both mantissas end at the same place, where the one has the sign and the other a space.
      have hmantissa : lead ++ number.mantissa = lead' ++ number.mantissa := by
        refine Blank.eq_of_solid_eq hsame (hlast lead) (hlast lead') ?_
        rw [Blank.solid_append, Blank.solid_append, hsolid]
      rw [hmantissa] at hsame
      have hspace : number.sign = ' ' := (List.cons.inj (List.append_cancel_left hsame)).1
      rcases number.sign_eq with hsign | hsign <;> exact absurd (hsign.symm.trans hspace) (by decide)

variable {front back : List Char}

/-- A number in the code is laid out as the word before its sign calls for. -/
theorem exists_tidy_of_code (hfront : front.getLast?.all fun char => !isNumberChar char)
    (hback : back.head?.all fun char => !isNumberChar char) {before after : List Segment}
    (hfound : segments .all (front ++ number.text ++ back) =
      before ++ number.text.map .code ++ after)
    (hbefore : before.flatMap Segment.text = front) :
    ∃ lead trail, Document.tidy (front ++ number.text ++ back) =
        lead ++ number.laidOut (rawBefore before) ++ trail ∧ solid lead = solid front := by
  have hafter : after.flatMap Segment.text = back := by
    have htext := (reads_segments .all (front ++ number.text ++ back)).flatMap_text
    rw [hfound, List.flatMap_append, List.flatMap_append, hbefore, flatMap_text_code] at htext
    exact List.append_cancel_left htext
  have hcode : (pendingCode [] (before.map Segment.atom)).getLast?.all fun char => !isNumberChar char := by
    have hsuffix := pendingCode_isSuffix [] before
    rw [List.nil_append, hbefore] at hsuffix
    exact all_getLast?_of_isSuffix hsuffix hfront
  have hahead : (ahead (after.map Segment.atom)).head?.all fun char => !isNumberChar char := by
    have hfits := ahead_isPrefix after
    rw [hafter] at hfits
    exact all_head?_of_isPrefix hfits hback
  have hfeed : '\n' ∉ number.text := number.not_mem_text (by decide) (by decide) (by decide)
  have hlexed := lexAtoms_around hfeed (before.map Segment.atom) (after.map Segment.atom)
  rw [← map_atom_code, ← List.map_append, ← List.map_append, ← hfound, ← atoms] at hlexed
  obtain ⟨lexed, run, lead, later, hcodeOf, hne, hends, hwrites, hsolid⟩ :=
    number.isShownIn_codeOf hcode hahead
  have hsplit : lexAtoms [] (atoms (front ++ number.text ++ back)) =
      lexedCode [] (before.map Segment.atom) ++ lexed ++
        (run ++ (later ++ beyond (after.map Segment.atom))) := by
    rw [hlexed, hcodeOf]
    simp only [List.append_assoc]
  obtain ⟨lead', trail, htidy, hlead⟩ :=
    exists_tidy_of_writes hsplit hne hends hwrites (number.isTight_around _)
  refine ⟨lead', trail, htidy, ?_⟩
  rw [hlead, List.map_append, solidOf_append, List.append_assoc, hsolid, solidOf_lexedCode, hbefore]

/-- A number in a literal is left alone. -/
theorem exists_tidy_of_literal {before after : List Segment} {kind : Literal.Kind}
    {lead trail : List Char}
    (hfound : segments .all (front ++ number.text ++ back) =
      before ++ .literal kind (lead ++ number.text ++ trail) :: after)
    (hbefore : before.flatMap Segment.text ++ lead = front) :
    ∃ lead trail, Document.tidy (front ++ number.text ++ back) = lead ++ number.text ++ trail ∧
      solid lead = solid front := by
  have htight : IsTight number.text := by
    have htight := number.isTight_around []
    rwa [List.append_nil] at htight
  obtain ⟨trail', htrail⟩ : ∃ trail', kind.trimmed (lead ++ number.text ++ trail) =
      lead ++ number.text ++ trail' := by
    rw [Literal.Kind.trimmed]
    split
    · have hlast : (lead ++ number.text).getLast?.any fun char => !isBlank char := by
        rw [List.getLast?_append_of_ne_nil _ htight.ne_nil]
        exact htight.2
      obtain ⟨trail', htrail⟩ := Blank.isPrefix_trimEnd_append hlast trail
      exact ⟨trail', htrail.symm⟩
    · exact ⟨trail, rfl⟩
  have hlexed : lexAtoms [] (atoms (front ++ number.text ++ back)) =
      lexedCode [] (before.map Segment.atom) ++ codeOf (pendingCode [] (before.map Segment.atom)) ++
        ([{ token := .placeholder, text := lead ++ number.text ++ trail' }] ++
          lexAtoms [] (after.map Segment.atom)) := by
    rw [atoms, hfound, List.map_append, List.map_cons, lexAtoms_append_atoms, atom_literal, htrail, lexAtoms,
      List.append_assoc (lexedCode _ _)]
    rfl
  obtain ⟨lead', back', htidy, hsolid⟩ := exists_tidy_of_writes hlexed (List.cons_ne_nil _ _)
    (List.forall_mem_singleton.mpr rfl) (writes_literal lead number.text trail') htight
  refine ⟨lead', back', htidy, ?_⟩
  rw [hsolid, List.map_append, solidOf_append, solidOf_codeOf, solidOf_lexedCode, ← Blank.solid_append, hbefore]

end SignedFloat

/-- A number with a signed exponent stays in one piece, after the solid text before it, exactly when
it is part of a literal or the word before its sign begins with a digit. -/
theorem tidy_number_iff (number : SignedFloat) {front back : List Char}
    (hfront : front.getLast?.all fun char => !isNumberChar char)
    (hback : back.head?.all fun char => !isNumberChar char) :
    (∃ lead trail, Document.tidy (front ++ number.text ++ back) = lead ++ number.text ++ trail ∧
      solid lead = solid front) ↔
    ∀ before after, segments .all (front ++ number.text ++ back) =
        before ++ number.text.map .code ++ after →
      before.flatMap Segment.text = front → number.keepsSign (rawBefore before) := by
  constructor
  · rintro ⟨lead, trail, htidy, hsolid⟩ before after hfound hbefore
    obtain ⟨lead', trail', htidy', hsolid'⟩ := number.exists_tidy_of_code hfront hback hfound hbefore
    exact number.keepsSign_of_append_eq (htidy.symm.trans htidy') (hsolid.trans hsolid'.symm)
  · intro hkeeps
    have hslash : '/' ∉ number.text := number.not_mem_text (by decide) (by decide) (by decide)
    have hquote : '\"' ∉ number.text := number.not_mem_text (by decide) (by decide) (by decide)
    have hfeed : '\n' ∉ number.text := number.not_mem_text (by decide) (by decide) (by decide)
    have hne : number.text ≠ [] := by simp [SignedFloat.text]
    have hreads : Reads .all (front ++ (number.text ++ back)) (segments .all (front ++ number.text ++ back)) := by
      rw [← List.append_assoc]
      exact reads_segments _ _
    rcases hreads.code_or_literal hslash hquote hfeed hne with
      ⟨before, after, hfound, hbefore⟩ | ⟨before, kind, lead, trail, after, hfound, hbefore⟩
    · have htidy := number.exists_tidy_of_code hfront hback hfound hbefore
      rwa [number.laidOut_of_keepsSign (hkeeps before after hfound hbefore)] at htidy
    · exact number.exists_tidy_of_literal hfound hbefore

/-- The colon is raw text that the number is merged with, but the word still begins with a digit. -/
theorem tidy_number_after_digit :
    let number : SignedFloat := ⟨['1'], none, 'e', '-', ['3'], by simp, by simp, by simp, by simp, by simp,
      by simp, by simp⟩
    let front := "2:".toList
    let back := ";".toList
    ((front.getLast?.all fun char => !isNumberChar char) ∧ back.head?.all fun char => !isNumberChar char) ∧
      (∃ lead trail, Document.tidy (front ++ number.text ++ back) = lead ++ number.text ++ trail ∧
        solid lead = solid front) ∧
      ∀ before after, segments .all (front ++ number.text ++ back) =
          before ++ number.text.map .code ++ after →
        before.flatMap Segment.text = front → number.keepsSign (rawBefore before) := by
  intro number front back
  have hreads : Reads .all ("2:1e-3;".toList ++ []) ("2:1e-3;".toList.map .code ++ []) :=
    reads_code_append (by decide +kernel) (.done .all)
  have htidy : Document.tidy ("2:1e-3;".toList ++ []) = "2:".toList ++ number.text ++ ";".toList := by
    rw [tidy_eq_spell, shownRows, plainStream, atoms, hreads.segments_eq]
    decide +kernel
  have hwhole : ∃ lead trail, Document.tidy (front ++ number.text ++ back) = lead ++ number.text ++ trail ∧
      solid lead = solid front :=
    ⟨_, _, htidy, rfl⟩
  have hfront : front.getLast?.all fun char => !isNumberChar char := by decide
  have hback : back.head?.all fun char => !isNumberChar char := by decide
  exact ⟨⟨hfront, hback⟩, hwhole, (tidy_number_iff number hfront hback).mp hwhole⟩

/-- The word before the sign begins with the colon, and the number is torn: `:1e-3` becomes `:1e -3`. -/
theorem tidy_number_after_colon :
    let number : SignedFloat := ⟨['1'], none, 'e', '-', ['3'], by simp, by simp, by simp, by simp, by simp,
      by simp, by simp⟩
    (":".toList.getLast?.all fun char => !isNumberChar char) ∧
      ¬∃ lead trail, Document.tidy (":".toList ++ number.text ++ []) = lead ++ number.text ++ trail ∧
        solid lead = solid ":".toList := by
  intro number
  have hreads : Reads .all (":1e-3".toList ++ []) (":1e-3".toList.map .code ++ []) :=
    reads_code_append (by decide +kernel) (.done .all)
  have htidy : Document.tidy (":1e-3".toList ++ []) = ":1e -3".toList := by
    rw [tidy_eq_spell, shownRows, plainStream, atoms, hreads.segments_eq]
    decide +kernel
  refine ⟨by decide, ?_⟩
  rintro ⟨lead, trail, hwhole, -⟩
  have hinfix : number.text <:+: ":1e -3".toList := ⟨lead, trail, hwhole.symm.trans htidy⟩
  exact absurd hinfix (by decide)

end ChuckLayout
