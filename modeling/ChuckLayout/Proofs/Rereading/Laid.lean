import ChuckLayout.Proofs.Layout.Neat
import ChuckLayout.Proofs.Rereading.Scopes

/-!
# Reading what has been laid out

A text that shows lexemes one after the other, with blanks between them wherever two characters would
make up something new, is read as just these lexemes: what opens and closes in it is what opens and
closes in the lexemes.
-/

namespace ChuckLayout

open Blank (isBlank)

/-- The two characters mean something together that they do not mean apart. -/
def isCritical (first second : Char) : Bool :=
  first == '/' && (second == '/' || second == '*') || first == '*' && second == '/' ||
    first == '\\' && (second == '\"' || second == '\\')

/-- `back` may follow `front` without a blank between them. -/
def Meets (front back : List Char) : Prop :=
  ∀ last first, front.getLast? = some last → back.head? = some first → isCritical last first = false

/-- The atoms show the lexemes in order, and nothing else but blanks. -/
inductive Laid : List Lexeme → List Atom → Prop where
  | done : Laid [] []
  | blank {lexemes : List Lexeme} {atoms : List Atom} {char : Char} (hblank : isBlank char)
      (hrest : Laid lexemes atoms) : Laid lexemes (.char char :: atoms)
  | code {lexeme : Lexeme} {lexemes : List Lexeme} {atoms : List Atom}
      (htoken : lexeme.token ≠ .placeholder) (hmeets : Meets lexeme.core (spell atoms))
      (hrest : Laid lexemes atoms) :
      Laid (lexeme :: lexemes) (lexeme.core.map .char ++ atoms)
  | literal {lexeme : Lexeme} {lexemes : List Lexeme} {atoms : List Atom}
      (htoken : lexeme.token = .placeholder) (hmeets : Meets lexeme.text (spell atoms))
      (hend : IsLineComment lexeme.text → (spell atoms).head?.all (· = '\n'))
      (hrest : Laid lexemes atoms) :
      Laid (lexeme :: lexemes) (.literal lexeme.text :: atoms)

theorem Meets.of_suffix {front part back : List Char} (hmeets : Meets front back)
    (hpart : part <:+ front) : Meets part back := by
  intro last first hlast hfirst
  obtain ⟨lead, rfl⟩ := hpart
  exact hmeets last first (by rw [List.getLast?_append, hlast]; rfl) hfirst

/-- Where two texts meet no backslash of the first hides the front of the second. -/
theorem Meets.closesString_append {front back : List Char} (hmeets : Meets front back) :
    closesString false (front ++ back) =
      (closesString false front || closesString false back) := by
  rw [ChuckLayout.closesString_append]
  cases hhides : hidesNext false front with
  | false => rfl
  | true =>
      have hhead : ∀ char, back.head? = some char → char ≠ '\"' ∧ char ≠ '\\' := by
        intro char hchar
        have hcritical := hmeets '\\' char (getLast?_of_hidesNext hhides) hchar
        constructor <;> rintro rfl <;> exact absurd hcritical (by decide)
      rw [closesString_eq_of_head? hhead]

def Lexeme.IsShown (lexeme : Lexeme) : Prop :=
  IsStreamItem (fun _ => True) lexeme.item ∧ lexeme.token ≠ .newline

/-! ## What is closed in the text -/

namespace Lexeme

variable {lexeme : Lexeme}

theorem IsShown.isMarkChar (hshown : lexeme.IsShown) (htoken : lexeme.token = .text) :
    ∀ char ∈ lexeme.text, Piece.isMarkChar char = false := by
  obtain ⟨code, hraw⟩ := hshown.1.exists_isRaw htoken
  exact isMarkChar_of_isRaw hraw

theorem IsShown.cases (hshown : lexeme.IsShown) :
    lexeme.token.isTableEntry ∨ lexeme.token = .placeholder ∨ lexeme.token = .text :=
  hshown.1.cases_token.imp And.left (Or.imp And.left And.left)

end Lexeme

theorem Token.quote_not_mem_spelling (token : Token) :
    '\"' ∉ token.spelling ∧ '\\' ∉ token.spelling := by
  have hall : ∀ token ∈ all, '\"' ∉ token.spelling ∧ '\\' ∉ token.spelling := by decide
  exact hall token (mem_all token)

theorem IsEntry.quote_not_mem_text {item : Token × List Char} (hentry : IsEntry item) :
    '\"' ∉ item.2 := by
  rcases hentry with ⟨-, hsame⟩ | hmark
  · rw [hsame]
    exact item.1.quote_not_mem_spelling.1
  · have hmarks : ∀ mark ∈ Piece.marks, '\"' ∉ mark.2 := by decide
    exact hmarks item hmark

theorem IsEntry.isInfix_text {item : Token × List Char} (hentry : IsEntry item)
    (hoccurs : "*/".toList <:+: item.1.spelling) : "*/".toList <:+: item.2 := by
  rcases hentry with ⟨-, hsame⟩ | hmark
  · rwa [hsame]
  · have hmarks : ∀ mark ∈ Piece.marks, "*/".toList <:+: mark.1.spelling →
        "*/".toList <:+: mark.2 := by
      decide
    exact hmarks item hmark hoccurs

namespace Lexeme

variable {lexeme : Lexeme}

/-- Squeezing changes no quote and hides none. -/
theorem IsShown.closesString_core (hshown : lexeme.IsShown) :
    closesString false lexeme.core = closesString false lexeme.text := by
  rcases hshown.cases with hentry | hplaceholder | htext
  · have htext : '\"' ∉ lexeme.text := (hshown.1.isEntry hentry).quote_not_mem_text
    rw [(core_of_isTableEntry hentry).2, closesString_of_not_mem htext,
      closesString_of_not_mem lexeme.token.quote_not_mem_spelling.1]
  · rw [(core_of_placeholder hplaceholder).2]
  · rw [(core_of_text htext).2, closesString_squeeze]

theorem IsShown.not_isInfix_core (hshown : lexeme.IsShown)
    (hoccurs : ¬"*/".toList <:+: lexeme.text) : ¬"*/".toList <:+: lexeme.core := by
  rcases hshown.cases with hentry | hplaceholder | htext
  · rw [(core_of_isTableEntry hentry).2]
    exact mt (hshown.1.isEntry hentry).isInfix_text hoccurs
  · rwa [(core_of_placeholder hplaceholder).2]
  · rw [(core_of_text htext).2]
    exact mt (Blank.isInfix_of_isInfix_squeeze (Blank.not_isBlank_of_any (by decide))) hoccurs

end Lexeme

section

variable {lexemes : List Lexeme} {atoms : List Atom}

/-- A quote in the laid out text is one of the lexemes. -/
theorem Laid.closesString_eq (hlaid : Laid lexemes atoms)
    (hshown : ∀ lexeme ∈ lexemes, lexeme.IsShown) :
    closesString false (spell atoms) =
      lexemes.any fun lexeme => closesString false lexeme.text := by
  induction hlaid with
  | done => rfl
  | @blank lexemes atoms char hblank hrest ih =>
      have hchar : char ≠ '\"' ∧ char ≠ '\\' := by
        constructor <;> rintro rfl <;> exact absurd hblank (by decide)
      rw [spell, List.flatMap_cons, Atom.text, List.singleton_append,
        closesString_cons_of_ne hchar.1 hchar.2]
      exact ih hshown
  | code htoken hmeets hrest ih =>
      obtain ⟨hfirst, hlater⟩ := List.forall_mem_cons.mp hshown
      rw [spell_append, spell_map_char, hmeets.closesString_append, hfirst.closesString_core,
        ih hlater, List.any_cons]
  | @literal lexeme lexemes atoms htoken hmeets hend hrest ih =>
      obtain ⟨-, hlater⟩ := List.forall_mem_cons.mp hshown
      have hspell : spell (.literal lexeme.text :: atoms) = lexeme.text ++ spell atoms := rfl
      rw [hspell, hmeets.closesString_append, ih hlater, List.any_cons]

theorem Laid.closesString_eq_false_iff (hlaid : Laid lexemes atoms)
    (hshown : ∀ lexeme ∈ lexemes, lexeme.IsShown) :
    closesString false (spell atoms) = false ↔
      ∀ item ∈ lexemes.map Lexeme.item, closesString false item.2 = false := by
  rw [hlaid.closesString_eq hshown, List.any_eq_false]
  simp [Lexeme.item]

/-- No comment ends in the laid out text unless it ends within a lexeme. -/
theorem Laid.not_isInfix (hlaid : Laid lexemes atoms)
    (hshown : ∀ lexeme ∈ lexemes, lexeme.IsShown)
    (hcloses : ∀ lexeme ∈ lexemes, ¬"*/".toList <:+: lexeme.text) :
    ¬"*/".toList <:+: spell atoms := by
  have hstep : ∀ {core back : List Char}, ¬"*/".toList <:+: core → Meets core back →
      ¬"*/".toList <:+: back → ¬"*/".toList <:+: core ++ back := by
    intro core back hcore hmeets hback hoccurs
    rcases isInfix_pair_append hoccurs with hfront | hlater | ⟨hlast, hhead⟩
    · exact hcore hfront
    · exact hback hlater
    · exact absurd (hmeets _ _ hlast hhead) (by decide)
  induction hlaid with
  | done => decide
  | @blank lexemes atoms char hblank hrest ih =>
      have hchar : char ≠ '*' := by
        rintro rfl
        exact absurd hblank (by decide)
      rw [spell, List.flatMap_cons, Atom.text, List.singleton_append, List.infix_cons_iff, not_or]
      refine ⟨fun hstarts => ?_, ih hshown hcloses⟩
      exact hchar (List.cons_prefix_cons.mp hstarts).1.symm
  | code htoken hmeets hrest ih =>
      obtain ⟨hfirst, hlater⟩ := List.forall_mem_cons.mp hshown
      obtain ⟨hfirstCloses, hlaterCloses⟩ := List.forall_mem_cons.mp hcloses
      rw [spell_append, spell_map_char]
      exact hstep (hfirst.not_isInfix_core hfirstCloses) hmeets (ih hlater hlaterCloses)
  | literal htoken hmeets hend hrest ih =>
      obtain ⟨hfirst, hlater⟩ := List.forall_mem_cons.mp hshown
      obtain ⟨hfirstCloses, hlaterCloses⟩ := List.forall_mem_cons.mp hcloses
      exact hstep hfirstCloses hmeets (ih hlater hlaterCloses)

end

/-! ## Reading the code between literals -/

/-- Nothing opens in the text when `next` follows it. -/
def opensNothing (scope : Scope) (next : Option Char) : List Char → Bool
  | [] => true
  | char :: rest => (scope.opening? char (rest.head?.or next)).isNone && opensNothing scope next rest

theorem Scope.opening?_of_ne {scope : Scope} {char : Char} (hslash : char ≠ '/')
    (hquote : char = '\"' → scope ≠ .all) (next : Option Char) :
    scope.opening? char next = none := by
  rw [Scope.opening?_eq_none_iff]
  exact ⟨fun h => hslash h.1, fun h => hslash h.1, fun h => hquote h.1 h.2⟩

theorem opensNothing_of_ne {scope : Scope} {text : List Char} (hslash : '/' ∉ text)
    (hquote : '\"' ∈ text → scope ≠ .all) (next : Option Char) : opensNothing scope next text := by
  induction text with
  | nil => rfl
  | cons char rest ih =>
      rw [List.mem_cons, not_or] at hslash
      rw [opensNothing, Scope.opening?_of_ne (Ne.symm hslash.1) (fun h => hquote (h ▸ List.mem_cons_self)),
        ih hslash.2 fun h => hquote (List.mem_cons_of_mem _ h)]
      rfl

/-- What opens nothing at the end of a text opens nothing before what it meets. -/
theorem opensNothing_of_meets {scope : Scope} {front back : List Char} (hmeets : Meets front back)
    (hfront : opensNothing scope none front) : opensNothing scope back.head? front := by
  induction front with
  | nil => rfl
  | cons char rest ih =>
      rw [opensNothing, Bool.and_eq_true, Option.isNone_iff_eq_none] at hfront ⊢
      refine ⟨?_, ih ?_ hfront.2⟩
      · cases hrest : rest.head? with
        | some next =>
            rw [hrest, Option.some_or] at hfront
            exact hfront.1
        | none =>
            rw [hrest, Option.or_none] at hfront
            rw [Option.none_or]
            obtain rfl : rest = [] := List.head?_eq_none_iff.mp hrest
            have hopening := Scope.opening?_eq_none_iff.mp hfront.1
            rw [Scope.opening?_eq_none_iff]
            refine ⟨?_, ?_, hopening.2.2⟩
            · rintro ⟨rfl, hnext⟩
              exact absurd (hmeets _ _ rfl hnext) (by decide)
            · rintro ⟨rfl, hnext, -⟩
              exact absurd (hmeets _ _ rfl hnext) (by decide)
      · intro last first hlast hfirst
        refine hmeets last first ?_ hfirst
        rw [List.getLast?_cons, hlast]
        rfl

theorem reads_code_append {scope : Scope} {front back : List Char} {found : List Segment}
    (hfront : opensNothing scope back.head? front) (hback : Reads scope back found) :
    Reads scope (front ++ back) (front.map .code ++ found) := by
  induction front with
  | nil => exact hback
  | cons char rest ih =>
      rw [opensNothing, Bool.and_eq_true, Option.isNone_iff_eq_none] at hfront
      refine .code ?_ (ih hfront.2)
      change scope.opening? char (rest ++ back).head? = none
      rw [List.head?_append]
      exact hfront.1

theorem Token.opensNothing_spelling {token : Token} (htoken : token ≠ .commentOpen)
    (scope : Scope) : opensNothing scope none token.spelling := by
  have hall : ∀ scope ∈ [Scope.all, Scope.comments, Scope.lineComments], ∀ token ∈ all,
      token ≠ .commentOpen → opensNothing scope none token.spelling := by
    decide
  exact hall scope (by cases scope <;> decide) token (mem_all token) htoken

theorem throughCommentEnd?_eq_none {text : List Char} (hoccurs : ¬"*/".toList <:+: text) :
    Segment.throughCommentEnd? text = none := by
  induction text with
  | nil => rfl
  | cons char rest ih =>
      rw [List.infix_cons_iff, not_or] at hoccurs
      rw [Segment.throughCommentEnd?, if_neg, ih hoccurs.2, Option.map_none]
      rintro ⟨rfl, hnext⟩
      obtain ⟨later, rfl⟩ := List.head?_eq_some_iff.mp hnext
      exact hoccurs.1 ⟨later, rfl⟩

/-! ## Reading literals -/

theorem Scope.opening?_of_all {scope : Scope} {kind : Literal.Kind} {char : Char}
    {next : Option Char} (hopening : Scope.all.opening? char next = some kind)
    (hscope : ¬scope.Ignores kind) : scope.opening? char next = some kind := by
  cases kind with
  | string =>
      obtain ⟨hchar, -⟩ := Scope.opening?_eq_string_iff.mp hopening
      exact Scope.opening?_eq_string_iff.mpr ⟨hchar, not_not.mp hscope⟩
  | blockComment =>
      obtain ⟨hchar, hnext, -⟩ := Scope.opening?_eq_blockComment_iff.mp hopening
      exact Scope.opening?_eq_blockComment_iff.mpr ⟨hchar, hnext, hscope⟩
  | lineComment =>
      exact Scope.opening?_eq_lineComment_iff.mpr (Scope.opening?_eq_lineComment_iff.mp hopening)

theorem IsLiteral.isLineComment {text : List Char} (hliteral : IsLiteral .lineComment text) :
    IsLineComment text := by
  obtain ⟨char, next, tail, rfl, hopening⟩ := hliteral.opens
  obtain ⟨rfl, hnext⟩ := Scope.opening?_eq_lineComment_iff.mp hopening
  rw [Option.some.inj hnext]
  exact ⟨tail, rfl⟩

theorem IsLiteral.literalAt?_append {kind : Literal.Kind} {text : List Char}
    (hliteral : IsLiteral kind text) {back : List Char}
    (hend : IsLineComment text → back.head?.all (· = '\n')) :
    Segment.literalAt? (text ++ back) kind = some text := by
  have hwhole : Segment.literalAt? (text ++ []) kind = some text := by
    rw [List.append_nil]
    exact hliteral.whole
  cases kind with
  | lineComment =>
      have hfeed := (Segment.literalAt?_lineComment_iff.mp hwhole).1
      exact Segment.literalAt?_lineComment_iff.mpr ⟨hfeed, hend hliteral.isLineComment⟩
  | blockComment => exact Segment.literalAt?_append (by decide) hwhole back
  | string => exact Segment.literalAt?_append (by decide) hwhole back

/-- A literal is read whole where its kind is looked for. -/
theorem reads_literal_append {scope : Scope} {kind : Literal.Kind} {text back : List Char}
    {found : List Segment} (hliteral : IsLiteral kind text) (hscope : ¬scope.Ignores kind)
    (hend : IsLineComment text → back.head?.all (· = '\n')) (hback : Reads scope back found) :
    Reads scope (text ++ back) (.literal kind text :: found) := by
  have hwhole := hliteral.literalAt?_append hend
  obtain ⟨char, next, tail, rfl, hopening⟩ := hliteral.opens
  exact .literal (Scope.opening?_of_all hopening hscope) hwhole hback

/-! ## Reading the lexemes -/

/-- The segments show the atoms, and an opener without an end is one that the lexemes hold. -/
structure Shows (lexemes : List Lexeme) (atoms : List Atom) (found : List Segment) : Prop where
  atoms : found.map Segment.atom = atoms
  unclosed : ∀ kind char, .unclosed kind char ∈ found →
    ∃ lexeme ∈ lexemes, lexeme.token = .commentOpen ∨ lexeme.token = .text ∧ '\"' ∈ lexeme.text

section

variable {lexeme : Lexeme} {lexemes : List Lexeme} {atoms : List Atom} {found : List Segment}

theorem Shows.cons (hshows : Shows lexemes atoms found) {text : List Char} :
    Shows (lexeme :: lexemes) (text.map .char ++ atoms) (text.map .code ++ found) where
  atoms := by
    rw [List.map_append, hshows.atoms, List.map_map]
    rfl
  unclosed kind char hmem := by
    rw [List.mem_append, List.mem_map] at hmem
    rcases hmem with ⟨_, -, heq⟩ | hmem
    · exact Segment.noConfusion heq
    · obtain ⟨other, hother, hopens⟩ := hshows.unclosed kind char hmem
      exact ⟨other, List.mem_cons_of_mem _ hother, hopens⟩

theorem Shows.cons_unclosed (hshows : Shows lexemes atoms found)
    (front back : List Char)
    (hlexeme : lexeme.token = .commentOpen ∨ lexeme.token = .text ∧ '\"' ∈ lexeme.text)
    {kind : Literal.Kind} {char : Char} :
    Shows (lexeme :: lexemes) ((front ++ char :: back).map .char ++ atoms)
      (front.map .code ++ .unclosed kind char :: (back.map .code ++ found)) where
  atoms := by
    rw [List.map_append, List.map_cons, List.map_append, hshows.atoms, List.map_map, List.map_map,
      List.map_append, List.map_cons, List.append_assoc]
    rfl
  unclosed _ _ _ := ⟨lexeme, List.mem_cons_self, hlexeme⟩

/-- A lexeme that opens nothing is read as code. -/
theorem exists_reads_code {scope : Scope} (hmeets : Meets lexeme.core (spell atoms))
    (hopens : opensNothing scope none lexeme.core)
    (hlater : ∃ found, Reads scope (spell atoms) found ∧ Shows lexemes atoms found) :
    ∃ found, Reads scope (spell (lexeme.core.map .char ++ atoms)) found ∧
      Shows (lexeme :: lexemes) (lexeme.core.map .char ++ atoms) found := by
  obtain ⟨found, hreads, hshows⟩ := hlater
  rw [spell_append, spell_map_char]
  exact ⟨_, reads_code_append (opensNothing_of_meets hmeets hopens) hreads, hshows.cons⟩

/-- A comment mark that nothing closes is read as code, and so is every block comment after it. -/
theorem exists_reads_commentOpen {scope : Scope} (htoken : lexeme.token = .commentOpen)
    (hcloses : ¬"*/".toList <:+: spell atoms) (hmeets : Meets lexeme.core (spell atoms))
    (hlater : ∃ found, Reads .lineComments (spell atoms) found ∧ Shows lexemes atoms found) :
    ∃ found, Reads scope (spell (lexeme.core.map .char ++ atoms)) found ∧
      Shows (lexeme :: lexemes) (lexeme.core.map .char ++ atoms) found := by
  have hcore : lexeme.core = ['/'] ++ ['*'] := by
    rw [(Lexeme.core_of_isTableEntry (by rw [htoken]; rfl)).2, htoken]
    rfl
  by_cases hscope : scope = .lineComments
  · subst hscope
    exact exists_reads_code hmeets (by rw [hcore]; decide) hlater
  · obtain ⟨found, hreads, hshows⟩ := hlater
    have hstar : Reads .lineComments ('*' :: spell atoms) (['*'].map .code ++ found) :=
      .code (Scope.opening?_of_ne (by decide) (by decide) _) hreads
    have hopening : scope.opening? '/' ('*' :: spell atoms).head? = some .blockComment :=
      Scope.opening?_eq_blockComment_iff.mpr ⟨rfl, rfl, hscope⟩
    have hliteral : Segment.literalAt? ('/' :: '*' :: spell atoms) .blockComment = none := by
      rw [Segment.literalAt?, List.drop_succ_cons, List.drop_succ_cons, List.drop_zero,
        throughCommentEnd?_eq_none hcloses]
      rfl
    rw [spell_append, spell_map_char, hcore]
    exact ⟨_, .unclosed hopening hliteral hstar, hshows.cons_unclosed [] ['*'] (Or.inl htoken)⟩

/-- Where the first quote of raw text stands in its layout. -/
theorem exists_core_of_quote (htoken : lexeme.token = .text) (hquote : '\"' ∈ lexeme.text) :
    ∃ front back, lexeme.core = front ++ '\"' :: back ∧ '\"' ∉ front ∧
      closesString false back =
        closesString false (lexeme.text.dropWhile (· != '\"')).tail := by
  obtain ⟨front, back, htext, hfront⟩ := List.eq_append_cons_of_mem hquote
  have hhorizontal : Blank.isHorizontal '\"' = false := by decide
  refine ⟨Blank.squeeze front, Blank.squeeze back, ?_, ?_, ?_⟩
  · rw [(Lexeme.core_of_text htoken).2, htext, Blank.squeeze,
      Blank.squeezeFrom_append_cons hhorizontal]
    rfl
  · rwa [Blank.mem_squeeze_iff (by decide)]
  · rw [closesString_squeeze, htext, List.dropWhile_append_of_pos,
      List.dropWhile_cons_of_neg (by simp)]
    · rfl
    · intro char hchar
      rw [bne_iff_ne]
      rintro rfl
      exact hfront hchar

theorem Lexeme.IsShown.not_mem_text (hshown : lexeme.IsShown) (htoken : lexeme.token = .text)
    {char : Char} (hmark : Piece.isMarkChar char) : char ∉ lexeme.text := by
  intro hchar
  rw [hshown.isMarkChar htoken char hchar] at hmark
  exact absurd hmark Bool.false_ne_true

theorem Lexeme.IsShown.slash_not_mem_core (hshown : lexeme.IsShown) (htoken : lexeme.token = .text) :
    '/' ∉ lexeme.core := by
  rw [(Lexeme.core_of_text htoken).2, Blank.mem_squeeze_iff (by decide)]
  exact hshown.not_mem_text htoken (by decide)

/-- Only comment marks and quotes open anything. -/
theorem Lexeme.IsShown.opensNothing_core (hshown : lexeme.IsShown) {scope : Scope}
    (hplaceholder : lexeme.token ≠ .placeholder) (hopen : lexeme.token ≠ .commentOpen)
    (hquote : scope = .all → ¬(lexeme.token = .text ∧ '\"' ∈ lexeme.text)) :
    opensNothing scope none lexeme.core := by
  rcases hshown.cases with hentry | htoken | htext
  · rw [(core_of_isTableEntry hentry).2]
    exact Token.opensNothing_spelling hopen scope
  · exact absurd htoken hplaceholder
  · refine opensNothing_of_ne (hshown.slash_not_mem_core htext) (fun hmem hall => ?_) none
    rw [(core_of_text htext).2, Blank.mem_squeeze_iff (by decide)] at hmem
    exact hquote hall ⟨htext, hmem⟩

/-- A quote in raw text that nothing closes is read as code, and so is every quote after it. -/
theorem exists_reads_quote (hshown : lexeme.IsShown) (htoken : lexeme.token = .text)
    (hquote : '\"' ∈ lexeme.text)
    (hcloses : closesString false (lexeme.text.dropWhile (· != '\"')).tail = false)
    (hlaterCloses : closesString false (spell atoms) = false)
    (hmeets : Meets lexeme.core (spell atoms))
    (hlater : ∃ found, Reads .comments (spell atoms) found ∧ Shows lexemes atoms found) :
    ∃ found, Reads .all (spell (lexeme.core.map .char ++ atoms)) found ∧
      Shows (lexeme :: lexemes) (lexeme.core.map .char ++ atoms) found := by
  obtain ⟨found, hreads, hshows⟩ := hlater
  obtain ⟨front, back, hcore, hfront, hback⟩ := exists_core_of_quote htoken hquote
  have hslash := hshown.slash_not_mem_core htoken
  rw [hcore, List.mem_append, List.mem_cons, not_or, not_or] at hslash
  have hsuffix : back <:+ lexeme.core := hcore ▸ ⟨front ++ ['\"'], by simp⟩
  have hrest : closesString false (back ++ spell atoms) = false := by
    rw [(hmeets.of_suffix hsuffix).closesString_append, hback, hcloses, hlaterCloses]
    rfl
  have hbackReads := reads_code_append
    (opensNothing_of_ne hslash.2.2 (fun _ => Scope.noConfusion) _) hreads
  have hopening : Scope.all.opening? '\"' (back ++ spell atoms).head? = some .string :=
    Scope.opening?_eq_string_iff.mpr ⟨rfl, rfl⟩
  have hliteral : Segment.literalAt? ('\"' :: (back ++ spell atoms)) .string = none := by
    rw [closesString, Option.isSome_eq_false_iff, Option.isNone_iff_eq_none] at hrest
    rw [Segment.literalAt?, List.drop_succ_cons, List.drop_zero, hrest]
    rfl
  rw [spell_append, spell_map_char, hcore, List.append_assoc]
  exact ⟨_, reads_code_append (opensNothing_of_ne hslash.1 (fun h => absurd h hfront) _)
    (.unclosed hopening hliteral hbackReads), hshows.cons_unclosed _ _ (Or.inr ⟨htoken, hquote⟩)⟩

theorem exists_reads_blank {char : Char} (hblank : isBlank char) {scope : Scope}
    (hlater : ∃ found, Reads scope (spell atoms) found ∧ Shows lexemes atoms found) :
    ∃ found, Reads scope (spell (.char char :: atoms)) found ∧
      Shows lexemes (.char char :: atoms) found := by
  obtain ⟨found, hreads, hshows⟩ := hlater
  have hopening : ∀ next, scope.opening? char next = none := by
    refine Scope.opening?_of_ne ?_ ?_ <;> rintro rfl <;> exact absurd hblank (by decide)
  refine ⟨.code char :: found, .code (hopening _) hreads, ?_, ?_⟩
  · rw [List.map_cons, hshows.atoms]
    rfl
  · intro kind other hmem
    rw [List.mem_cons] at hmem
    rcases hmem with heq | hmem
    · exact Segment.noConfusion heq
    · exact hshows.unclosed kind other hmem

theorem IsLiteral.atom_eq {kind : Literal.Kind} {text : List Char} (hliteral : IsLiteral kind text) :
    (Segment.literal kind text).atom = .literal text := by
  cases kind with
  | lineComment => rw [Segment.atom, hliteral.trimmed rfl]
  | string => rfl
  | blockComment => rfl

/-- A literal is laid out with its own text, so it is read back where its kind is still looked
for. -/
theorem exists_reads_literal
    (hend : IsLineComment lexeme.text → (spell atoms).head?.all (· = '\n')) {scope : Scope}
    (hscope : ∃ kind, ¬scope.Ignores kind ∧ IsLiteral kind lexeme.text)
    (hlater : ∃ found, Reads scope (spell atoms) found ∧ Shows lexemes atoms found) :
    ∃ found, Reads scope (spell (.literal lexeme.text :: atoms)) found ∧
      Shows (lexeme :: lexemes) (.literal lexeme.text :: atoms) found := by
  obtain ⟨found, hreads, hshows⟩ := hlater
  obtain ⟨kind, hkind, hliteral⟩ := hscope
  refine ⟨.literal kind lexeme.text :: found, reads_literal_append hliteral hkind hend hreads,
    ?_, ?_⟩
  · rw [List.map_cons, hshows.atoms, hliteral.atom_eq]
  · intro other char hmem
    rw [List.mem_cons] at hmem
    rcases hmem with heq | hmem
    · exact Segment.noConfusion heq
    · obtain ⟨found, hfound, hopens⟩ := hshows.unclosed other char hmem
      exact ⟨found, List.mem_cons_of_mem _ hfound, hopens⟩

/-- Atoms that show lexemes are read as just these atoms. -/
theorem exists_reads_of_laid (hlaid : Laid lexemes atoms) {scope : Scope}
    (hshown : ∀ lexeme ∈ lexemes, lexeme.IsShown)
    (hscope : InScope scope (lexemes.map Lexeme.item))
    (hcomments : CommentsStayOpen (lexemes.map Lexeme.item))
    (hquotes : scope = .all → QuoteStaysOpen (lexemes.map Lexeme.item)) :
    ∃ found, Reads scope (spell atoms) found ∧ Shows lexemes atoms found := by
  induction hlaid generalizing scope with
  | done => exact ⟨[], .done scope, rfl, by simp⟩
  | blank hblank hrest ih => exact exists_reads_blank hblank (ih hshown hscope hcomments hquotes)
  | @literal lexeme lexemes atoms htoken hmeets hend hrest ih =>
      obtain ⟨-, hlater⟩ := List.forall_mem_cons.mp hshown
      rw [List.map_cons] at hscope hcomments hquotes
      have hopen : lexeme.item.1 ≠ .commentOpen := by
        rw [Lexeme.item, htoken]
        exact Token.noConfusion
      have htext : lexeme.item.1 ≠ .text := by
        rw [Lexeme.item, htoken]
        exact Token.noConfusion
      have hafter : scope.afterItem lexeme.item = scope :=
        Scope.afterItem_of_other hopen (fun h => absurd h htext) scope
      obtain ⟨hliteral, hscope⟩ := hscope
      rw [hafter] at hscope
      refine exists_reads_literal hend (hliteral htoken)
        (ih hlater hscope (List.pairwise_cons.mp hcomments).2 fun hall => ?_)
      exact (quoteStaysOpen_cons_of_other hopen fun h => htext h.1).mp (hquotes hall)
  | @code lexeme lexemes atoms htoken hmeets hrest ih =>
      obtain ⟨hfirst, hlater⟩ := List.forall_mem_cons.mp hshown
      rw [List.map_cons] at hscope hcomments hquotes
      obtain ⟨hcloses, hcomments⟩ := List.pairwise_cons.mp hcomments
      obtain ⟨-, hscope⟩ := hscope
      by_cases hopen : lexeme.item.1 = .commentOpen
      · rw [Scope.afterItem, if_pos hopen] at hscope
        refine exists_reads_commentOpen hopen (hrest.not_isInfix hlater fun other hother => ?_) hmeets
          (ih hlater hscope hcomments fun hall => Scope.noConfusion hall)
        exact hcloses other.item (List.mem_map_of_mem hother) hopen
      by_cases hquote : scope = .all ∧ lexeme.item.1 = .text ∧ '\"' ∈ lexeme.item.2
      · obtain ⟨rfl, hquote⟩ := hquote
        have hquotes := hquotes rfl
        rw [QuoteStaysOpen, if_neg hopen, if_pos hquote] at hquotes
        rw [Scope.afterItem, if_neg hopen, if_pos hquote] at hscope
        have hopens := (hrest.closesString_eq_false_iff hlater).mpr hquotes.2
        exact exists_reads_quote hfirst hquote.1 hquote.2 hquotes.1 hopens hmeets
          (ih hlater hscope hcomments fun hall => Scope.noConfusion hall)
      · have hafter : scope.afterItem lexeme.item = scope := by
          rw [Scope.afterItem, if_neg hopen]
          split
          · rename_i hitem
            have hall : scope ≠ .all := fun hall => hquote ⟨hall, hitem⟩
            rw [Scope.without, if_neg hall]
          · rfl
        have hopens := hfirst.opensNothing_core htoken hopen fun hall h => hquote ⟨hall, h⟩
        rw [hafter] at hscope
        refine exists_reads_code hmeets hopens (ih hlater hscope hcomments fun hall => ?_)
        exact (quoteStaysOpen_cons_of_other hopen fun h => hquote ⟨hall, h⟩).mp (hquotes hall)

end

end ChuckLayout
