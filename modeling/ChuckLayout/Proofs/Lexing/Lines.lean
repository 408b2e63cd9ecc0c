import ChuckLayout.Document
import ChuckLayout.Proofs.Lexing.Atoms
import ChuckLayout.Proofs.Masking.Hidden
import ChuckLayout.Proofs.Text.Squeeze

/-!
# The lines of a masked text

The lexemes of a masked text, with the values behind their placeholders, are the lexemes of its
atoms.  Lines are lexed one by one: the first `//` of a line is where the reading finds its comment,
and in the code before it a placeholder of the table is always a hole.
-/

namespace ChuckLayout

open Placeholder (IsUnused numbered)
open Word (IsWord isWordChar separator)
open Mark (showAll veil IsReading IsIsolated AreKnown Extends IsMasked)

namespace Lexeme

/-- The lexeme with the value behind it in place of a placeholder. -/
def reveal (table : LiteralTable) (lexeme : Lexeme) : Lexeme :=
  if lexeme.token = .placeholder then
    { lexeme with text := (table.valueOf? lexeme.text).getD lexeme.text }
  else lexeme

/-- A placeholder is known to the table, and raw text holds no placeholder of the table. -/
structure IsSound (table : LiteralTable) (lexeme : Lexeme) : Prop where
  known : lexeme.token = .placeholder → ∃ value, table.Knows lexeme.text value
  unused : lexeme.token = .text → IsUnused table.salt lexeme.text

theorem IsSound.extend {earlier later : LiteralTable} {lexeme : Lexeme}
    (hsound : lexeme.IsSound earlier) (hextends : Extends earlier later) :
    lexeme.IsSound later where
  known htoken := by
    obtain ⟨value, hvalue⟩ := hsound.known htoken
    exact ⟨value, hextends.knows _ _ hvalue⟩
  unused htoken := by
    rw [LiteralTable.salt, hextends.saltSize]
    exact hsound.unused htoken

end Lexeme

theorem Lexeme.IsSound.reveal_extend {earlier later : LiteralTable} {lexeme : Lexeme}
    (hsound : lexeme.IsSound earlier) (hextends : Extends earlier later) :
    lexeme.reveal later = lexeme.reveal earlier := by
  unfold Lexeme.reveal
  split
  · rename_i htoken
    obtain ⟨value, hvalue⟩ := hsound.known htoken
    have hlater := hextends.knows _ _ hvalue
    rw [LiteralTable.Knows] at hvalue hlater
    rw [hvalue, hlater]
  · rfl

/-- Lexing from `table` on has read `lexemes`, once placeholders are revealed. -/
structure LexesTo (table : LiteralTable) (lexed : Lexed) (lexemes : List Lexeme) : Prop where
  extends' : Extends table lexed.table
  sound : ∀ lexeme ∈ lexed.lexemes, lexeme.IsSound lexed.table
  revealed : lexed.lexemes.map (Lexeme.reveal lexed.table) = lexemes

/-- Lexing goes on with the table that it has come to, and what was lexed before stays sound. -/
theorem LexesTo.append {table : LiteralTable} {first second : Lexed} {front back : List Lexeme}
    (hfirst : LexesTo table first front) (hsecond : LexesTo first.table second back) :
    LexesTo table ⟨first.lexemes ++ second.lexemes, second.table⟩ (front ++ back) where
  extends' := hfirst.extends'.trans hsecond.extends'
  sound lexeme hlexeme := by
    rcases List.mem_append.mp hlexeme with hmem | hmem
    · exact (hfirst.sound lexeme hmem).extend hsecond.extends'
    · exact hsecond.sound lexeme hmem
  revealed := by
    rw [List.map_append, hsecond.revealed, ← hfirst.revealed]
    congr 1
    apply List.map_congr_left
    intro lexeme hlexeme
    exact (hfirst.sound lexeme hlexeme).reveal_extend hsecond.extends'

/-! ## The code of a line -/

/-- Every placeholder that a table can issue is scanned as one. -/
theorem ofWord_numbered (kind : Literal.Kind) (size number : Nat) :
    Piece.ofWord (numbered kind (Placeholder.saltOfSize size) number) = .placeholder := by
  have hhead : ∀ keyword ∈ Piece.keywords, ∀ kind,
      keyword.spelling.head? ≠ (Placeholder.tag kind).head? := by
    intro keyword hkeyword kind
    revert keyword
    cases kind <;> decide
  have hfind : (Piece.keywords.find? fun keyword =>
      keyword.spelling = numbered kind (Placeholder.saltOfSize size) number) = none := by
    rw [List.find?_eq_none]
    intro keyword hkeyword heq
    apply hhead keyword hkeyword kind
    rw [of_decide_eq_true heq, numbered,
      List.head?_append_of_ne_nil _ (Placeholder.stem_ne_nil kind _), Placeholder.head?_stem]
  rw [Piece.ofWord, hfind]
  simp [Placeholder.isName_numbered]

theorem scan_word {word : List Char} (hword : IsWord word) (hne : word ≠ []) :
    scan word = [.item (Piece.ofWord word) word] := by
  obtain ⟨char, rest, rfl⟩ := List.exists_cons_of_ne_nil hne
  have hchar := hword char List.mem_cons_self
  have hgap : Piece.isGap char = false := by
    rw [Bool.eq_false_iff]
    intro hgap
    rw [Piece.isWordChar_of_isGap hgap] at hchar
    exact Bool.noConfusion hchar
  have hrest : rest.takeWhile isWordChar = rest :=
    List.takeWhile_eq_self_iff.mpr fun other hother => hword other (List.mem_cons_of_mem _ hother)
  have hleading : Piece.leading char rest = .item (Piece.ofWord (char :: rest)) (char :: rest) := by
    rw [Piece.leading, hgap, if_neg Bool.false_ne_true, if_pos hchar, hrest]
  rw [scan_of_leading hleading [] (by simp [Piece.text]), scan_nil]

def lexPlain (code : List Char) : List Atom → List Lexeme
  | [] => codeOf code
  | .char char :: rest => lexPlain (code ++ [char]) rest
  | .literal text :: rest => codeOf code ++ { token := .placeholder, text } :: lexPlain [] rest

theorem token_ne_placeholder_of_mem_codeOf {code : List Char} {lexeme : Lexeme}
    (hlexeme : lexeme ∈ codeOf code) : lexeme.token ≠ .placeholder := by
  rcases Line.mem_codeLexemes hlexeme with ⟨heq, -⟩ | ⟨token, text, -, halone, rfl⟩
  · rw [heq]
    exact Token.noConfusion
  · rintro rfl
    simp [Line.standsAlone, LiteralTable.isIssued, LiteralTable.valueOf?] at halone

theorem reveal_codeOf (table : LiteralTable) (code : List Char) :
    (codeOf code).map (Lexeme.reveal table) = codeOf code := by
  conv_rhs => rw [← List.map_id (codeOf code)]
  apply List.map_congr_left
  intro lexeme hlexeme
  rw [Lexeme.reveal, if_neg (token_ne_placeholder_of_mem_codeOf hlexeme), id]

/-- What a line is made of before its comment and its line break. -/
def Mark.IsPlain : Mark → Prop
  | .code char => char ≠ '\n'
  | .hole _ _ => True
  | _ => False

/-- Induction over a plain line: it goes on with a character of the code or with a hole. -/
@[elab_as_elim]
theorem Mark.plain_induction {motive : (line : List Mark) → (∀ mark ∈ line, mark.IsPlain) → Prop}
    (nil : motive [] (List.forall_mem_nil _))
    (code : ∀ char rest (hchar : char ≠ '\n') (hrest : ∀ mark ∈ rest, mark.IsPlain),
      motive rest hrest → motive (.code char :: rest) (List.forall_mem_cons.mpr ⟨hchar, hrest⟩))
    (hole : ∀ name value rest (hrest : ∀ mark ∈ rest, mark.IsPlain),
      motive rest hrest →
        motive (.hole name value :: rest) (List.forall_mem_cons.mpr ⟨trivial, hrest⟩))
    {line : List Mark} (hplain : ∀ mark ∈ line, mark.IsPlain) : motive line hplain := by
  induction line with
  | nil => exact nil
  | cons mark rest ih =>
      obtain ⟨hmark, hrest⟩ := List.forall_mem_cons.mp hplain
      cases mark with
      | code char => exact code char rest hmark hrest (ih hrest)
      | hole name value => exact hole name value rest hrest (ih hrest)
      | literal kind text => exact hmark.elim
      | unclosed kind char => exact hmark.elim

variable {table : LiteralTable} {line : List Mark}

theorem isBoundary_of_separator {front back : List Char}
    (hword : ∀ first, back.head? = some first → isWordChar first)
    (hfront : separator front.getLast? = []) : IsBoundary front back := by
  intro last first hlast hfirst
  rw [Mark.separator_eq_nil_iff, hlast, Option.any_some] at hfront
  rw [hfront, hword first hfirst]
  decide

theorem isBoundary_word {word back : List Char} (hword : IsWord word)
    (hback : separator back.head? = []) : IsBoundary word back := by
  intro last first hlast hfirst
  rw [Mark.separator_eq_nil_iff, hfirst, Option.any_some] at hback
  rw [hback, hword last (List.mem_of_getLast? hlast)]
  decide

/-- Raw text is cut from code, and holds no more names than the code does. -/
theorem isSound_of_mem_codeOf {code : List Char} (hunused : IsUnused table.salt code)
    {lexeme : Lexeme} (hlexeme : lexeme ∈ codeOf code) : lexeme.IsSound table where
  known htoken := absurd htoken (token_ne_placeholder_of_mem_codeOf hlexeme)
  unused _ := hunused.of_isInfix (isInfix_of_mem_codeLexemes hlexeme)

theorem reveal_of_knows {name value : List Char} (hknows : table.Knows name value) :
    Lexeme.reveal table { token := .placeholder, text := name } =
      { token := .placeholder, text := value } := by
  rw [LiteralTable.Knows] at hknows
  simp [Lexeme.reveal, hknows]

/-- A hole with its separators is scanned as one piece, apart from the code on either side. -/
theorem scan_hole {code name value back : List Char} (hnumbered : table.IsNumbered)
    (hknows : table.Knows name value) (hword : IsWord name) (hne : name ≠ [])
    (hlead : separator code.getLast? = []) (htrail : separator back.head? = []) :
    scan (code ++ (name ++ back)) = scan code ++ .item .placeholder name :: scan back := by
  have hfront : IsBoundary code (name ++ back) := by
    apply isBoundary_of_separator _ hlead
    intro first hfirst
    obtain ⟨char, rest, rfl⟩ := List.exists_cons_of_ne_nil hne
    obtain rfl : char = first := by simpa using hfirst
    exact hword char List.mem_cons_self
  obtain ⟨kind, number, -, rfl⟩ := hnumbered.exists_of_knows hknows
  rw [scan_append hfront, scan_append (isBoundary_word hword htrail), scan_word hword hne,
    LiteralTable.salt, ofWord_numbered]
  rfl

def Mark.hidden : Mark → Atom
  | .hole name _ => .literal name
  | mark => mark.atom

/-- A plain line: its holes stand alone, and the code between them is lexed as if they were not
there. -/
theorem codeLexemes_plain (code : List Char) (hplain : ∀ mark ∈ line, mark.IsPlain)
    (hproper : ∀ mark ∈ line, mark.IsProper) (hisolated : IsIsolated code.getLast? line)
    (hnumbered : table.IsNumbered) (hknown : AreKnown table line)
    (hunused : IsUnused table.salt (code ++ veil line)) :
    Line.codeLexemes table [] (scan (code ++ showAll line)) =
        lexPlain code (line.map Mark.hidden) ∧
      ∀ lexeme ∈ lexPlain code (line.map Mark.hidden), lexeme.IsSound table := by
  induction hplain using Mark.plain_induction generalizing code with
  | nil =>
      rw [veil, List.flatMap_nil, List.append_nil] at hunused
      rw [Mark.showAll_nil, List.append_nil, codeLexemes_eq_codeOf hnumbered hunused]
      exact ⟨rfl, fun _ => isSound_of_mem_codeOf hunused⟩
  | code char rest _ _ ih =>
      have hlast : (code ++ [char]).getLast? = some char := List.getLast?_concat
      have hstep := ih (code ++ [char]) (List.forall_mem_cons.mp hproper).2
        (by rw [hlast]; exact hisolated) (Mark.areKnown_cons.mp hknown).2
        (by simpa [veil, Mark.shown] using hunused)
      simpa [Mark.shown, lexPlain, Mark.hidden, Mark.atom] using hstep
  | hole name value rest _ ih =>
      obtain ⟨hmarkProper, hrestProper⟩ := List.forall_mem_cons.mp hproper
      obtain ⟨hmarkKnown, hrestKnown⟩ := Mark.areKnown_cons.mp hknown
      have hword := hmarkProper.isWord name value rfl
      have hne : name ≠ [] := hmarkProper.shown_ne_nil
      obtain ⟨hlead, htrail, hrestIsolated⟩ := hisolated
      have hnameKnown := hmarkKnown name value rfl
      have hrestUnused : IsUnused table.salt (veil rest) :=
        hunused.of_isInfix (List.IsSuffix.isInfix ⟨code ++ [' '], by simp [veil]⟩)
      obtain ⟨hrestLexemes, hrestSound⟩ := ih [] hrestProper
        (hrestIsolated.change hrestProper (Or.inl rfl)) hrestKnown hrestUnused
      have hscan := scan_hole hnumbered hnameKnown hword hne hlead htrail
      have halone : Line.standsAlone table (.item .placeholder name) :=
        LiteralTable.isIssued_iff.mpr ⟨value, hnameKnown⟩
      have hcodeUnused : IsUnused table.salt code :=
        hunused.of_isInfix (List.prefix_append _ _).isInfix
      rw [List.nil_append] at hrestLexemes
      constructor
      · rw [Mark.showAll_cons, Mark.shown, hscan, Line.codeLexemes_append_item halone,
          codeLexemes_eq_codeOf hnumbered hcodeUnused, hrestLexemes]
        rfl
      · intro lexeme hlexeme
        rw [List.map_cons, Mark.hidden, lexPlain, List.mem_append, List.mem_cons] at hlexeme
        rcases hlexeme with hmem | rfl | hmem
        · exact isSound_of_mem_codeOf hcodeUnused hmem
        · exact ⟨fun _ => ⟨value, hnameKnown⟩, fun htoken => Token.noConfusion htoken⟩
        · exact hrestSound lexeme hmem

/-- Revealed, the lexemes of a plain line have the values behind its holes. -/
theorem reveal_lexPlain (code : List Char) (hplain : ∀ mark ∈ line, mark.IsPlain)
    (hknown : AreKnown table line) :
    (lexPlain code (line.map Mark.hidden)).map (Lexeme.reveal table) =
      lexPlain code (line.map Mark.atom) := by
  induction hplain using Mark.plain_induction generalizing code with
  | nil => exact reveal_codeOf table code
  | code char rest _ _ ih => exact ih (code ++ [char]) (Mark.areKnown_cons.mp hknown).2
  | hole name value rest _ ih =>
      obtain ⟨hmarkKnown, hrestKnown⟩ := Mark.areKnown_cons.mp hknown
      rw [List.map_cons, List.map_cons, Mark.hidden, Mark.atom, lexPlain, lexPlain,
        List.map_append, List.map_cons, reveal_codeOf, reveal_of_knows (hmarkKnown name value rfl),
        ih [] hrestKnown]

/-! ## The comment of a line -/

theorem splitBefore?_cons (char : Char) (rest : List Char) :
    Search.splitBefore? "//".toList (char :: rest) =
      if char = '/' ∧ rest.head? = some '/' then some ([], char :: rest)
      else (Search.splitBefore? "//".toList rest).map fun (code, comment) =>
        (char :: code, comment) := by
  simp only [Search.splitBefore?, String.reduceToList, Tile.isPrefixOf_pair, decide_eq_true_eq]

theorem splitBefore?_concat_return (line : List Char) :
    Search.splitBefore? "//".toList (line ++ ['\r']) =
      (Search.splitBefore? "//".toList line).map fun (code, comment) =>
        (code, comment ++ ['\r']) := by
  induction line with
  | nil =>
      rw [List.nil_append, splitBefore?_cons, if_neg (by simp)]
      rfl
  | cons char rest ih =>
      have hhead : (rest ++ ['\r']).head? = some '/' ↔ rest.head? = some '/' := by
        cases rest <;> simp
      rw [List.cons_append, splitBefore?_cons, splitBefore?_cons, ih]
      simp only [hhead]
      split
      · rfl
      · cases Search.splitBefore? "//".toList rest <;> rfl

/-- A carriage return at the end of a line is lexed as nothing, in code and in a comment. -/
theorem lexemes_concat_return (table : LiteralTable) (line : List Char) :
    Line.lexemes table (line ++ ['\r']) = Line.lexemes table line := by
  have hblank : Blank.AllBlank ['\r'] := by
    intro char hchar
    rw [List.mem_singleton.mp hchar]
    decide
  rw [Line.lexemes, Line.lexemes, Line.splitComment, Line.splitComment,
    splitBefore?_concat_return]
  cases Search.splitBefore? "//".toList line with
  | none => simp only [Option.map_none, codeLexemes_concat_return]
  | some parts => simp only [Option.map_some, Blank.trimEnd_append_of_blank hblank]

theorem lexemes_dropReturn (table : LiteralTable) (line : List Char) :
    Line.lexemes table (Line.dropReturn line) = Line.lexemes table line := by
  rw [Line.dropReturn]
  split
  · rename_i hlast
    conv_rhs => rw [← List.dropLast_append_getLast? '\r' hlast]
    rw [lexemes_concat_return]
  · rfl

theorem eq_nil_or_lineBreak {scope : Scope} {marks : List Mark} (hreading : IsReading scope marks)
    (hend : (showAll marks).head?.all (· = '\n')) :
    marks = [] ∨ ∃ after, marks = .code '\n' :: after := by
  cases marks with
  | nil => exact Or.inl rfl
  | cons mark marks =>
      right
      cases mark with
      | code char =>
          obtain rfl : char = '\n' := by simpa [Mark.shown] using hend
          exact ⟨marks, rfl⟩
      | hole name value =>
          obtain ⟨first, tail, rfl⟩ := List.exists_cons_of_ne_nil hreading.2.1
          have hfeed : first = '\n' := by simpa [Mark.shown] using hend
          have hword := hreading.1 first List.mem_cons_self
          rw [hfeed] at hword
          exact absurd hword (by decide)
      | unclosed kind char =>
          have hfeed : char = '\n' := by simpa [Mark.shown] using hend
          rcases Scope.eq_of_opening? hreading.1 with rfl | rfl <;> exact absurd hfeed (by decide)
      | literal kind text =>
          obtain ⟨⟨char, tail, rfl, hopening⟩, -, -⟩ := hreading
          have hfeed : char = '\n' := by simpa [Mark.shown] using hend
          rcases Scope.eq_of_opening? hopening with rfl | rfl <;> exact absurd hfeed (by decide)

/-- A masked text begins with a plain line, perhaps a comment after it, and then a line break or the
end of the text. -/
theorem exists_line {marks : List Mark} (hreading : IsReading .lineComments marks) :
    ∃ (line : List Mark) (comment : Option (List Char)) (rest : List Mark),
      marks = line ++ ((comment.map (Mark.literal .lineComment)).toList ++ rest) ∧
      (∀ mark ∈ line, mark.IsPlain) ∧ (rest = [] ∨ ∃ after, rest = .code '\n' :: after) := by
  induction marks with
  | nil => exact ⟨[], none, [], rfl, by simp, Or.inl rfl⟩
  | cons mark marks ih =>
      have hplain : mark.IsPlain → IsReading .lineComments marks →
          ∃ (line : List Mark) (comment : Option (List Char)) (rest : List Mark),
            mark :: marks = line ++ ((comment.map (Mark.literal .lineComment)).toList ++ rest) ∧
            (∀ mark ∈ line, mark.IsPlain) ∧ (rest = [] ∨ ∃ after, rest = .code '\n' :: after) := by
        intro hmark hmarks
        obtain ⟨line, comment, rest, rfl, hline, hrest⟩ := ih hmarks
        exact ⟨mark :: line, comment, rest, rfl, List.forall_mem_cons.mpr ⟨hmark, hline⟩, hrest⟩
      cases mark with
      | code char =>
          by_cases hfeed : char = '\n'
          · subst hfeed
            exact ⟨[], none, .code '\n' :: marks, rfl, by simp, Or.inr ⟨marks, rfl⟩⟩
          · exact hplain hfeed hreading.2
      | hole name value => exact hplain trivial hreading.2.2
      | unclosed kind char =>
          obtain ⟨hopening, hliteral, -⟩ := hreading
          have hkind := Mark.ne_lineComment_of_none hliteral
          cases kind with
          | lineComment => exact absurd rfl hkind
          | string => exact absurd (Scope.opening?_eq_string_iff.mp hopening).2 (by decide)
          | blockComment => exact absurd rfl (Scope.opening?_eq_blockComment_iff.mp hopening).2.2
      | literal kind text =>
          obtain ⟨⟨char, tail, rfl, hopening⟩, hliteral, hmarks⟩ := hreading
          cases kind with
          | string => exact absurd (Scope.opening?_eq_string_iff.mp hopening).2 (by decide)
          | blockComment => exact absurd rfl (Scope.opening?_eq_blockComment_iff.mp hopening).2.2
          | lineComment =>
              refine ⟨[], some (char :: tail), marks, rfl, by simp, ?_⟩
              obtain ⟨-, hend⟩ := Segment.literalAt?_lineComment_iff.mp hliteral
              exact eq_nil_or_lineBreak hmarks hend

theorem splitBefore?_word {word : List Char} (hword : IsWord word) (tail : List Char) :
    Search.splitBefore? "//".toList (word ++ tail) =
      (Search.splitBefore? "//".toList tail).map fun (code, comment) => (word ++ code, comment) := by
  induction word with
  | nil =>
      rw [List.nil_append]
      cases Search.splitBefore? "//".toList tail <;> rfl
  | cons char word ih =>
      have hslash : char ≠ '/' := by
        rintro rfl
        exact absurd (hword '/' List.mem_cons_self) (by decide)
      rw [List.cons_append, splitBefore?_cons, if_neg fun h => hslash h.1,
        ih fun other hother => hword other (List.mem_cons_of_mem _ hother)]
      cases Search.splitBefore? "//".toList tail <;> rfl

/-- A plain line holds no `//`, and neither does the place where the reading goes on after it. -/
theorem splitBefore?_plain {scope : Scope} {rest : List Mark} (tail : List Char)
    (hplain : ∀ mark ∈ line, mark.IsPlain) (hreading : IsReading scope (line ++ rest))
    (htail : tail.head? = (showAll rest).head? ∨ tail = []) :
    Search.splitBefore? "//".toList (showAll line ++ tail) =
      (Search.splitBefore? "//".toList tail).map fun (code, comment) =>
        (showAll line ++ code, comment) := by
  induction hplain using Mark.plain_induction with
  | nil =>
      rw [Mark.showAll_nil, List.nil_append]
      cases Search.splitBefore? "//".toList tail <;> rfl
  | code char line _ _ ih =>
      have hnot : ¬(char = '/' ∧ (showAll line ++ tail).head? = some '/') := by
        rintro ⟨hchar, hnext⟩
        apply (Scope.opening?_eq_none_iff.mp hreading.1).1
        refine ⟨hchar, ?_⟩
        cases hshow : showAll line with
        | cons first shown => simpa [hshow] using hnext
        | nil =>
            rw [hshow, List.nil_append] at hnext
            rcases htail with htail | rfl
            · simpa [hshow, htail] using hnext
            · simp at hnext
      rw [Mark.showAll_cons, Mark.shown, List.append_assoc, List.singleton_append,
        splitBefore?_cons, if_neg hnot, ih hreading.2]
      cases Search.splitBefore? "//".toList tail <;> simp
  | hole name value line _ ih =>
      rw [Mark.showAll_cons, Mark.shown, List.append_assoc, splitBefore?_word hreading.1,
        ih hreading.2.2]
      cases Search.splitBefore? "//".toList tail <;> simp

def lineEnd : Option (List Char) → List Lexeme
  | none => [.lineBreak]
  | some comment => [{ token := .placeholder, text := Blank.trimEnd comment }, .lineBreak]

theorem isSound_lineBreak (table : LiteralTable) : Lexeme.lineBreak.IsSound table :=
  ⟨fun htoken => Token.noConfusion htoken, fun htoken => Token.noConfusion htoken⟩

/-- The code at the end of a line is pending for what comes after it. -/
theorem lexAtoms_plain_append {code : List Char} {rest : List Atom} {lexemes : List Lexeme}
    (hplain : ∀ mark ∈ line, mark.IsPlain)
    (hrest : ∀ code, lexAtoms code rest = codeOf code ++ lexemes) :
    lexAtoms code (line.map Mark.atom ++ rest) = lexPlain code (line.map Mark.atom) ++ lexemes := by
  induction hplain using Mark.plain_induction generalizing code with
  | nil => exact hrest code
  | code char line hchar _ ih =>
      rw [List.map_cons, List.cons_append, Mark.atom, lexAtoms, if_neg hchar, lexPlain, ih]
  | hole name value line _ ih =>
      rw [List.map_cons, List.cons_append, Mark.atom, lexAtoms, lexPlain, ih, List.append_assoc,
        List.cons_append]

def withComment (line : List Mark) (comment : Option (List Char)) : List Mark :=
  line ++ (comment.map (Mark.literal .lineComment)).toList

theorem lexAtoms_withComment (hplain : ∀ mark ∈ line, mark.IsPlain) (comment : Option (List Char)) :
    lexAtoms [] ((withComment line comment).map Mark.atom) =
      lexPlain [] (line.map Mark.atom) ++ lineEnd comment := by
  rw [withComment, List.map_append]
  refine lexAtoms_plain_append hplain fun code => ?_
  cases comment with
  | none => rfl
  | some comment => simp [lexAtoms, lineEnd, Mark.atom, codeOf_nil]

/-- A line break ends the pending code, so lines are lexed one by one. -/
theorem lexAtoms_append_lineBreak (code : List Char) (front back : List Atom) :
    lexAtoms code (front ++ .char '\n' :: back) = lexAtoms code front ++ lexAtoms [] back := by
  induction front generalizing code with
  | nil => simp [lexAtoms]
  | cons atom front ih =>
      cases atom with
      | char char =>
          rw [List.cons_append, lexAtoms, lexAtoms]
          split <;> simp [ih]
      | literal text => simp [lexAtoms, ih]

theorem lineFeed_not_mem_showAll (hplain : ∀ mark ∈ line, mark.IsPlain)
    (hproper : ∀ mark ∈ line, mark.IsProper) : '\n' ∉ showAll line := by
  induction hplain using Mark.plain_induction with
  | nil => exact List.not_mem_nil
  | code char rest hchar _ ih =>
      rw [Mark.showAll_cons, Mark.shown, List.singleton_append, List.mem_cons, not_or]
      exact ⟨hchar.symm, ih (List.forall_mem_cons.mp hproper).2⟩
  | hole name value rest _ ih =>
      obtain ⟨hmark, hrest⟩ := List.forall_mem_cons.mp hproper
      rw [Mark.showAll_cons, Mark.shown, List.mem_append, not_or]
      exact ⟨fun hfeed => absurd (hmark.isWord name value rfl '\n' hfeed) (by decide), ih hrest⟩

/-- The comment of a line is found where the reading has found it. -/
theorem splitComment_plain {scope : Scope} {comment : Option (List Char)} {rest : List Mark}
    (hplain : ∀ mark ∈ line, mark.IsPlain)
    (hreading : IsReading scope (withComment line comment ++ rest)) :
    Line.splitComment (showAll (withComment line comment)) =
      (showAll line, comment.map Blank.trimEnd) := by
  have hshow : showAll (withComment line comment) = showAll line ++ comment.getD [] := by
    cases comment <;> simp [withComment, Mark.shown]
  rw [withComment, List.append_assoc] at hreading
  rw [hshow]
  cases comment with
  | none =>
      have hsplit := splitBefore?_plain [] hplain hreading (Or.inr rfl)
      rw [Line.splitComment, Option.getD_none, hsplit, List.append_nil]
      rfl
  | some comment =>
      have hclosed : ∀ kind char, Mark.unclosed kind char ∉ line :=
        fun kind char hmem => hplain _ hmem
      obtain ⟨⟨char, tail, rfl, hopening⟩, hliteral, -⟩ := hreading.right hclosed
      obtain ⟨next, after, rfl⟩ :=
        List.exists_cons_of_ne_nil (Segment.tail_ne_nil hopening hliteral)
      have hslashes : char = '/' ∧ (next :: after).head? = some '/' := by
        simpa using Scope.opening?_eq_lineComment_iff.mp hopening
      have hsplit := splitBefore?_plain (char :: next :: after) hplain hreading (Or.inl rfl)
      rw [splitBefore?_cons, if_pos hslashes] at hsplit
      rw [Line.splitComment, Option.getD_some, hsplit]
      simp

/-- What a line and its comment are lexed to, with a fresh placeholder for the comment. -/
def lexedLine (table : LiteralTable) (line : List Mark) : Option (List Char) → Lexed
  | none => ⟨lexPlain [] (line.map Mark.hidden) ++ [.lineBreak], table⟩
  | some comment =>
      let placeholder : Lexeme :=
        { token := .placeholder, text := table.nextPlaceholder .lineComment }
      ⟨lexPlain [] (line.map Mark.hidden) ++ [placeholder, .lineBreak],
        table.add .lineComment (Units.utf8Length (showAll line)) (Blank.trimEnd comment)⟩

/-- Lexing a masked line yields the lexemes of its code and one placeholder for its comment. -/
theorem lexemes_withComment {comment : Option (List Char)} {rest : List Mark}
    (hplain : ∀ mark ∈ line, mark.IsPlain)
    (hmasked : IsMasked .lineComments table (withComment line comment ++ rest)) :
    Line.lexemes table (showAll (withComment line comment)) = lexedLine table line comment ∧
      (∀ lexeme ∈ lexPlain [] (line.map Mark.hidden), lexeme.IsSound table) ∧
        AreKnown table line := by
  have hsplit := splitComment_plain hplain hmasked.reading
  rw [withComment, List.append_assoc] at hmasked
  have hproper : ∀ mark ∈ line, mark.IsProper :=
    fun mark hmark => hmasked.reading.isProper mark (List.mem_append_left _ hmark)
  have hknown := (Mark.areKnown_append.mp hmasked.known).1
  have hunused : IsUnused table.salt (veil line) :=
    hmasked.unused.of_isInfix (by rw [Mark.veil_append]; exact (List.prefix_append _ _).isInfix)
  obtain ⟨hlexemes, hsound⟩ := codeLexemes_plain [] hplain hproper hmasked.isolated.left
    hmasked.numbered hknown hunused
  refine ⟨?_, hsound, hknown⟩
  rw [List.nil_append] at hlexemes
  rw [Line.lexemes, hsplit]
  cases comment <;> simp [hlexemes, lexedLine]

/-- A masked line is lexed to its atoms with the literals put back. -/
theorem lexesTo_line {comment : Option (List Char)} {rest : List Mark}
    (hplain : ∀ mark ∈ line, mark.IsPlain)
    (hmasked : IsMasked .lineComments table (withComment line comment ++ rest)) :
    LexesTo table (Line.lexemes table (showAll (withComment line comment)))
      (lexPlain [] (line.map Mark.atom) ++ lineEnd comment) := by
  obtain ⟨hlexemes, hsound, hknown⟩ := lexemes_withComment hplain hmasked
  have hcode : LexesTo table ⟨lexPlain [] (line.map Mark.hidden), table⟩
      (lexPlain [] (line.map Mark.atom)) :=
    ⟨Extends.refl table, hsound, reveal_lexPlain [] hplain hknown⟩
  rw [hlexemes]
  cases comment with
  | none =>
      have hend : LexesTo table ⟨[.lineBreak], table⟩ [.lineBreak] := by
        refine ⟨Extends.refl table, ?_, rfl⟩
        simpa using isSound_lineBreak table
      exact hcode.append hend
  | some comment =>
      have hknows := hmasked.numbered.knows_nextPlaceholder .lineComment
        (Units.utf8Length (showAll line)) (Blank.trimEnd comment)
      refine hcode.append (?_ : LexesTo table ⟨[_, .lineBreak], table.add _ _ _⟩ _)
      refine ⟨Extends.add table .lineComment _ _, ?_, ?_⟩
      · intro lexeme hlexeme
        rcases List.mem_pair.mp hlexeme with rfl | rfl
        · exact ⟨fun _ => ⟨_, hknows⟩, fun htoken => Token.noConfusion htoken⟩
        · exact isSound_lineBreak _
      · rw [List.map_cons, reveal_of_knows hknows]
        rfl

theorem extends_lexemes (table : LiteralTable) (line : List Char) :
    Extends table (Line.lexemes table line).table := by
  unfold Line.lexemes
  split
  split
  · exact Extends.refl table
  · exact Extends.add table _ _ _

/-- Lexing a masked text goes line by line: what holds of every line with its comment, and of two
texts with a line break between them when it holds of each, holds of the whole. -/
theorem lexLines_induction {motive : LiteralTable → List Mark → Lexed → Prop}
    (hline : ∀ (table : LiteralTable) (line : List Mark) (comment : Option (List Char))
      (rest : List Mark), (∀ mark ∈ line, mark.IsPlain) →
        IsMasked .lineComments table (withComment line comment ++ rest) →
          motive table (withComment line comment)
            (Line.lexemes table (showAll (withComment line comment))))
    (happend : ∀ (table : LiteralTable) (front back : List Mark) (first second : Lexed),
      motive table front first → motive first.table back second →
        motive table (front ++ .code '\n' :: back)
          ⟨first.lexemes ++ second.lexemes, second.table⟩)
    {marks : List Mark} (hmasked : IsMasked .lineComments table marks) :
    motive table marks (table.lexLines (Line.split (showAll marks))) := by
  induction hlength : marks.length using Nat.strong_induction_on generalizing marks table with
  | _ length ih =>
      obtain ⟨line, comment, rest, hmarks, hplain, hrest⟩ := exists_line hmasked.reading
      have hmarks : marks = withComment line comment ++ rest := by
        rw [hmarks, withComment, List.append_assoc]
      subst hmarks
      have hclosed : ∀ kind char, Mark.unclosed kind char ∉ withComment line comment := by
        intro kind char hmem
        rcases List.mem_append.mp hmem with hmem | hmem
        · exact hplain _ hmem
        · cases comment <;> simp at hmem
      have hfirst := hline table line comment rest hplain hmasked
      have hfeed : '\n' ∉ showAll (withComment line comment) := by
        rw [withComment, Mark.showAll_append, List.mem_append, not_or]
        have hreading := hmasked.reading
        rw [withComment, List.append_assoc] at hreading
        refine ⟨lineFeed_not_mem_showAll hplain fun mark hmark =>
          hreading.isProper mark (List.mem_append_left _ hmark), ?_⟩
        cases comment with
        | none => exact List.not_mem_nil
        | some comment =>
            have hcomment := (hreading.right fun kind char hmem => hplain _ hmem).2.1
            simpa [Mark.shown] using (Segment.literalAt?_lineComment_iff.mp hcomment).1
      rw [Mark.showAll_append, Blank.split_append_of_not_mem hfeed]
      rcases hrest with rfl | ⟨after, rfl⟩
      · simpa [Line.split, LiteralTable.lexLines] using hfirst
      · have hbreak : IsMasked .lineComments table ([.code '\n'] ++ after) := hmasked.right hclosed
        have hafter : IsMasked .lineComments table after := hbreak.right (by simp)
        have hlater := ih after.length (by simp [← hlength]; omega)
          (hafter.extend (extends_lexemes table (showAll (withComment line comment)))) rfl
        rw [Mark.showAll_cons, Mark.shown, List.singleton_append, Blank.split_cons, if_pos rfl,
          List.modifyHead_cons, List.append_nil]
        exact happend _ _ _ _ _ hfirst hlater

/-- A masked text in which only line comments are left to be read is lexed to the lexemes of its
atoms. -/
theorem lexesTo_lines {marks : List Mark} (hmasked : IsMasked .lineComments table marks) :
    LexesTo table (table.lexLines (Line.split (showAll marks)))
      (lexAtoms [] (marks.map Mark.atom)) := by
  refine lexLines_induction (motive := fun table marks lexed =>
    LexesTo table lexed (lexAtoms [] (marks.map Mark.atom))) ?_ ?_ hmasked
  · intro table line comment rest hplain hmasked
    rw [lexAtoms_withComment hplain]
    exact lexesTo_line hplain hmasked
  · intro table front back first second hfirst hsecond
    rw [List.map_append, List.map_cons, Mark.atom, lexAtoms_append_lineBreak]
    exact hfirst.append hsecond

theorem lexLines_dropReturn (table : LiteralTable) (lines : List (List Char)) :
    table.lexLines (lines.map Line.dropReturn) = table.lexLines lines := by
  induction lines generalizing table with
  | nil => rfl
  | cons line lines ih =>
      rw [List.map_cons, LiteralTable.lexLines, LiteralTable.lexLines, lexemes_dropReturn, ih]

/-! ## The whole document -/

def hiddenStrings (source : List Char) : List Mark × LiteralTable :=
  Mark.hide .string none 0 (LiteralTable.forSource source)
    ((segments .all source).map Mark.ofSegment)

def hiddenLiterals (source : List Char) : List Mark × LiteralTable :=
  Mark.hide .blockComment none 0 (hiddenStrings source).2 (hiddenStrings source).1

theorem isMasked_hiddenStrings (source : List Char) :
    IsMasked .comments (hiddenStrings source).2 (hiddenStrings source).1 :=
  (Mark.isMasked_forSource source).hide .strings

theorem isMasked_hiddenLiterals (source : List Char) :
    IsMasked .lineComments (hiddenLiterals source).2 (hiddenLiterals source).1 :=
  (isMasked_hiddenStrings source).hide .blockComments

theorem maskStrings_eq (source : List Char) :
    Document.maskStrings source = ⟨showAll (hiddenStrings source).1, (hiddenStrings source).2⟩ := by
  have hmask := Mark.maskTiles_tiles .strings (Mark.isMasked_forSource source).reading none 0
    (LiteralTable.forSource source)
  rwa [Mark.showAll_ofSegment, (reads_segments .all source).flatMap_text] at hmask

theorem mask_eq (source : List Char) :
    Document.mask source = ⟨showAll (hiddenLiterals source).1, (hiddenLiterals source).2⟩ := by
  rw [Document.mask, maskStrings_eq]
  exact Mark.maskTiles_tiles .blockComments (isMasked_hiddenStrings source).reading none 0 _

/-- Hiding strings and comments leaves the lexemes of the source as they are. -/
theorem lexAtoms_hiddenLiterals (source : List Char) :
    lexAtoms [] ((hiddenLiterals source).1.map Mark.atom) = lexAtoms [] (atoms source) := by
  rw [hiddenLiterals, Mark.lexAtoms_hide (by decide) (Or.inl rfl), hiddenStrings,
    Mark.lexAtoms_hide (by decide) (Or.inl rfl), List.map_map, atoms]
  congr 1
  exact List.map_congr_left fun segment _ => Mark.atom_ofSegment segment

/-- Masking is transparent: with the values behind its placeholders, the stream of a document is what
lexing the atoms of its source gives. -/
theorem lexesTo_document (source : List Char) :
    LexesTo (LiteralTable.forSource source) (Document.lex source)
      (lexAtoms [] (atoms source)) := by
  have hlex := lexesTo_lines (isMasked_hiddenLiterals source)
  rw [lexAtoms_hiddenLiterals] at hlex
  have hextends : Extends (LiteralTable.forSource source) (hiddenLiterals source).2 :=
    (Mark.extends_hide _ _ _ _ _).trans (Mark.extends_hide _ _ _ _ _)
  rw [Document.lex, mask_eq, LiteralTable.lex, lexLines_dropReturn]
  exact ⟨hextends.trans hlex.extends', hlex.sound, hlex.revealed⟩

end ChuckLayout
