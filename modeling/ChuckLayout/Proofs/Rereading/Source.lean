import ChuckLayout.Proofs.Rereading.Laid

/-!
# What a source says of its stream

As long as strings and block comments are looked for in a source, its code has no opener of theirs
in it, so neither have the lexemes read from that code.  After an opener that is never closed there is
nothing left to close it.
-/

namespace ChuckLayout

open Blank (trimEnd)

/-! ## Literals of a source -/

theorem Blank.trimEnd_trimEnd (text : List Char) : trimEnd (trimEnd text) = trimEnd text := by
  cases hlast : (trimEnd text).getLast? with
  | none =>
      rw [List.getLast?_eq_none_iff.mp hlast]
      rfl
  | some char =>
      apply trimEnd_of_getLast
      simp [hlast, getLast?_trimEnd text char hlast]

theorem trimEnd_lineComment (text : List Char) :
    ∃ rest, trimEnd ('/' :: '/' :: text) = '/' :: '/' :: rest := by
  by_cases hblank : Blank.AllBlank text
  · refine ⟨[], ?_⟩
    have htrim := Blank.trimEnd_append_of_blank hblank ['/', '/']
    exact htrim.trans (by decide)
  · exact ⟨trimEnd text, Blank.trimEnd_append_of_not_allBlank hblank ['/', '/']⟩

/-- The text of a literal, without the blanks at the end of a line comment. -/
def Literal.Kind.trimmed (kind : Literal.Kind) (text : List Char) : List Char :=
  if kind = .lineComment then trimEnd text else text

theorem isPrefix_trimmed (kind : Literal.Kind) (text : List Char) : kind.trimmed text <+: text := by
  rw [Literal.Kind.trimmed]
  split
  · obtain ⟨trail, -, htrail⟩ := Blank.exists_trimEnd text
    exact ⟨trail, htrail.symm⟩
  · exact List.prefix_rfl

theorem atom_literal (kind : Literal.Kind) (text : List Char) :
    (Segment.literal kind text).atom = .literal (kind.trimmed text) := by
  cases kind <;> rfl

/-- A literal that has been read is one by itself, once the blanks at the end of a comment are
gone. -/
theorem isLiteral_trimmed {scope : Scope} {kind : Literal.Kind} {char : Char}
    {tail rest : List Char} (hopening : scope.opening? char (tail ++ rest).head? = some kind)
    (hliteral : Segment.literalAt? (char :: tail ++ rest) kind = some (char :: tail)) :
    IsLiteral kind (kind.trimmed (char :: tail)) := by
  obtain ⟨next, later, rfl⟩ := List.exists_cons_of_ne_nil (Segment.tail_ne_nil hopening hliteral)
  have hall : Scope.all.opening? char (some next) = some kind := by
    rw [List.cons_append, List.head?_cons] at hopening
    cases kind with
    | string =>
        exact Scope.opening?_eq_string_iff.mpr ⟨(Scope.opening?_eq_string_iff.mp hopening).1, rfl⟩
    | blockComment =>
        obtain ⟨hchar, hnext, -⟩ := Scope.opening?_eq_blockComment_iff.mp hopening
        exact Scope.opening?_eq_blockComment_iff.mpr ⟨hchar, hnext, Scope.noConfusion⟩
    | lineComment =>
        exact Scope.opening?_eq_lineComment_iff.mpr (Scope.opening?_eq_lineComment_iff.mp hopening)
  have hwhole : kind ≠ .lineComment →
      Segment.literalAt? (char :: next :: later) kind = some (char :: next :: later) := by
    intro hkind
    have happend := Segment.literalAt?_append hkind hliteral []
    rwa [List.append_nil] at happend
  cases kind with
  | string => exact ⟨hwhole (by decide), ⟨char, next, later, rfl, hall⟩, fun h => by cases h⟩
  | blockComment => exact ⟨hwhole (by decide), ⟨char, next, later, rfl, hall⟩, fun h => by cases h⟩
  | lineComment =>
      obtain ⟨rfl, hnext⟩ := Scope.opening?_eq_lineComment_iff.mp hall
      obtain rfl : next = '/' := Option.some.inj hnext
      obtain ⟨trimmed, htrimmed⟩ := trimEnd_lineComment later
      obtain ⟨hfeed, -⟩ := Segment.literalAt?_lineComment_iff.mp hliteral
      obtain ⟨trail, -, htrail⟩ := Blank.exists_trimEnd ('/' :: '/' :: later)
      rw [Literal.Kind.trimmed, if_pos rfl]
      refine ⟨?_, ⟨'/', '/', trimmed, htrimmed, hall⟩, fun _ => Blank.trimEnd_trimEnd _⟩
      have hend : '\n' ∉ trimEnd ('/' :: '/' :: later) := by
        intro hmem
        apply hfeed
        rw [htrail]
        exact List.mem_append_left _ hmem
      have happend := Segment.literalAt?_lineComment_iff.mpr
        ⟨hend, show ([] : List Char).head?.all (· = '\n') from rfl⟩
      rwa [List.append_nil] at happend

/-! ## Pending code -/

/-- Code that is pending before a text has no opener in it of what is still looked for. -/
structure Pending (scope : Scope) (code text : List Char) : Prop where
  quote : scope = .all → '\"' ∉ code
  comment : scope ≠ .lineComments → ¬"/*".toList <:+: code ++ text.take 1

theorem not_isInfix_take_one (text : List Char) : ¬"/*".toList <:+: text.take 1 := by
  intro hoccurs
  have hlength := hoccurs.length_le
  have htake : (text.take 1).length ≤ 1 := List.length_take_le _ _
  have htwo : "/*".toList.length = 2 := rfl
  omega

theorem pending_nil (scope : Scope) (text : List Char) : Pending scope [] text :=
  ⟨fun _ => List.not_mem_nil, fun _ => not_isInfix_take_one text⟩

variable {scope : Scope} {code rest : List Char} {char : Char}

/-- A character joins the pending code when it opens nothing that is still looked for. -/
theorem Pending.concat (hpending : Pending scope code (char :: rest)) {later : Scope}
    (hlater : later ≠ .lineComments → scope ≠ .lineComments)
    (hquote : later = .all → scope = .all ∧ char ≠ '\"')
    (hcomment : later ≠ .lineComments → ¬(char = '/' ∧ rest.head? = some '*')) :
    Pending later (code ++ [char]) rest where
  quote hall := by
    rw [List.mem_append, List.mem_singleton, not_or]
    exact ⟨hpending.quote (hquote hall).1, Ne.symm (hquote hall).2⟩
  comment hscope hoccurs := by
    rcases isInfix_pair_append hoccurs with hfront | hback | ⟨hlast, hhead⟩
    · exact hpending.comment (hlater hscope) hfront
    · exact not_isInfix_take_one rest hback
    · rw [List.getLast?_concat] at hlast
      rw [List.head?_take, if_neg (by decide)] at hhead
      exact hcomment hscope ⟨Option.some.inj hlast, hhead⟩

theorem Pending.concat_code (hpending : Pending scope code (char :: rest))
    (hopening : scope.opening? char rest.head? = none) : Pending scope (code ++ [char]) rest := by
  rw [Scope.opening?_eq_none_iff] at hopening
  exact hpending.concat id (fun hall => ⟨hall, fun hchar => hopening.2.2 ⟨hchar, hall⟩⟩)
    fun hscope hnext => hopening.2.1 ⟨hnext.1, hnext.2, hscope⟩

theorem Segment.kind_ne_lineComment {kind : Literal.Kind} {text : List Char}
    (hliteral : literalAt? text kind = none) : kind ≠ .lineComment := by
  rintro rfl
  rw [literalAt?] at hliteral
  exact absurd hliteral (Option.some_ne_none _)

/-- An opener without an end joins it as well, as its kind is not looked for any more. -/
theorem Pending.concat_unclosed {kind : Literal.Kind} (hpending : Pending scope code (char :: rest))
    (hopening : scope.opening? char rest.head? = some kind)
    (hliteral : Segment.literalAt? (char :: rest) kind = none) :
    Pending (scope.without kind) (code ++ [char]) rest := by
  have hkind := Segment.kind_ne_lineComment hliteral
  cases kind with
  | lineComment => exact absurd rfl hkind
  | blockComment =>
      exact hpending.concat (fun h => absurd rfl h) (fun h => Scope.noConfusion h)
        (fun h => absurd rfl h)
  | string =>
      obtain ⟨rfl, rfl⟩ := Scope.opening?_eq_string_iff.mp hopening
      exact hpending.concat (fun _ => Scope.noConfusion) (fun h => Scope.noConfusion h)
        fun _ hnext => absurd hnext.1 (by decide)

theorem Pending.not_isInfix {text : List Char} (hpending : Pending scope code text)
    (hscope : scope ≠ .lineComments) : ¬"/*".toList <:+: code :=
  fun hoccurs => hpending.comment hscope (hoccurs.trans (List.prefix_append _ _).isInfix)

/-! ## The lexemes of pending code -/

theorem IsEntry.text_of_commentOpen {item : Token × List Char} (hentry : IsEntry item)
    (htoken : item.1 = .commentOpen) : item.2 = "/*".toList := by
  rcases hentry with ⟨-, hspelling⟩ | hmark
  · rw [hspelling, htoken]
    rfl
  · have hmarks : ∀ mark ∈ Piece.marks, mark.1 = .commentOpen → mark.2 = "/*".toList := by decide
    exact hmarks item hmark htoken

theorem text_of_commentOpen {isLiteral : List Char → Prop} {item : Token × List Char}
    (hitem : IsStreamItem isLiteral item) (htoken : item.1 = .commentOpen) :
    item.2 = "/*".toList := by
  cases hitem with
  | literal _ => exact Token.noConfusion htoken
  | raw _ => exact Token.noConfusion htoken
  | entry hentry => exact hentry.text_of_commentOpen htoken

theorem mem_codeOf_of_not_isInfix (hcode : ¬"/*".toList <:+: code) {lexeme : Lexeme}
    (hlexeme : lexeme ∈ codeOf code) : lexeme.token ≠ .commentOpen := by
  intro htoken
  apply hcode
  have htext : lexeme.text = "/*".toList := text_of_commentOpen
    (isStreamItem_of_mem_codeOf (fun _ => True) hlexeme).1 htoken
  rw [← htext]
  exact isInfix_of_mem_codeLexemes hlexeme

/-- Pending code changes nothing about what is looked for. -/
theorem afterItem_of_mem_codeOf {text : List Char} (hpending : Pending scope code text)
    {item : Token × List Char} (hitem : item ∈ (codeOf code).map Lexeme.item) :
    item.1 ≠ .placeholder ∧ scope.afterItem item = scope := by
  obtain ⟨lexeme, hlexeme, rfl⟩ := List.mem_map.mp hitem
  refine ⟨token_ne_placeholder_of_mem_codeOf hlexeme, ?_⟩
  rw [Scope.afterItem]
  split
  · rename_i htoken
    by_contra hscope
    exact mem_codeOf_of_not_isInfix (hpending.not_isInfix (Ne.symm hscope)) hlexeme htoken
  split
  · rename_i hquote
    have hall : scope ≠ .all := fun hall => hpending.quote hall
      ((isInfix_of_mem_codeLexemes hlexeme).subset hquote.2)
    rw [Scope.without, if_neg hall]
  · rfl

theorem inScope_lineBreak_cons {items : List (Token × List Char)} (hitems : InScope scope items) :
    InScope scope (Lexeme.lineBreak.item :: items) :=
  ⟨fun h => Token.noConfusion h, hitems⟩

/-- The literals of a source are in scope where they stand in its stream. -/
theorem inScope_of_reads {text : List Char} {found : List Segment} (hreads : Reads scope text found)
    (hpending : Pending scope code text) :
    InScope scope ((lexAtoms code (found.map Segment.atom)).map Lexeme.item) := by
  induction hreads generalizing code with
  | done scope =>
      rw [List.map_nil, lexAtoms, List.map_append]
      exact inScope_append (fun _ => afterItem_of_mem_codeOf hpending)
        (inScope_lineBreak_cons trivial)
  | @code scope char rest found hopening hrest ih =>
      rw [List.map_cons, Segment.atom, lexAtoms]
      split
      · rw [List.map_append, List.map_cons]
        exact inScope_append (fun _ => afterItem_of_mem_codeOf hpending)
          (inScope_lineBreak_cons (ih (pending_nil _ _)))
      · exact ih (hpending.concat_code hopening)
  | @unclosed scope kind char rest found hopening hliteral hrest ih =>
      have hchar : char ≠ '\n' := by
        rcases Scope.eq_of_opening? hopening with rfl | rfl <;> decide
      rw [List.map_cons, Segment.atom, lexAtoms, if_neg hchar]
      exact (ih (hpending.concat_unclosed hopening hliteral)).mono (scope.includes_without kind)
  | @literal scope kind char tail rest found hopening hliteral hrest ih =>
      rw [List.map_cons, atom_literal, lexAtoms, List.map_append, List.map_cons]
      refine inScope_append (fun _ => afterItem_of_mem_codeOf hpending) ⟨fun _ => ?_, ?_⟩
      · exact ⟨kind, fun hignores => hignores.opening?_ne char _ hopening,
          isLiteral_trimmed hopening hliteral⟩
      · exact ih (pending_nil _ _)

/-! ## Comments that are never closed -/

def StaysOpen (text : List Char) : Prop :=
  ∀ front back, text = front ++ "/*".toList ++ back → ¬"*/".toList <:+: back

theorem StaysOpen.of_suffix {front back : List Char} (hopen : StaysOpen (front ++ back)) :
    StaysOpen back := by
  rintro lead later rfl
  exact hopen (front ++ lead) later (by simp)

theorem StaysOpen.of_prefix {front back : List Char} (hopen : StaysOpen (front ++ back)) :
    StaysOpen front := by
  rintro lead later rfl hoccurs
  refine hopen lead (later ++ back) (by simp) ?_
  exact hoccurs.trans (List.prefix_append _ _).isInfix

/-- A comment without an end has no `*/` after its opener. -/
theorem not_isInfix_of_throughCommentEnd? {text : List Char}
    (hend : Segment.throughCommentEnd? text = none) : ¬"*/".toList <:+: text := by
  induction text with
  | nil => decide
  | cons char rest ih =>
      rw [Segment.throughCommentEnd?] at hend
      split at hend
      · exact absurd hend (Option.some_ne_none _)
      · rename_i hcloses
        rw [Option.map_eq_none_iff] at hend
        rw [List.infix_cons_iff, not_or]
        refine ⟨fun hstarts => hcloses ?_, ih hend⟩
        obtain ⟨later, hlater⟩ := hstarts
        obtain ⟨rfl, rfl⟩ := List.cons.inj hlater
        exact ⟨rfl, rfl⟩

/-- The first comment mark that opens stands where it has been found. -/
theorem staysOpen_of_not_isInfix {code rest : List Char} (hcode : ¬"/*".toList <:+: code ++ ['/'])
    (hrest : ¬"*/".toList <:+: rest) : StaysOpen (code ++ '/' :: '*' :: rest) := by
  intro front back htext hoccurs
  have hmark : "/*".toList = ['/', '*'] := rfl
  rw [List.append_assoc, hmark] at htext
  rw [hmark] at hcode
  rcases List.append_eq_append_iff.mp htext with ⟨lead, -, hlead⟩ | ⟨lead, rfl, hlead⟩
  · match lead with
    | [] =>
        obtain rfl : rest = back := by simpa using hlead
        exact hrest hoccurs
    | [char] => simp at hlead
    | first :: second :: lead =>
        obtain ⟨-, -, rfl⟩ : '/' = first ∧ '*' = second ∧ rest = lead ++ '/' :: '*' :: back := by
          simpa using hlead
        exact hrest (hoccurs.trans ⟨lead ++ ['/', '*'], [], by simp⟩)
  · match lead with
    | [] =>
        obtain rfl : back = rest := by simpa using hlead
        exact hrest hoccurs
    | [char] => simp at hlead
    | first :: second :: lead =>
        obtain ⟨rfl, rfl, -⟩ : '/' = first ∧ '*' = second ∧ back = lead ++ '/' :: '*' :: rest := by
          simpa using hlead
        exact hcode ⟨front, lead ++ ['/'], by simp⟩

theorem commentsStayOpen_of_not_commentOpen {items : List (Token × List Char)}
    (hitems : ∀ item ∈ items, item.1 ≠ .commentOpen) : CommentsStayOpen items :=
  List.pairwise_of_forall_mem_list fun first hfirst _ _ hopen => absurd hopen (hitems first hfirst)

/-- The lexemes of code close no comment that the code does not. -/
theorem commentsStayOpen_codeLexemes {raw : List Char} {pieces : List Piece}
    (hmarks : ∀ text, .item .commentOpen text ∈ pieces → text = "/*".toList)
    (hopen : StaysOpen (raw ++ pieces.flatMap Piece.text)) :
    CommentsStayOpen ((Line.codeLexemes {} raw pieces).map Lexeme.item) := by
  have hfragment : ∀ raw, ∀ item ∈ (Line.fragment raw).map Lexeme.item, item.1 ≠ .commentOpen := by
    intro raw item hitem
    obtain ⟨lexeme, hlexeme, rfl⟩ := List.mem_map.mp hitem
    rw [(Line.mem_fragment hlexeme).1]
    exact Token.noConfusion
  induction pieces using Line.pieces_induction {} generalizing raw with
  | nil => exact commentsStayOpen_of_not_commentOpen (hfragment raw)
  | raw piece rest hpiece ih =>
      rw [List.flatMap_cons, ← List.append_assoc] at hopen
      rw [Line.codeLexemes_raw hpiece]
      exact ih (fun text hmem => hmarks text (List.mem_cons_of_mem _ hmem)) hopen
  | alone token text rest hpiece ih =>
      have hrest : ∀ text, .item .commentOpen text ∈ rest → text = "/*".toList :=
        fun text hmem => hmarks text (List.mem_cons_of_mem _ hmem)
      rw [List.flatMap_cons, ← List.append_assoc] at hopen
      rw [Line.codeLexemes_item hpiece, List.map_append, List.map_cons, CommentsStayOpen,
        List.pairwise_append, List.pairwise_cons]
      refine ⟨commentsStayOpen_of_not_commentOpen (hfragment raw),
        ⟨fun item hitem htoken => ?_, ih hrest hopen.of_suffix⟩,
        fun first hfirst _ _ htoken => absurd htoken (hfragment raw first hfirst)⟩
      obtain ⟨lexeme, hlexeme, rfl⟩ := List.mem_map.mp hitem
      obtain rfl : token = .commentOpen := htoken
      rw [Piece.text, hmarks text List.mem_cons_self] at hopen
      exact fun hoccurs => hopen raw _ rfl (hoccurs.trans (Line.isInfix_flatMap_of_mem hlexeme))

theorem commentsStayOpen_codeOf {code : List Char} (hopen : StaysOpen code) :
    CommentsStayOpen ((codeOf code).map Lexeme.item) := by
  refine commentsStayOpen_codeLexemes (fun text hmem => ?_) (by rwa [flatMap_scan])
  have hentry := isEntry_of_mem_scan hmem (by decide) (by decide)
  exact hentry.text_of_commentOpen rfl

/-- What a lexeme is written as stands in the text that it was read from. -/
theorem isInfix_of_mem_lexAtoms {text : List Char} {found : List Segment}
    (hreads : Reads scope text found) {item : Token × List Char}
    (hitem : item ∈ (lexAtoms code (found.map Segment.atom)).map Lexeme.item) :
    item = Lexeme.lineBreak.item ∨ item.2 <:+: code ++ text := by
  have hcode : ∀ {code rest : List Char}, item ∈ (codeOf code).map Lexeme.item →
      item.2 <:+: code ++ rest := by
    intro code rest hmem
    obtain ⟨lexeme, hlexeme, rfl⟩ := List.mem_map.mp hmem
    exact (isInfix_of_mem_codeLexemes hlexeme).trans (List.prefix_append _ _).isInfix
  have hchar : ∀ {code rest : List Char} {char : Char},
      item = Lexeme.lineBreak.item ∨ item.2 <:+: code ++ [char] ++ rest →
        item = Lexeme.lineBreak.item ∨ item.2 <:+: code ++ char :: rest := by
    intro code rest char hor
    rwa [List.append_assoc, List.singleton_append] at hor
  have hlater : ∀ (front : List Char) {code rest : List Char},
      item = Lexeme.lineBreak.item ∨ item.2 <:+: [] ++ rest →
        item = Lexeme.lineBreak.item ∨ item.2 <:+: code ++ (front ++ rest) := by
    intro front code rest hor
    refine hor.imp_right fun hoccurs => hoccurs.trans ⟨code ++ front, [], by simp⟩
  induction hreads generalizing code with
  | done scope =>
      rw [List.map_nil, lexAtoms, List.map_append, List.mem_append] at hitem
      rcases hitem with hmem | hmem
      · exact Or.inr (hcode hmem)
      · exact Or.inl (List.mem_singleton.mp hmem)
  | @code scope char rest found hopening hrest ih =>
      rw [List.map_cons, Segment.atom, lexAtoms] at hitem
      split at hitem
      · rw [List.map_append, List.map_cons, List.mem_append, List.mem_cons] at hitem
        rcases hitem with hmem | hmem | hmem
        · exact Or.inr (hcode hmem)
        · exact Or.inl hmem
        · exact hlater [char] (ih hmem)
      · exact hchar (ih hitem)
  | @unclosed scope kind char rest found hopening hliteral hrest ih =>
      have hfeed : char ≠ '\n' := by
        rcases Scope.eq_of_opening? hopening with rfl | rfl <;> decide
      rw [List.map_cons, Segment.atom, lexAtoms, if_neg hfeed] at hitem
      exact hchar (ih hitem)
  | @literal scope kind char tail rest found hopening hliteral hrest ih =>
      rw [List.map_cons, atom_literal, lexAtoms, List.map_append, List.map_cons, List.mem_append,
        List.mem_cons] at hitem
      rcases hitem with hmem | rfl | hmem
      · exact Or.inr (hcode hmem)
      · exact Or.inr ((isPrefix_trimmed kind _).isInfix.trans ⟨code, rest, by simp⟩)
      · exact hlater _ (ih hmem)

/-- Lexemes of code that nothing in it or after it closes. -/
theorem commentsStayOpen_append {text : List Char} {items : List (Token × List Char)}
    (hopen : StaysOpen (code ++ text)) (hitems : CommentsStayOpen items)
    (hoccurs : ∀ item ∈ items, item = Lexeme.lineBreak.item ∨ item.2 <:+: text) :
    CommentsStayOpen ((codeOf code).map Lexeme.item ++ items) := by
  refine List.pairwise_append.mpr
    ⟨commentsStayOpen_codeOf hopen.of_prefix, hitems, fun first hfirst second hsecond htoken => ?_⟩
  obtain ⟨lexeme, hlexeme, rfl⟩ := List.mem_map.mp hfirst
  have htext : lexeme.text = "/*".toList := text_of_commentOpen
    (isStreamItem_of_mem_codeOf (fun _ => True) hlexeme).1 htoken
  obtain ⟨front, back, hcode⟩ := isInfix_of_mem_codeLexemes hlexeme
  rw [htext] at hcode
  rcases hoccurs second hsecond with rfl | hsecondInfix
  · decide
  · refine fun hcloses => hopen front (back ++ text) (by rw [← hcode]; simp) ?_
    exact (hcloses.trans hsecondInfix).trans (List.suffix_append _ _).isInfix

theorem commentsStayOpen_cons {item : Token × List Char} {items : List (Token × List Char)}
    (htoken : item.1 ≠ .commentOpen) (hitems : CommentsStayOpen items) :
    CommentsStayOpen (item :: items) :=
  List.pairwise_cons.mpr ⟨fun _ _ hopen => absurd hopen htoken, hitems⟩

/-- Lexemes after pending code are cut from the text after it, so they close no comment of the
code. -/
theorem Pending.commentsStayOpen_append {text : List Char} {items : List (Token × List Char)}
    (hpending : Pending scope code text) (hopen : scope = .lineComments → StaysOpen (code ++ text))
    (hitems : CommentsStayOpen items)
    (hoccurs : ∀ item ∈ items, item = Lexeme.lineBreak.item ∨ item.2 <:+: text) :
    CommentsStayOpen ((codeOf code).map Lexeme.item ++ items) := by
  by_cases hscope : scope = .lineComments
  · exact ChuckLayout.commentsStayOpen_append (hopen hscope) hitems hoccurs
  · have hcode : ∀ item ∈ (codeOf code).map Lexeme.item, item.1 ≠ .commentOpen := by
      intro item hitem
      obtain ⟨lexeme, hlexeme, rfl⟩ := List.mem_map.mp hitem
      exact mem_codeOf_of_not_isInfix (hpending.not_isInfix hscope) hlexeme
    exact List.pairwise_append.mpr ⟨commentsStayOpen_of_not_commentOpen hcode, hitems,
      fun first hfirst _ _ htoken => absurd htoken (hcode first hfirst)⟩

/-- Lexemes of a text are found in every text that ends with it, line breaks apart. -/
theorem occurs_of_reads (front : List Char) {text : List Char} {found : List Segment}
    (hreads : Reads scope text found) :
    ∀ item ∈ (lexAtoms [] (found.map Segment.atom)).map Lexeme.item,
      item = Lexeme.lineBreak.item ∨ item.2 <:+: front ++ text := by
  intro item hitem
  have hoccurs := isInfix_of_mem_lexAtoms hreads hitem
  exact hoccurs.imp_right fun hinfix => hinfix.trans (List.suffix_append front text).isInfix

/-- Nothing in the stream of a source closes a comment that the source leaves open. -/
theorem commentsStayOpen_of_reads {text : List Char} {found : List Segment}
    (hreads : Reads scope text found) (hpending : Pending scope code text)
    (hopen : scope = .lineComments → StaysOpen (code ++ text)) :
    CommentsStayOpen ((lexAtoms code (found.map Segment.atom)).map Lexeme.item) := by
  induction hreads generalizing code with
  | done scope =>
      rw [List.map_nil, lexAtoms, List.map_append]
      exact hpending.commentsStayOpen_append hopen (List.pairwise_singleton _ _)
        fun item hitem => Or.inl (List.mem_singleton.mp hitem)
  | @code scope char rest found hopening hrest ih =>
      rw [List.map_cons, Segment.atom, lexAtoms]
      split
      · have hlater := ih (pending_nil _ _) fun hscope => by
          have hsuffix := hopen hscope
          rw [← List.singleton_append, ← List.append_assoc] at hsuffix
          exact hsuffix.of_suffix
        rw [List.map_append, List.map_cons]
        exact hpending.commentsStayOpen_append hopen
          (commentsStayOpen_cons (Token.noConfusion ·) hlater)
          (List.forall_mem_cons.mpr ⟨Or.inl rfl, occurs_of_reads [char] hrest⟩)
      · refine ih (hpending.concat_code hopening) fun hscope => ?_
        rw [List.append_assoc]
        exact hopen hscope
  | @unclosed scope kind char rest found hopening hliteral hrest ih =>
      have hfeed : char ≠ '\n' := by
        rcases Scope.eq_of_opening? hopening with rfl | rfl <;> decide
      rw [List.map_cons, Segment.atom, lexAtoms, if_neg hfeed]
      refine ih (hpending.concat_unclosed hopening hliteral) fun hscope => ?_
      rw [List.append_assoc, List.singleton_append]
      cases kind with
      | lineComment => exact absurd rfl (Segment.kind_ne_lineComment hliteral)
      | string =>
          apply hopen
          obtain ⟨-, rfl⟩ := Scope.opening?_eq_string_iff.mp hopening
          exact absurd hscope (by decide)
      | blockComment =>
          obtain ⟨rfl, hnext, hscope⟩ := Scope.opening?_eq_blockComment_iff.mp hopening
          obtain ⟨later, rfl⟩ := List.head?_eq_some_iff.mp hnext
          rw [Segment.literalAt?, Option.map_eq_none_iff] at hliteral
          exact staysOpen_of_not_isInfix (hpending.comment hscope)
            (not_isInfix_of_throughCommentEnd? hliteral)
  | @literal scope kind char tail rest found hopening hliteral hrest ih =>
      have hlater := ih (pending_nil _ _) fun hscope => by
        have hsuffix := hopen hscope
        rw [← List.append_assoc] at hsuffix
        exact hsuffix.of_suffix
      rw [List.map_cons, atom_literal, lexAtoms, List.map_append, List.map_cons]
      refine hpending.commentsStayOpen_append hopen
        (commentsStayOpen_cons (Token.noConfusion ·) hlater)
        (List.forall_mem_cons.mpr ⟨Or.inr ?_, occurs_of_reads (char :: tail) hrest⟩)
      exact (isPrefix_trimmed kind _).isInfix.trans (List.prefix_append _ _).isInfix

/-! ## Sources without openers -/

def OpensNothing (item : Token × List Char) : Prop :=
  item.1 ≠ .commentOpen ∧ (item.1 = .text → '\"' ∉ item.2)

/-- When every literal is closed, no lexeme holds an opener. -/
theorem opensNothing_of_reads {text : List Char} {found : List Segment}
    (hreads : Reads scope text found) (hscope : scope = .all)
    (hclosed : ∀ kind char, .unclosed kind char ∉ found) (hpending : Pending scope code text) :
    ∀ item ∈ (lexAtoms code (found.map Segment.atom)).map Lexeme.item, OpensNothing item := by
  have hcode : ∀ {code text : List Char}, Pending .all code text →
      ∀ item ∈ (codeOf code).map Lexeme.item, OpensNothing item := by
    intro code text hpending item hitem
    obtain ⟨lexeme, hlexeme, rfl⟩ := List.mem_map.mp hitem
    refine ⟨mem_codeOf_of_not_isInfix (hpending.not_isInfix (by decide)) hlexeme, fun _ hquote => ?_⟩
    exact hpending.quote rfl ((isInfix_of_mem_codeLexemes hlexeme).subset hquote)
  have hother : ∀ {item : Token × List Char}, item.1 ≠ .commentOpen → item.1 ≠ .text →
      OpensNothing item := fun hopen htext => ⟨hopen, fun h => absurd h htext⟩
  induction hreads generalizing code with
  | done scope =>
      subst hscope
      rw [List.map_nil, lexAtoms, List.map_append]
      exact List.forall_mem_append.mpr ⟨hcode hpending, List.forall_mem_singleton.mpr
        (hother (Token.noConfusion ·) (Token.noConfusion ·))⟩
  | @code scope char rest found hopening hrest ih =>
      subst hscope
      have hrestClosed := fun kind char hmem => hclosed kind char (List.mem_cons_of_mem _ hmem)
      rw [List.map_cons, Segment.atom, lexAtoms]
      split
      · rw [List.map_append, List.map_cons]
        exact List.forall_mem_append.mpr ⟨hcode hpending, List.forall_mem_cons.mpr
          ⟨hother (Token.noConfusion ·) (Token.noConfusion ·),
            ih rfl hrestClosed (pending_nil _ _)⟩⟩
      · exact ih rfl hrestClosed (hpending.concat_code hopening)
  | @unclosed scope kind char rest found hopening hliteral hrest ih =>
      exact absurd List.mem_cons_self (hclosed kind char)
  | @literal scope kind char tail rest found hopening hliteral hrest ih =>
      subst hscope
      have hrestClosed := fun kind char hmem => hclosed kind char (List.mem_cons_of_mem _ hmem)
      rw [List.map_cons, atom_literal, lexAtoms, List.map_append, List.map_cons]
      exact List.forall_mem_append.mpr ⟨hcode hpending, List.forall_mem_cons.mpr
        ⟨hother (Token.noConfusion ·) (Token.noConfusion ·), ih rfl hrestClosed (pending_nil _ _)⟩⟩

end ChuckLayout
