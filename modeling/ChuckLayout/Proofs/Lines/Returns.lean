import ChuckLayout.Proofs.Literals.Catalogue
import ChuckLayout.Proofs.Literals.Opaque

/-!
# Carriage returns

A carriage return before a line feed belongs to the gap at the end of its line or to the blanks at the
end of a line comment, and no literal is opened or closed by it.  Main statement: a source whose
literals each lie in one line is formatted the same whether its lines end in a line feed or in a
carriage return and a line feed.
-/

namespace ChuckLayout

namespace Line

/-- The text with a carriage return before each of its line feeds. -/
def withReturns (text : List Char) : List Char :=
  text.flatMap fun char => if char = '\n' then ['\r', '\n'] else [char]

theorem withReturns_lineFeed_cons (rest : List Char) :
    withReturns ('\n' :: rest) = '\r' :: '\n' :: withReturns rest := rfl

theorem withReturns_cons {char : Char} (hfeed : char ≠ '\n') (rest : List Char) :
    withReturns (char :: rest) = char :: withReturns rest := by
  rw [withReturns, List.flatMap_cons, if_neg hfeed]
  rfl

theorem withReturns_append {text : List Char} (hfeed : '\n' ∉ text) (rest : List Char) :
    withReturns (text ++ rest) = text ++ withReturns rest := by
  induction text with
  | nil => rfl
  | cons char text ih =>
      rw [List.mem_cons, not_or] at hfeed
      rw [List.cons_append, withReturns_cons (Ne.symm hfeed.1), ih hfeed.2, List.cons_append]

theorem head?_withReturns_eq_iff {char : Char} (hfeed : char ≠ '\n') (hreturn : char ≠ '\r')
    (text : List Char) : (withReturns text).head? = some char ↔ text.head? = some char := by
  cases text with
  | nil => rfl
  | cons first rest =>
      by_cases hfirst : first = '\n'
      · rw [hfirst, withReturns_lineFeed_cons]
        simp [Ne.symm hfeed, Ne.symm hreturn]
      · rw [withReturns_cons hfirst, List.head?_cons, List.head?_cons]

end Line

open Line (withReturns withReturns_append withReturns_cons withReturns_lineFeed_cons)

/-! ## Reading a text with carriage returns -/

/-- A carriage return does not come between the two characters of an opener. -/
theorem Scope.opening?_withReturns (scope : Scope) (char : Char) (rest : List Char) :
    scope.opening? char (withReturns rest).head? = scope.opening? char rest.head? :=
  Scope.opening?_congr (Line.head?_withReturns_eq_iff (by decide) (by decide) rest)
    (Line.head?_withReturns_eq_iff (by decide) (by decide) rest)

namespace Segment

/-- A comment with carriage returns ends where it does without. -/
theorem throughCommentEnd?_withReturns (text : List Char) :
    throughCommentEnd? (withReturns text) = (throughCommentEnd? text).map withReturns := by
  induction text with
  | nil => rfl
  | cons char rest ih =>
      by_cases hfeed : char = '\n'
      · subst hfeed
        rw [withReturns_lineFeed_cons]
        simp [throughCommentEnd?, ih, Function.comp_def, withReturns_lineFeed_cons]
      · have hnext := Line.head?_withReturns_eq_iff (show '/' ≠ '\n' by decide) (by decide) rest
        rw [withReturns_cons hfeed, throughCommentEnd?, throughCommentEnd?, ih]
        simp only [hnext]
        split
        · rfl
        · simp [Function.comp_def, withReturns_cons hfeed]

/-- The character that a backslash hides may become a carriage return, and what follows it is hidden
as little as before. -/
theorem throughQuote?_withReturns (hidden : Bool) (text : List Char) :
    throughQuote? hidden (withReturns text) = (throughQuote? hidden text).map withReturns := by
  induction text generalizing hidden with
  | nil => rfl
  | cons char rest ih =>
      by_cases hfeed : char = '\n'
      · subst hfeed
        rw [withReturns_lineFeed_cons]
        simp [throughQuote?, ih, Function.comp_def, withReturns_lineFeed_cons]
      · rw [withReturns_cons hfeed, throughQuote?, throughQuote?, ih]
        split
        · rfl
        · simp [Function.comp_def, withReturns_cons hfeed]

/-- A literal is read with its line feeds changed, and goes no further. -/
theorem literalAt?_withReturns {scope : Scope} {kind : Literal.Kind} (hkind : kind ≠ .lineComment)
    {char : Char} {rest : List Char} (hopening : scope.opening? char rest.head? = some kind) :
    literalAt? (withReturns (char :: rest)) kind =
      (literalAt? (char :: rest) kind).map withReturns := by
  cases kind with
  | lineComment => exact absurd rfl hkind
  | string =>
      obtain ⟨rfl, -⟩ := Scope.opening?_eq_string_iff.mp hopening
      simp [literalAt?, withReturns_cons, throughQuote?_withReturns, Function.comp_def]
  | blockComment =>
      obtain ⟨rfl, hstar, -⟩ := Scope.opening?_eq_blockComment_iff.mp hopening
      obtain ⟨later, rfl⟩ := List.head?_eq_some_iff.mp hstar
      simp [literalAt?, withReturns_cons, throughCommentEnd?_withReturns, Function.comp_def]

end Segment

theorem codeOf_concat_return (code : List Char) : codeOf (code ++ ['\r']) = codeOf code :=
  codeLexemes_concat_return {} [] code

/-- A carriage return before a line break is lexed as nothing. -/
theorem lexAtoms_return_lineFeed (code : List Char) (rest : List Atom) :
    lexAtoms code (.char '\r' :: .char '\n' :: rest) = lexAtoms code (.char '\n' :: rest) := by
  rw [lexAtoms, if_neg (by decide), lexAtoms, if_pos rfl, lexAtoms, if_pos rfl,
    codeOf_concat_return]

theorem lexAtoms_return_cons (rest : List Atom) :
    lexAtoms [] (.char '\r' :: rest) = lexAtoms [] rest := by
  rw [lexAtoms, if_neg (by decide), List.nil_append, lexAtoms_gap_cons (by decide)]

/-- A line comment takes in the carriage return that has come between it and the end of its line. -/
theorem Reads.exists_lineComment_withReturns {scope : Scope} {comment rest : List Char}
    {found : List Segment} {char : Char}
    (hopening : scope.opening? char (comment ++ rest).head? = some .lineComment)
    (hliteral : Segment.literalAt? (char :: comment ++ rest) .lineComment = some (char :: comment))
    (hrest : Reads scope (withReturns rest) found) :
    ∃ found', Reads scope (withReturns (char :: comment ++ rest)) found' ∧
      ∀ code, lexAtoms code (found'.map Segment.atom) =
        lexAtoms code ((.literal .lineComment (char :: comment) :: found).map Segment.atom) := by
  obtain ⟨hfeed, hend⟩ := Segment.literalAt?_lineComment_iff.mp hliteral
  obtain ⟨next, comment, rfl⟩ := List.exists_cons_of_ne_nil (Segment.tail_ne_nil hopening hliteral)
  have hopens : ∀ back, scope.opening? char (next :: comment ++ back).head? = some .lineComment :=
    fun _ => hopening
  rw [withReturns_append hfeed]
  cases rest with
  | nil =>
      refine ⟨.literal .lineComment (char :: next :: comment) :: found, ?_, fun _ => rfl⟩
      exact .literal (hopens _) hliteral hrest
  | cons first rest =>
      obtain rfl : first = '\n' := by simpa using hend
      have hreturn : scope.opening? '\r' (some '\n') = none :=
        Scope.opening?_of_ne (by decide) (by simp) _
      obtain rfl : .code '\r' :: segments scope ('\n' :: withReturns rest) = found := by
        have hsegments := hrest.segments_eq
        rwa [withReturns_lineFeed_cons, segments_code hreturn] at hsegments
      have hwhole : Segment.literalAt?
          (char :: next :: (comment ++ ['\r']) ++ '\n' :: withReturns rest) .lineComment =
            some (char :: next :: (comment ++ ['\r'])) :=
        Segment.literalAt?_lineComment_iff.mpr ⟨by simpa using hfeed, rfl⟩
      refine ⟨.literal .lineComment (char :: next :: (comment ++ ['\r'])) ::
        segments scope ('\n' :: withReturns rest), ?_, fun code => ?_⟩
      · rw [withReturns_lineFeed_cons]
        have hreads : Reads scope
            (char :: next :: (comment ++ ['\r']) ++ '\n' :: withReturns rest)
            (.literal .lineComment (char :: next :: (comment ++ ['\r'])) ::
              segments scope ('\n' :: withReturns rest)) :=
          .literal hopening hwhole (reads_segments scope ('\n' :: withReturns rest))
        simpa using hreads
      · have hblank : Blank.AllBlank ['\r'] := by
          intro other hother
          rw [List.mem_singleton.mp hother]
          decide
        have htrim : Blank.trimEnd (char :: next :: (comment ++ ['\r'])) =
            Blank.trimEnd (char :: next :: comment) :=
          Blank.trimEnd_append_of_blank hblank (char :: next :: comment)
        simp only [List.map_cons, Segment.atom, lexAtoms, htrim]
        rw [← lexAtoms_return_cons]
        rfl

/-- With carriage returns the text is lexed the same, for its literals are the same. -/
theorem Reads.exists_withReturns {scope : Scope} {text : List Char} {found : List Segment}
    (hreads : Reads scope text found)
    (hfound : ∀ kind literal, .literal kind literal ∈ found → '\n' ∉ kind.trimmed literal) :
    ∃ found', Reads scope (withReturns text) found' ∧
      ∀ code, lexAtoms code (found'.map Segment.atom) = lexAtoms code (found.map Segment.atom) := by
  induction hreads with
  | done scope => exact ⟨[], .done scope, fun _ => rfl⟩
  | @code scope char rest found hopening _ ih =>
      obtain ⟨found', hreads, hlexed⟩ :=
        ih fun kind literal hmem => hfound kind literal (List.mem_cons_of_mem _ hmem)
      by_cases hfeed : char = '\n'
      · subst hfeed
        refine ⟨.code '\r' :: .code '\n' :: found', ?_, fun code => ?_⟩
        · have hopens : ∀ {char : Char} {next : Option Char}, char = '\r' ∨ char = '\n' →
              scope.opening? char next = none := by
            rintro char next (rfl | rfl) <;> exact Scope.opening?_of_ne (by decide) (by simp) next
          exact .code (hopens (Or.inl rfl)) (.code (hopens (Or.inr rfl)) hreads)
        · rw [List.map_cons, List.map_cons, Segment.atom, Segment.atom, lexAtoms_return_lineFeed,
            lexAtoms, if_pos rfl, hlexed, List.map_cons, Segment.atom, lexAtoms, if_pos rfl]
      · refine ⟨.code char :: found', ?_, fun code => ?_⟩
        · rw [withReturns_cons hfeed]
          exact .code (by rwa [Scope.opening?_withReturns]) hreads
        · rw [List.map_cons, Segment.atom, lexAtoms, if_neg hfeed, hlexed, List.map_cons,
            Segment.atom, lexAtoms, if_neg hfeed]
  | @literal scope kind char tail rest found hopening hliteral _ ih =>
      obtain ⟨found', hreads, hlexed⟩ :=
        ih fun kind literal hmem => hfound kind literal (List.mem_cons_of_mem _ hmem)
      by_cases hkind : kind = .lineComment
      · subst hkind
        obtain ⟨whole, hwhole, hsame⟩ :=
          Reads.exists_lineComment_withReturns hopening hliteral hreads
        refine ⟨whole, hwhole, fun code => ?_⟩
        rw [hsame, List.map_cons, Segment.atom, lexAtoms, hlexed, List.map_cons, Segment.atom,
          lexAtoms]
      · have hfeed : '\n' ∉ char :: tail := by
          have htext := hfound kind (char :: tail) List.mem_cons_self
          cases kind with
          | lineComment => exact absurd rfl hkind
          | string => exact htext
          | blockComment => exact htext
        refine ⟨.literal kind (char :: tail) :: found', ?_, fun code => ?_⟩
        · rw [withReturns_append hfeed]
          obtain ⟨next, tail, rfl⟩ :=
            List.exists_cons_of_ne_nil (Segment.tail_ne_nil hopening hliteral)
          exact .literal hopening (Segment.literalAt?_append hkind hliteral _) hreads
        · rw [List.map_cons, atom_literal, lexAtoms, hlexed, List.map_cons, atom_literal, lexAtoms]
  | @unclosed scope kind char rest found hopening hliteral _ ih =>
      obtain ⟨found', hreads, hlexed⟩ :=
        ih fun kind literal hmem => hfound kind literal (List.mem_cons_of_mem _ hmem)
      have hfeed : char ≠ '\n' := by
        rcases Scope.eq_of_opening? hopening with rfl | rfl <;> decide
      have hnone := Segment.literalAt?_withReturns (Mark.ne_lineComment_of_none hliteral) hopening
      rw [hliteral, Option.map_none, withReturns_cons hfeed] at hnone
      refine ⟨.unclosed kind char :: found', ?_, fun code => ?_⟩
      · rw [withReturns_cons hfeed]
        exact .unclosed (by rwa [Scope.opening?_withReturns]) hnone hreads
      · rw [List.map_cons, Segment.atom, lexAtoms, if_neg hfeed, hlexed, List.map_cons,
          Segment.atom, lexAtoms, if_neg hfeed]

/-! ## Main statement -/

/-- Sources that are lexed the same are formatted the same. -/
theorem tidy_eq_of_lexAtoms {source other : List Char}
    (hlexed : lexAtoms [] (atoms source) = lexAtoms [] (atoms other)) :
    Document.tidy source = Document.tidy other := by
  rw [tidy_eq_spell, tidy_eq_spell, shownRows, shownRows, plainStream, plainStream, hlexed]

/-- What is read as a literal is in the table, a line comment without the blanks at its end. -/
theorem exists_of_literal_mem_segments {source text : List Char} {kind : Literal.Kind}
    (hmem : .literal kind text ∈ segments .all source) :
    ∃ literal ∈ (Document.lex source).table.literals, literal.value = kind.trimmed text := by
  have hlisted : (kind, kind.trimmed text) ∈ literalsOf source :=
    List.mem_filterMap.mpr ⟨_, hmem, by cases kind <;> rfl⟩
  exact exists_of_mem_literalsOf hlisted

/-- Where no literal goes over the end of a line, it does not matter how the lines end. -/
theorem tidy_withReturns {source : List Char}
    (hliterals : ∀ literal ∈ (Document.lex source).table.literals, '\n' ∉ literal.value) :
    Document.tidy (withReturns source) = Document.tidy source := by
  obtain ⟨found, hreads, hlexed⟩ :=
    (reads_segments .all source).exists_withReturns fun kind text hmem => by
      obtain ⟨literal, hliteral, hvalue⟩ := exists_of_literal_mem_segments hmem
      rw [← hvalue]
      exact hliterals literal hliteral
  apply tidy_eq_of_lexAtoms
  rw [atoms, hreads.segments_eq, hlexed, atoms]

/-- A sign and a line comment with a carriage return of its own stand before a line feed, and so does
a backslash in a string that is never closed. -/
theorem tidy_withReturns_of_unclosed :
    let source := "x+\n\"a\\\\\" /*b*/// c \r\n\n/*\"\\\n".toList
    (∀ literal ∈ (Document.lex source).table.literals, '\n' ∉ literal.value) ∧
      Document.tidy (withReturns source) = Document.tidy source := by
  intro source
  have hliterals : ∀ literal ∈ (Document.lex source).table.literals, '\n' ∉ literal.value := by
    decide +kernel
  exact ⟨hliterals, tidy_withReturns hliterals⟩

end ChuckLayout
