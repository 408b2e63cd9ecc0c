import ChuckLayout.Proofs.Conservation
import ChuckLayout.Proofs.Rereading.Printed
import ChuckLayout.Proofs.Rereading.Source

/-!
# Reading the formatted source

The formatted source is read as the rows that it was printed from: their code is code, and their
literals are literals, unless a quote that the source leaves in its code finds another quote to close
it.
-/

namespace ChuckLayout

open Blank (IsTight isBlank)
open Spacing

/-! ## Literals are tight -/

theorem getLast?_of_throughCommentEnd? {text inside : List Char}
    (hinside : Segment.throughCommentEnd? text = some inside) : inside.getLast? = some '/' := by
  induction text generalizing inside with
  | nil => exact absurd hinside.symm (Option.some_ne_none _)
  | cons char rest ih =>
      rw [Segment.throughCommentEnd?] at hinside
      split at hinside
      · rw [← Option.some.inj hinside]
        rfl
      · obtain ⟨later, hlater, rfl⟩ := Option.map_eq_some_iff.mp hinside
        rw [List.getLast?_cons, ih hlater]
        rfl

theorem getLast?_of_throughQuote? {hidden : Bool} {text inside : List Char}
    (hinside : Segment.throughQuote? hidden text = some inside) : inside.getLast? = some '\"' := by
  induction text generalizing hidden inside with
  | nil => exact absurd hinside.symm (Option.some_ne_none _)
  | cons char rest ih =>
      rw [Segment.throughQuote?] at hinside
      split at hinside
      · rw [← Option.some.inj hinside]
        rfl
      · obtain ⟨later, hlater, rfl⟩ := Option.map_eq_some_iff.mp hinside
        rw [List.getLast?_cons, ih hlater]
        rfl

/-- A literal begins and ends with characters that are not blank. -/
theorem IsLiteral.isTight {kind : Literal.Kind} {text : List Char} (hliteral : IsLiteral kind text) :
    IsTight text := by
  obtain ⟨char, next, tail, rfl, hopening⟩ := hliteral.opens
  have hne : char :: next :: tail ≠ [] := List.cons_ne_nil _ _
  constructor
  · rcases Scope.eq_of_opening? hopening with rfl | rfl <;> rfl
  · have hwhole := hliteral.whole
    have hlast : ∃ last, (char :: next :: tail).getLast? = some last ∧ isBlank last = false := by
      cases kind with
      | string =>
          obtain ⟨inside, hinside, heq⟩ := Option.map_eq_some_iff.mp hwhole
          refine ⟨'\"', ?_, by decide⟩
          rw [← heq, List.getLast?_cons, getLast?_of_throughQuote? hinside]
          rfl
      | blockComment =>
          obtain ⟨inside, hinside, heq⟩ := Option.map_eq_some_iff.mp hwhole
          refine ⟨'/', ?_, by decide⟩
          rw [← heq, List.getLast?_append, getLast?_of_throughCommentEnd? hinside]
          rfl
      | lineComment =>
          have hsome := List.getLast?_eq_some_getLast hne
          refine ⟨_, hsome, Blank.getLast?_trimEnd (char :: next :: tail) _ ?_⟩
          rw [hliteral.trimmed rfl]
          exact hsome
    obtain ⟨last, hlast, hsolid⟩ := hlast
    simp [hlast, hsolid]

theorem InScope.isLiteral_of_mem {scope : Scope} {items : List (Token × List Char)}
    (hitems : InScope scope items) {item : Token × List Char} (hmem : item ∈ items)
    (htoken : item.1 = .placeholder) : ∃ kind, IsLiteral kind item.2 := by
  induction items generalizing scope with
  | nil => exact absurd hmem List.not_mem_nil
  | cons first rest ih =>
      rcases List.mem_cons.mp hmem with rfl | hmem
      · obtain ⟨kind, -, hliteral⟩ := hitems.1 htoken
        exact ⟨kind, hliteral⟩
      · exact ih hitems.2 hmem

/-! ## The lexemes that are shown -/

/-- The items of a source that show in its layout. -/
def shownItems (source : List Char) : List (Token × List Char) :=
  ((lexAtoms [] (atoms source)).map Lexeme.item).filter fun item => item.1 != .newline

def shownRows (source : List Char) : List (List Lexeme) :=
  trimRows (rows (plainStream source))

theorem shownItems_eq (source : List Char) :
    shownItems source =
      ((plainStream source).map Lexeme.item).filter fun item => item.1 != .newline :=
  (filter_map_item_applyAll dropped_of_mem_lexAtoms).symm

theorem map_item_filter_plainStream (source : List Char) :
    ((plainStream source).filter fun lexeme => lexeme.token != .newline).map Lexeme.item =
      shownItems source := by
  rw [shownItems_eq, List.filter_map]
  rfl

/-- A quote stays open in the items that show just when it does in the stream. -/
theorem quoteStaysOpen_revealedStream_iff (source : List Char) :
    QuoteStaysOpen ((Document.revealedStream source).map Lexeme.item) ↔
      QuoteStaysOpen (shownItems source) := by
  rw [revealedStream_eq, shownItems_eq, quoteStaysOpen_filter_iff]
  refine List.forall_mem_map.mpr fun lexeme hlexeme htoken => ?_
  rw [(isStreamItem_of_mem_plainStream hlexeme).text_of_newline htoken]
  rfl

theorem flatten_trimRows (found : List (List Lexeme)) :
    (trimRows found).flatten = found.flatten := by
  obtain ⟨before, after, hfound⟩ := exists_trimRows found
  conv_rhs => rw [hfound]
  simp

/-- The rows show every item but the line breaks, in order. -/
theorem map_item_flatten_shownRows (source : List Char) :
    (shownRows source).flatten.map Lexeme.item = shownItems source := by
  rw [shownRows, flatten_trimRows, rows, flatten_rowsAfter, map_item_filter_plainStream]

theorem inScope_filter {scope : Scope} {items : List (Token × List Char)}
    (hitems : InScope scope items) :
    InScope scope (items.filter fun item => item.1 != .newline) := by
  induction items generalizing scope with
  | nil => trivial
  | cons item rest ih =>
      by_cases htoken : item.1 = .newline
      · rw [List.filter_cons_of_neg (by simp [htoken])]
        have hafter : scope.afterItem item = scope := by
          apply Scope.afterItem_of_other <;> simp [htoken]
        have hlater := hitems.2
        rw [hafter] at hlater
        exact ih hlater
      · rw [List.filter_cons_of_pos (by simp [htoken])]
        exact ⟨hitems.1, ih hitems.2⟩

/-- Every literal of the stream stands where its kind is still looked for. -/
theorem inScope_shownItems (source : List Char) : InScope .all (shownItems source) :=
  inScope_filter (inScope_of_reads (reads_segments .all source) (pending_nil _ _))

theorem commentsStayOpen_shownItems (source : List Char) : CommentsStayOpen (shownItems source) :=
  (commentsStayOpen_of_reads (reads_segments .all source) (pending_nil _ _)
    (fun h => Scope.noConfusion h)).sublist List.filter_sublist

theorem mem_shownItems {source : List Char} {lexeme : Lexeme} (hlexeme : lexeme ∈ plainStream source)
    (htoken : lexeme.token ≠ .newline) : lexeme.item ∈ shownItems source := by
  rw [← map_item_filter_plainStream]
  exact List.mem_map_of_mem (List.mem_filter.mpr ⟨hlexeme, by simp [htoken]⟩)

theorem isTight_core_of_mem {source : List Char} {lexeme : Lexeme}
    (hlexeme : lexeme ∈ plainStream source) (htoken : lexeme.token ≠ .newline) :
    IsTight lexeme.core := by
  rcases (isStreamItem_of_mem_plainStream hlexeme).cases_token with
    ⟨hentry, -⟩ | ⟨hplaceholder, -⟩ | ⟨htext, code, hraw⟩
  · rw [(Lexeme.core_of_isTableEntry hentry).2]
    exact (Token.spelling_of_isTableEntry hentry htoken).1
  · obtain ⟨kind, hliteral⟩ := (inScope_shownItems source).isLiteral_of_mem
      (mem_shownItems hlexeme htoken) hplaceholder
    rw [(Lexeme.core_of_placeholder hplaceholder).2]
    exact hliteral.isTight
  · rw [(Lexeme.core_of_text htext).2]
    exact Blank.isTight_squeeze (isTight_of_isRaw hraw)

theorem isRow_of_mem_rows {source : List Char} {row : List Lexeme}
    (hrow : row ∈ rows (plainStream source)) : IsRow row where
  shown lexeme hlexeme := by
    obtain ⟨hmem, hnot⟩ := mem_rowsAfter hrow lexeme hlexeme
    exact ⟨isStreamItem_of_mem_plainStream hmem, hnot⟩
  tight lexeme hlexeme := by
    obtain ⟨hmem, hnot⟩ := mem_rowsAfter hrow lexeme hlexeme
    exact isTight_core_of_mem hmem hnot
  follows := List.IsChain.infix (isChain_plainStream source)
    ((isInfix_of_mem_rowsAfter.1 row hrow).map Lexeme.item)
  brace := isBrace_of_mem_rowsAfter hrow

theorem isRow_of_mem_shownRows {source : List Char} {row : List Lexeme}
    (hrow : row ∈ shownRows source) : IsRow row :=
  isRow_of_mem_rows (trimRows_subset _ hrow)

/-- The formatted source is its rows, and nothing before or after them. -/
theorem tidy_eq_spell (source : List Char) :
    Document.tidy source = spell (printAtoms (plainStream source) 0 (shownRows source)) := by
  rw [tidy_eq_join_printRows, spell_printAtoms, shownRows, trim_join_printRows]
  exact fun row hrow => (isRow_of_mem_rows hrow).tight

theorem isShown_of_mem_shownRows {source : List Char} :
    ∀ lexeme ∈ (shownRows source).flatten, lexeme.IsShown := by
  intro lexeme hlexeme
  obtain ⟨row, hrow, hmem⟩ := List.mem_flatten.mp hlexeme
  exact (isRow_of_mem_shownRows hrow).shown lexeme hmem

/-- The atoms of the formatted text show the lexemes of its rows and add blanks only. -/
theorem laid_shownRows (source : List Char) :
    Laid (shownRows source).flatten (printAtoms (plainStream source) 0 (shownRows source)) :=
  laid_printAtoms (fun _ => isRow_of_mem_shownRows) 0

/-- The formatted source is read as its rows. -/
theorem exists_reads_tidy {source : List Char} (hquotes : QuoteStaysOpen (shownItems source)) :
    ∃ found, Reads .all (Document.tidy source) found ∧
      Shows (shownRows source).flatten (printAtoms (plainStream source) 0 (shownRows source))
        found := by
  rw [← map_item_flatten_shownRows] at hquotes
  rw [tidy_eq_spell]
  refine exists_reads_of_laid (laid_shownRows source) isShown_of_mem_shownRows ?_ ?_ fun _ => hquotes
  · rw [map_item_flatten_shownRows]
    exact inScope_shownItems source
  · rw [map_item_flatten_shownRows]
    exact commentsStayOpen_shownItems source

/-- The formatted text is read as what it was put together from. -/
theorem atoms_tidy {source : List Char} (hquotes : QuoteStaysOpen (shownItems source)) :
    atoms (Document.tidy source) = printAtoms (plainStream source) 0 (shownRows source) := by
  obtain ⟨found, hreads, hshows⟩ := exists_reads_tidy hquotes
  rw [atoms, hreads.segments_eq, hshows.atoms]

end ChuckLayout
