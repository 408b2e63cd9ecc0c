import ChuckLayout.Proofs.Stability.Spaces

/-!
# Formatting settles

The formatted source is lexed as the rows that it shows, so its rows are those rows again, read back,
and they are written with the same spaces: formatting it again changes nothing.
-/

namespace ChuckLayout

open BraceBreaks (keptFrom keptFrom_induction keptFrom_sublist suppress)
open BracketPairs (link)
open Lexeme (Corresponds IsAlike)
open List (Forall₂)
open Spacing

/-! ## Streams before their brackets are paired -/

/-- The stream of a source with its literals in it, before its brackets are paired. -/
def unlinkedStream (source : List Char) : List Lexeme :=
  suppress (lexAtoms [] (atoms source))

theorem plainStream_eq (source : List Char) : plainStream source = link (unlinkedStream source) := rfl

theorem endsRow_of_getLast?_cons {lexeme : Lexeme} {rest : List Lexeme}
    (hnone : rest = [] → endsRow lexeme.token)
    (hrest : ∀ last, rest.getLast? = some last → endsRow last.token) :
    ∀ last, (lexeme :: rest).getLast? = some last → endsRow last.token := by
  intro last hlast
  rw [List.getLast?_cons, Option.some.injEq] at hlast
  cases hend : rest.getLast? with
  | none =>
      rw [hend, Option.getD_none] at hlast
      rw [← hlast]
      exact hnone (List.getLast?_eq_none_iff.mp hend)
  | some other =>
      rw [hend, Option.getD_some] at hlast
      rw [← hlast]
      exact hrest other hend

/-- A stream that ends in a line break ends in a row's end once the line breaks next to braces are left
out. -/
theorem endsRow_of_getLast?_keptFrom {lexemes : List Lexeme}
    (hlexemes : ∀ lexeme ∈ lexemes, lexeme.dropped = false)
    (hlast : ∀ last, lexemes.getLast? = some last → last.token = .newline) (afterBrace : Bool) :
    (∀ last, (keptFrom afterBrace lexemes).getLast? = some last → endsRow last.token) ∧
      (afterBrace = false → lexemes ≠ [] → keptFrom afterBrace lexemes ≠ []) := by
  have hrestLast : ∀ {lexeme : Lexeme} {rest}, (∀ last, (lexeme :: rest).getLast? = some last →
      last.token = .newline) → ∀ last, rest.getLast? = some last → last.token = .newline :=
    fun hlast last hmem => hlast last (by rw [List.getLast?_cons, hmem]; rfl)
  induction hlexemes, afterBrace using keptFrom_induction with
  | nil => exact ⟨fun _ h => absurd h.symm (Option.some_ne_none _), fun _ h => absurd rfl h⟩
  | leave afterBrace lexeme rest _ _ _ hbraces hkept ih =>
      obtain ⟨hends, hkeeps⟩ := ih (hrestLast hlast)
      rw [hkept]
      refine ⟨hends, fun hafter _ => hkeeps hafter ?_⟩
      rintro rfl
      rw [hafter] at hbraces
      exact absurd hbraces (by decide)
  | keep lexeme rest _ _ htoken _ hkept ih =>
      rw [hkept]
      refine ⟨endsRow_of_getLast?_cons (fun _ => ?_) (ih (hrestLast hlast)).1,
        fun _ _ => List.cons_ne_nil _ _⟩
      rw [htoken]
      rfl
  | other afterBrace lexeme rest _ _ htoken hkept ih =>
      obtain ⟨hends, hkeeps⟩ := ih (hrestLast hlast)
      rw [hkept]
      refine ⟨endsRow_of_getLast?_cons (fun hnone => ?_) hends, fun _ _ => List.cons_ne_nil _ _⟩
      cases hbrace : lexeme.token.isBrace with
      | true => rw [endsRow, hbrace, Bool.or_true]
      | false =>
          refine absurd hnone (hkeeps hbrace ?_)
          rintro rfl
          exact htoken (hlast lexeme rfl)

theorem getLast?_lexAtoms (code : List Char) (atoms : List Atom) :
    (lexAtoms code atoms).getLast? = some .lineBreak := by
  induction atoms generalizing code with
  | nil => rw [lexAtoms, List.getLast?_concat]
  | cons atom rest ih =>
      cases atom with
      | char char =>
          rw [lexAtoms]
          split
          · rw [List.getLast?_append, List.getLast?_cons, ih]
            rfl
          · exact ih _
      | literal text =>
          rw [lexAtoms, List.getLast?_append, List.getLast?_cons, ih]
          rfl

theorem isFresh_of_mem_unlinkedStream {source : List Char} {lexeme : Lexeme}
    (hlexeme : lexeme ∈ unlinkedStream source) : lexeme.IsFresh :=
  isFresh_of_mem_lexAtoms ((keptFrom_sublist dropped_of_mem_lexAtoms false).subset hlexeme)

theorem isUnlinked_of_mem_unlinkedStream {source : List Char} :
    ∀ lexeme ∈ unlinkedStream source, lexeme.IsUnlinked := by
  intro lexeme hlexeme
  rw [isFresh_of_mem_unlinkedStream hlexeme]
  exact ⟨rfl, rfl⟩

/-! ## Brackets in rows -/

theorem bracketsPad_of_mem_rows {lexemes : List Lexeme}
    (hlexemes : ∀ lexeme ∈ lexemes, lexeme.IsUnlinked)
    (hlast : ∀ last, lexemes.getLast? = some last → endsRow last.token) {row : List Lexeme}
    (hrow : row ∈ rows (link lexemes)) : BracketsPad row := by
  rcases isBrace_of_mem_rowsAfter hrow with ⟨lexeme, rfl, -⟩ | hbrace
  · exact List.isChain_singleton _
  · have hchain := List.IsChain.infix (isChain_link hlexemes hlast)
      (isInfix_of_mem_rowsAfter.1 row hrow)
    refine hchain.imp_of_mem_imp fun first second _ hsecond hpads hopen hpartner => ?_
    exact hpads hopen hpartner
      (endsRow_eq_false_iff.mpr ⟨(mem_rowsAfter hrow second hsecond).2, hbrace second hsecond⟩)

/-- A bracket without a partner encloses all the rest, so it is set off from whatever comes after
it. -/
theorem bracketsPad_of_mem_shownRows {source : List Char} {row : List Lexeme}
    (hrow : row ∈ shownRows source) : BracketsPad row := by
  refine bracketsPad_of_mem_rows isUnlinked_of_mem_unlinkedStream ?_ (trimRows_subset _ hrow)
  refine (endsRow_of_getLast?_keptFrom dropped_of_mem_lexAtoms ?_ false).1
  intro last hmem
  rw [getLast?_lexAtoms] at hmem
  rw [← Option.some.inj hmem]
  rfl

/-! ## Signs in rows -/

/-- Whether signs settle does not depend on what placeholders are called. -/
theorem signsSettle_iff {related : List Char → List Char → Prop} {lexemes others : List Lexeme}
    (hlexemes : Forall₂ (Corresponds (SameBut related)) lexemes others) :
    SignsSettle lexemes ↔ SignsSettle others := by
  induction hlexemes with
  | nil => exact Iff.rfl
  | cons hfirst hrest ih =>
      cases hrest with
      | nil => exact Iff.rfl
      | @cons second second' rest rest' hsecond hlater =>
          have htokens := map_token_eq SameBut.keepsSpacing hlater
          have hnext : rest.head?.any (·.token == .text) = rest'.head?.any (·.token == .text) := by
            have hhead := congrArg (fun tokens => tokens.head?.any (· == .text)) htokens
            simpa [List.head?_map, Option.any_map, Function.comp_def] using hhead
          have hfirstToken : _ = _ := hfirst.item.token
          have hsecondToken : _ = _ := hsecond.item.token
          rw [SignsSettle, SignsSettle, ih, Settles, Settles, hnext]
          simp only [Lexeme.item] at hfirstToken hsecondToken
          rw [hfirstToken, hsecondToken]

theorem exists_signsSettle_of_mem_rows {source : List Char}
    (hsigns : SignsSettle (plainStream source)) {row : List Lexeme} (hrow : row ∈ shownRows source) :
    ∃ after, SignsSettle (row ++ after) := by
  obtain ⟨before, after, hsplit⟩ := isInfix_of_mem_rowsAfter.1 row (trimRows_subset _ hrow)
  rw [← hsplit, List.append_assoc] at hsigns
  exact ⟨after, hsigns.of_append⟩

/-! ## Rows that come back -/

/-- The lexemes have the same item, and no pass has found out anything about the second. -/
def IsLinkOf (linked lexeme : Lexeme) : Prop :=
  linked.item = lexeme.item ∧ lexeme.IsFresh

theorem IsLinkOf.shape {linked lexeme : Lexeme} (hlink : IsLinkOf linked lexeme) :
    linked.shape = lexeme.shape := by
  have htoken : linked.token = lexeme.token := congrArg Prod.fst hlink.1
  rw [Lexeme.shape, Lexeme.shape, htoken]

theorem link_forall₂ {lexemes : List Lexeme} (hlexemes : ∀ lexeme ∈ lexemes, lexeme.IsFresh) :
    Forall₂ IsLinkOf (link lexemes) lexemes := by
  rw [List.forall₂_iff_get]
  refine ⟨by simp [link], fun place hplace hplace' => ⟨?_, hlexemes _ (List.get_mem _ _)⟩⟩
  have hget : (link lexemes).get ⟨place, hplace⟩ = BracketPairs.linkAt
      (BracketPairs.openings lexemes) lexemes.length place (lexemes.get ⟨place, hplace'⟩) :=
    List.getElem_mapIdx
  rw [hget, BracketPairs.item_linkAt]

theorem map_item_rows_link {lexemes : List Lexeme} (hlexemes : ∀ lexeme ∈ lexemes, lexeme.IsFresh) :
    (trimRows (rows (link lexemes))).map (List.map Lexeme.item) =
      (trimRows (rows lexemes)).map (List.map Lexeme.item) :=
  map_rows_eq ((link_forall₂ hlexemes).imp fun _ _ hlink => ⟨hlink.shape, hlink.1⟩)

/-- A row that is read back looks the same to the passes. -/
theorem relexed_corresponds {row others : List Lexeme} (hrow : Forall₂ IsLinkOf row others)
    (stream : List Lexeme) (previous : Option Lexeme) :
    Forall₂ (Corresponds SameShape) (relexed stream previous row) others := by
  have hshape : ∀ (token : Token) (gapped : Bool) (text text' : List Char),
      SameShape (token.settled gapped, text) (token, text') := by
    intro token gapped text text'
    cases token <;> cases gapped <;> rfl
  induction hrow generalizing previous with
  | nil => exact .nil
  | @cons linked lexeme row others hlink _ ih =>
      rw [relexed]
      refine .cons ?_ (ih _)
      obtain ⟨hitem, hfresh⟩ := hlink
      rw [hfresh]
      refine ⟨?_, rfl, rfl, rfl⟩
      have htoken : linked.token = lexeme.token := congrArg Prod.fst hitem
      rw [Lexeme.item, Lexeme.item, ← htoken]
      exact hshape _ _ _ _

section

variable {source : List Char}

theorem shownRows_forall₂ (source : List Char) :
    Forall₂ (Forall₂ IsLinkOf) (shownRows source) (trimRows (rows (unlinkedStream source))) :=
  trimRows_forall₂ (rows_forall₂ (fun _ _ => IsLinkOf.shape)
    (link_forall₂ fun _ => isFresh_of_mem_unlinkedStream))

def rereadRows (source : List Char) : List (List Lexeme) :=
  (shownRows source).map (relexed (plainStream source) none)

theorem rereadRows_corresponds (source : List Char) :
    Forall₂ (Forall₂ (Corresponds SameShape)) (rereadRows source)
      (trimRows (rows (unlinkedStream source))) := by
  rw [rereadRows, List.forall₂_map_left_iff]
  exact (shownRows_forall₂ source).imp fun row others hrow => relexed_corresponds hrow _ none

theorem isLineBreak_of_mem_unlinkedStream {lexeme : Lexeme}
    (hlexeme : lexeme ∈ unlinkedStream source) (htoken : lexeme.token = .newline) :
    lexeme = .lineBreak := by
  obtain ⟨hitem, hfresh⟩ := isStreamItem_of_mem_lexAtoms (fun _ => True) (fun _ _ => trivial)
    ((keptFrom_sublist dropped_of_mem_lexAtoms false).subset hlexeme)
  have htext : lexeme.text = ['\n'] := hitem.text_of_newline htoken
  rw [hfresh, htoken, htext]
  rfl

/-- A stream has no line break left that a second pass would drop. -/
theorem kept_unlinkedStream (source : List Char) : Kept false (unlinkedStream source) :=
  kept_keptFrom dropped_of_mem_lexAtoms false

theorem unlinkedStream_sound (source : List Char) :
    ∀ lexeme ∈ unlinkedStream source, lexeme.dropped = false ∧
      (lexeme.token = .newline → lexeme = .lineBreak) := by
  intro lexeme hlexeme
  refine ⟨?_, isLineBreak_of_mem_unlinkedStream hlexeme⟩
  rw [isFresh_of_mem_unlinkedStream hlexeme]

variable (hquotes : QuoteStaysOpen (shownItems source))
  (hmerges : NothingMerges (plainStream source)) (hne : shownRows source ≠ [])

include hquotes hmerges hne

/-- Formatting again starts from the rows of the first time, as they are read back. -/
theorem unlinkedStream_tidy :
    unlinkedStream (Document.tidy source) = suppress (brokenRows (rereadRows source)) := by
  rw [unlinkedStream, lexAtoms_atoms_tidy hquotes hmerges hne, rereadRows]

/-- The rows of the formatted source are those of the source, read back. -/
theorem map_item_shownRows_tidy :
    (shownRows (Document.tidy source)).map (List.map Lexeme.item) =
      (rereadRows source).map (List.map Lexeme.item) := by
  have hfresh : ∀ lexeme ∈ unlinkedStream (Document.tidy source), lexeme.IsFresh :=
    fun _ => isFresh_of_mem_unlinkedStream
  have hrows := map_item_rows_link hfresh
  rw [shownRows, plainStream_eq, hrows, unlinkedStream_tidy hquotes hmerges hne,
    trimRows_rows_of_sameShape (unlinkedStream_sound source) (kept_unlinkedStream source)
      (rereadRows_corresponds source)]

/-- Brackets enclose as many lexemes in the formatted source as in the source. -/
theorem rowCounts_tidy :
    rowCounts (plainStream (Document.tidy source)) = rowCounts (plainStream source) := by
  obtain ⟨before, after, count, hsame⟩ :=
    exists_suppress_brokenRows (unlinkedStream_sound source) (kept_unlinkedStream source)
  have hunlinked : ∀ lexeme ∈ unlinkedStream source, lexeme.IsUnlinked :=
    isUnlinked_of_mem_unlinkedStream
  have hall := isUnlinked_of_mem_surround 0 count hunlinked
  have hlinked := BracketPairs.link_corresponds shape_eq_of_sameShape
    (BraceBreaks.suppress_corresponds shape_eq_of_sameShape
      (brokenRows_forall₂ (rereadRows_corresponds source)))
  generalize suppress (brokenRows (trimRows (rows (unlinkedStream source)))) = kept at hsame hlinked
  have hkept : ∀ lexeme ∈ kept, lexeme.IsUnlinked := by
    rw [lineBreaks, List.replicate_zero, List.nil_append, hsame] at hall
    exact fun lexeme hmem => hall lexeme (List.mem_append_right _ (List.mem_append_left _ hmem))
  calc rowCounts (plainStream (Document.tidy source))
      = rowCounts (link (suppress (brokenRows (rereadRows source)))) := by
        rw [plainStream_eq, unlinkedStream_tidy hquotes hmerges hne]
    _ = rowCounts (link kept) := rowCounts_corresponds hlinked
    _ = rowCounts (link (lineBreaks before ++ (kept ++ lineBreaks after))) :=
        (rowCounts_link_surround hkept before after).symm
    _ = rowCounts (link (lineBreaks 0 ++ (unlinkedStream source ++ lineBreaks count))) := by
        rw [← hsame]
        rfl
    _ = rowCounts (plainStream source) := rowCounts_link_surround hunlinked 0 count

end

/-! ## Printing the rows that come back -/

theorem RowIsReread.isBraceRow_eq {stream stream' row row' : List Lexeme} {previous : Option Lexeme}
    (hreread : RowIsReread stream stream' previous row row') (brace : Token) (hbrace : brace.isBrace) :
    isBraceRow brace row' = isBraceRow brace row := by
  have hsign : brace.isSign = false := by
    revert hbrace
    cases brace <;> decide
  cases hreread with
  | nil => rfl
  | cons hhead hrest =>
      cases hrest with
      | nil => simp [isBraceRow, hhead.token_eq_iff hsign]
      | cons _ _ => simp [isBraceRow]

/-- Rows that are read back are printed as they were. -/
theorem printAtoms_reread {stream stream' : List Lexeme} {found found' : List (List Lexeme)}
    (hitems : found'.map (List.map Lexeme.item) =
      (found.map (relexed stream none)).map (List.map Lexeme.item))
    (hcounts : found'.map (List.map (matchedCount stream')) =
      found.map (List.map (matchedCount stream)))
    (hfound : ∀ row ∈ found, IsRow row ∧ BracketsPad row ∧ ∃ after, SignsSettle (row ++ after))
    (hfound' : ∀ row ∈ found', BracketsPad row) (depth : Int) :
    printAtoms stream' depth found' = printAtoms stream depth found := by
  apply printAtoms_congr
  induction found generalizing found' with
  | nil => rw [List.map_eq_nil_iff.mp hcounts]; exact .nil
  | cons row rest ih =>
      cases found' with
      | nil => exact absurd hcounts.symm (List.cons_ne_nil _ _)
      | cons row' rest' =>
          simp only [List.map_cons, List.cons.injEq] at hitems hcounts
          obtain ⟨⟨hrow, hpads, after, hsigns⟩, hrest⟩ := List.forall_mem_cons.mp hfound
          obtain ⟨hpads', hrest'⟩ := List.forall_mem_cons.mp hfound'
          have hreread := rowIsReread_of_map_eq hitems.1 hcounts.1
          have hatoms := hreread.rowAtoms_eq .none hrow.shown hpads hpads' hsigns
          exact .cons ⟨hatoms, hreread.isBraceRow_eq⟩ (ih hitems.2 hcounts.2 hrest hrest')

theorem tidy_nil : Document.tidy [] = [] := by
  have hatoms : atoms [] = [] := by
    rw [atoms, segments]
    rfl
  have hrows : shownRows [] = [] := by
    rw [shownRows, plainStream, hatoms, lexAtoms, codeOf_nil]
    rfl
  rw [tidy_eq_spell, hrows]
  rfl

/-- Formatting settles at once, when no raw text merges with the lexeme after it, no sign after an
opening parenthesis changes, and no quote that the source leaves open is closed. -/
theorem tidy_tidy (source : List Char) (hmerges : NothingMerges (Document.stream source))
    (hsigns : SignsSettle (Document.stream source))
    (hquotes : QuoteStaysOpen ((Document.revealedStream source).map Lexeme.item)) :
    Document.tidy (Document.tidy source) = Document.tidy source := by
  rw [quoteStaysOpen_revealedStream_iff] at hquotes
  rw [nothingMerges_iff (reveals_stream source)] at hmerges
  rw [signsSettle_iff (reveals_stream source)] at hsigns
  rcases eq_or_ne (shownRows source) [] with hnone | hne
  · have hempty : Document.tidy source = [] := by
      rw [tidy_eq_spell, hnone]
      rfl
    rw [hempty, tidy_nil]
  · have hfound : ∀ row ∈ shownRows source,
        IsRow row ∧ BracketsPad row ∧ ∃ after, SignsSettle (row ++ after) :=
      fun row hrow => ⟨isRow_of_mem_shownRows hrow, bracketsPad_of_mem_shownRows hrow,
        exists_signsSettle_of_mem_rows hsigns hrow⟩
    have hprint := printAtoms_reread (map_item_shownRows_tidy hquotes hmerges hne)
      (rowCounts_tidy hquotes hmerges hne) hfound (fun row => bracketsPad_of_mem_shownRows) 0
    calc Document.tidy (Document.tidy source)
        = spell (printAtoms (plainStream (Document.tidy source)) 0
            (shownRows (Document.tidy source))) := tidy_eq_spell _
      _ = spell (printAtoms (plainStream source) 0 (shownRows source)) := congrArg spell hprint
      _ = Document.tidy source := (tidy_eq_spell source).symm

/-- The sign in parentheses stays, the other one is read back with the space after it, the line break
after the brace is dropped again, and the string is never closed. -/
theorem tidy_tidy_signs :
    let source := "(-x)+[y z ,]\x7b\"w".toList
    (NothingMerges (Document.stream source) ∧ SignsSettle (Document.stream source) ∧
      QuoteStaysOpen ((Document.revealedStream source).map Lexeme.item)) ∧
        Document.tidy (Document.tidy source) = Document.tidy source := by
  intro source
  have hmerges : NothingMerges (Document.stream source) := by decide +kernel
  have hsigns : SignsSettle (Document.stream source) := by decide +kernel
  have hquotes : QuoteStaysOpen ((Document.revealedStream source).map Lexeme.item) := by
    decide +kernel
  exact ⟨⟨hmerges, hsigns, hquotes⟩, tidy_tidy source hmerges hsigns hquotes⟩

/-- The comment mark of `*/*` hides the quotes behind it, until formatting takes the mark apart: the
string is set off only when the source is formatted again. -/
theorem tidy_tidy_ne_of_unclosed_comment :
    let source := "*/*.\"\"".toList
    NothingMerges (Document.stream source) ∧ SignsSettle (Document.stream source) ∧
      Document.tidy (Document.tidy source) ≠ Document.tidy source := by
  intro source
  have hreads : Reads .all source [.code '*', .unclosed .blockComment '/', .code '*', .code '.',
      .code '\"', .code '\"'] :=
    .code rfl (.unclosed rfl rfl (.code rfl (.code rfl (.code rfl (.code rfl (.done _))))))
  have hstring : Reads .all ("\"\"".toList ++ []) [.literal .string "\"\"".toList] :=
    .literal rfl rfl (.done .all)
  have hreads' : Reads .all "*/ * .\"\"".toList [.code '*', .code '/', .code ' ', .code '*',
      .code ' ', .code '.', .literal .string "\"\"".toList] :=
    .code rfl (.code rfl (.code rfl (.code rfl (.code rfl (.code rfl hstring)))))
  have hfirst : Document.tidy source = "*/ * .\"\"".toList := by
    rw [tidy_eq_spell, shownRows, plainStream, atoms, hreads.segments_eq]
    decide +kernel
  have hsecond : Document.tidy "*/ * .\"\"".toList = "*/ * . \"\"".toList := by
    rw [tidy_eq_spell, shownRows, plainStream, atoms, hreads'.segments_eq]
    decide +kernel
  refine ⟨by decide +kernel, by decide +kernel, ?_⟩
  rw [hfirst, hsecond]
  decide

end ChuckLayout
