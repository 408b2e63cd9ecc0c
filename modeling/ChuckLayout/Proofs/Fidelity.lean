import ChuckLayout.Proofs.Rereading.Literals

/-!
# Literals survive formatting

A literal is told by its first two characters, so the literals of a text are known once its atoms
are.  Formatting keeps them all, in their order, and makes up none.
-/

namespace ChuckLayout

open Spacing

def literalKind? : List Char → Option Literal.Kind
  | char :: next :: _ => Scope.all.opening? char (some next)
  | _ => none

theorem IsLiteral.literalKind?_eq {kind : Literal.Kind} {text : List Char}
    (hliteral : IsLiteral kind text) : literalKind? text = some kind := by
  obtain ⟨char, next, tail, rfl, hopening⟩ := hliteral.opens
  exact hopening

/-- The kind of a literal can be told by its text, so the literals of a text are known from the
texts of its literal atoms. -/
theorem literalsOf_eq (text : List Char) :
    literalsOf text = (literalTexts (atoms text)).filterMap fun literal =>
      (literalKind? literal).map fun kind => (kind, literal) := by
  have hreads := reads_segments .all text
  rw [literalsOf, atoms]
  generalize segments .all text = found at hreads
  generalize Scope.all = scope at hreads
  induction hreads with
  | done => rfl
  | code _ _ ih => exact ih
  | unclosed _ _ _ ih => exact ih
  | @literal scope kind char tail rest found hopening hliteral hrest ih =>
      have hkind := (isLiteral_trimmed hopening hliteral).literalKind?_eq
      have hpair : (literalKind? (kind.trimmed (char :: tail))).map
          (fun other => (other, kind.trimmed (char :: tail))) =
            some (kind, kind.trimmed (char :: tail)) := by
        rw [hkind, Option.map_some]
      rw [List.map_cons, atom_literal, literalTexts_cons, List.filterMap_cons (l := literalTexts _),
        hpair, ← ih]
      cases kind <;> rfl

/-- The literals of the formatted source are those of the source, as long as no quote that the source
leaves in its code finds another to close it. -/
theorem literalsOf_tidy_of_quoteStaysOpen {source : List Char}
    (hquotes : QuoteStaysOpen (shownItems source)) :
    literalsOf (Document.tidy source) = literalsOf source := by
  rw [literalsOf_eq, literalsOf_eq source, atoms_tidy hquotes, literalTexts_shownRows]

theorem quoteStaysOpen_of_opensNothing {items : List (Token × List Char)}
    (hitems : ∀ item ∈ items, OpensNothing item) : QuoteStaysOpen items := by
  induction items with
  | nil => trivial
  | cons item rest ih =>
      obtain ⟨hitem, hrest⟩ := List.forall_mem_cons.mp hitems
      exact (quoteStaysOpen_cons_of_other hitem.1 fun h => hitem.2 h.1 h.2).mpr (ih hrest)

/-- In the stream of a source with every literal closed, no opener is left in raw text or as a
comment mark. -/
theorem opensNothing_shownItems {source : List Char} (hclosed : WellClosed source) :
    ∀ item ∈ shownItems source, OpensNothing item := by
  intro item hitem
  exact opensNothing_of_reads (reads_segments .all source) rfl hclosed (pending_nil _ _) item
    (List.mem_of_mem_filter hitem)

/-- When every string and block comment of a source is closed, so they are in the formatted source,
and its literals are the same in the same order. -/
theorem literalsOf_tidy (source : List Char) (hclosed : WellClosed source) :
    WellClosed (Document.tidy source) ∧
      literalsOf (Document.tidy source) = literalsOf source := by
  have hopens := opensNothing_shownItems hclosed
  have hquotes := quoteStaysOpen_of_opensNothing hopens
  refine ⟨fun kind char hmem => ?_, literalsOf_tidy_of_quoteStaysOpen hquotes⟩
  obtain ⟨found, hreads, hshows⟩ := exists_reads_tidy hquotes
  rw [hreads.segments_eq] at hmem
  obtain ⟨lexeme, hlexeme, hopener⟩ := hshows.unclosed kind char hmem
  have hitem : lexeme.item ∈ shownItems source := by
    rw [← map_item_flatten_shownRows]
    exact List.mem_map_of_mem hlexeme
  rcases hopener with hcomment | ⟨htext, hquote⟩
  · exact (hopens _ hitem).1 hcomment
  · exact (hopens _ hitem).2 htext hquote

/-- A string that holds a comment mark, next to a line comment. -/
theorem reads_string_lineComment :
    Reads .all "\"a//\"//b".toList
      [.literal .string "\"a//\"".toList, .literal .lineComment "//b".toList] :=
  have hcomment : Reads .all ("//b".toList ++ []) [.literal .lineComment "//b".toList] :=
    .literal rfl rfl (.done .all)
  show Reads .all ("\"a//\"".toList ++ "//b".toList) _ from .literal rfl rfl hcomment

theorem literalsOf_tidy_string_lineComment :
    WellClosed "\"a//\"//b".toList ∧
      literalsOf (Document.tidy "\"a//\"//b".toList) =
        [(.string, "\"a//\"".toList), (.lineComment, "//b".toList)] := by
  have hclosed : WellClosed "\"a//\"//b".toList := by
    intro kind char
    rw [reads_string_lineComment.segments_eq]
    simp
  refine ⟨hclosed, (literalsOf_tidy _ hclosed).2.trans ?_⟩
  rw [literalsOf, reads_string_lineComment.segments_eq]
  rfl

end ChuckLayout
