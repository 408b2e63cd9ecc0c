import ChuckLayout.Proofs.Stability.Idempotence

/-!
# Line feeds around a source

Line feeds before a source and after it are read as code, whatever literals the source leaves open.
They put line breaks around its stream, and no row and no space depends on these.  Main statement:
a source between line feeds is formatted as the source is.
-/

namespace ChuckLayout

open BraceBreaks (keptFrom)
open BracketPairs (link)
open Lexeme (IsAlike)
open List (Forall₂)
open Spacing

/-! ## Reading before line feeds -/

theorem head?_append_lineFeeds {char : Char} (hchar : char ≠ '\n') (text : List Char) (count : Nat) :
    (text ++ List.replicate count '\n').head? = some char ↔ text.head? = some char := by
  cases text with
  | cons first rest => rfl
  | nil => cases count <;> simp [List.replicate_succ, Ne.symm hchar]

theorem Scope.opening?_append_lineFeeds (scope : Scope) (char : Char) (rest : List Char)
    (count : Nat) : scope.opening? char (rest ++ List.replicate count '\n').head? =
      scope.opening? char rest.head? :=
  Scope.opening?_congr (head?_append_lineFeeds (by decide) rest count)
    (head?_append_lineFeeds (by decide) rest count)

namespace Segment

theorem throughCommentEnd?_append_lineFeeds (text : List Char) (count : Nat) :
    throughCommentEnd? (text ++ List.replicate count '\n') = throughCommentEnd? text := by
  induction text with
  | nil =>
      induction count with
      | zero => rfl
      | succ count ih =>
          rw [List.nil_append] at ih ⊢
          rw [List.replicate_succ, throughCommentEnd?.eq_2, if_neg (by simp), ih]
          rfl
  | cons char rest ih =>
      have hslash := head?_append_lineFeeds (show '/' ≠ '\n' by decide) rest count
      rw [List.cons_append, throughCommentEnd?, throughCommentEnd?, ih]
      simp only [hslash]

theorem throughQuote?_append_lineFeeds (hidden : Bool) (text : List Char) (count : Nat) :
    throughQuote? hidden (text ++ List.replicate count '\n') = throughQuote? hidden text := by
  induction text generalizing hidden with
  | nil =>
      induction count generalizing hidden with
      | zero => rfl
      | succ count ih =>
          have hlater := ih (!hidden && '\n' == '\\')
          rw [List.nil_append] at hlater ⊢
          rw [List.replicate_succ, throughQuote?.eq_2, if_neg (by simp), hlater]
          rfl
  | cons char rest ih => rw [List.cons_append, throughQuote?, throughQuote?, ih]

theorem literalAt?_append_lineFeeds {scope : Scope} {kind : Literal.Kind} {char : Char}
    {rest : List Char} (hopening : scope.opening? char rest.head? = some kind) (count : Nat) :
    literalAt? (char :: rest ++ List.replicate count '\n') kind = literalAt? (char :: rest) kind := by
  cases kind with
  | string =>
      rw [literalAt?, literalAt?, List.cons_append, List.drop_succ_cons, List.drop_succ_cons,
        List.drop_zero, List.drop_zero, throughQuote?_append_lineFeeds]
  | blockComment =>
      obtain ⟨-, hstar, -⟩ := Scope.opening?_eq_blockComment_iff.mp hopening
      obtain ⟨later, rfl⟩ := List.head?_eq_some_iff.mp hstar
      exact congrArg (Option.map _) (throughCommentEnd?_append_lineFeeds later count)
  | lineComment =>
      rw [literalAt?, literalAt?, List.takeWhile_append]
      split
      · rename_i hall
        have hnone : (List.replicate count '\n').takeWhile (· != '\n') = [] := by
          cases count <;> rfl
        rw [hnone, List.append_nil, (List.takeWhile_prefix _).eq_of_length hall]
      · rfl

end Segment

/-- Line feeds at the end are read as code, and close nothing. -/
theorem Reads.append_lineFeeds {scope : Scope} {text : List Char} {found : List Segment}
    (hreads : Reads scope text found) (count : Nat) :
    Reads scope (text ++ List.replicate count '\n') (found ++ List.replicate count (.code '\n')) := by
  induction hreads with
  | done scope =>
      induction count with
      | zero => exact .done scope
      | succ count ih => exact .code (Scope.opening?_of_ne (by decide) (by simp) _) ih
  | @code scope char rest found hopening _ ih =>
      exact .code ((Scope.opening?_append_lineFeeds scope char rest count).trans hopening) ih
  | @literal scope kind char tail rest found hopening hliteral _ ih =>
      have hopens := Scope.opening?_append_lineFeeds scope char (tail ++ rest) count
      have hwhole := Segment.literalAt?_append_lineFeeds hopening count
      rw [hopening, List.append_assoc] at hopens
      rw [← List.cons_append, hliteral, List.append_assoc] at hwhole
      rw [List.append_assoc]
      exact .literal hopens hwhole ih
  | @unclosed scope kind char rest found hopening hliteral _ ih =>
      exact .unclosed ((Scope.opening?_append_lineFeeds scope char rest count).trans hopening)
        ((Segment.literalAt?_append_lineFeeds hopening count).trans hliteral) ih

/-- Line feeds around a text change nothing about what is read in it. -/
theorem segments_surround (before after : Nat) (text : List Char) :
    segments .all (List.replicate before '\n' ++ (text ++ List.replicate after '\n')) =
      List.replicate before (.code '\n') ++
        (segments .all text ++ List.replicate after (.code '\n')) := by
  induction before with
  | zero => exact ((reads_segments .all text).append_lineFeeds after).segments_eq
  | succ before ih =>
      rw [List.replicate_succ, List.cons_append,
        segments_code (Scope.opening?_of_ne (by decide) (by simp) _), ih, List.replicate_succ,
        List.cons_append]

/-! ## Lexing between line feeds -/

theorem lexAtoms_lineFeeds_append (count : Nat) (rest : List Atom) :
    lexAtoms [] (List.replicate count (.char '\n') ++ rest) = lineBreaks count ++ lexAtoms [] rest := by
  induction count with
  | zero => rfl
  | succ count ih =>
      rw [List.replicate_succ, List.cons_append, lexAtoms, if_pos rfl, codeOf_nil, ih]
      rfl

theorem lexAtoms_append_lineFeeds (found : List Atom) (count : Nat) :
    lexAtoms [] (found ++ List.replicate count (.char '\n')) =
      lexAtoms [] found ++ lineBreaks count := by
  cases count with
  | zero => rw [List.replicate_zero, List.append_nil, lineBreaks, List.replicate_zero, List.append_nil]
  | succ count =>
      have hlater := lexAtoms_lineFeeds_append count []
      rw [List.append_nil] at hlater
      rw [List.replicate_succ, lexAtoms_append_lineBreak, hlater, lexAtoms, codeOf_nil, lineBreaks,
        lineBreaks, List.replicate_succ', List.nil_append]

/-- Line feeds around a text become line breaks around its stream, or are dropped. -/
theorem exists_unlinkedStream_surround (before after : Nat) (text : List Char) :
    ∃ before' after',
      unlinkedStream (List.replicate before '\n' ++ (text ++ List.replicate after '\n')) =
        lineBreaks before' ++ (unlinkedStream text ++ lineBreaks after') := by
  have hlexed : lexAtoms []
      (atoms (List.replicate before '\n' ++ (text ++ List.replicate after '\n'))) =
        lineBreaks before ++ (lexAtoms [] (atoms text) ++ lineBreaks after) := by
    simp only [atoms, segments_surround, List.map_append, List.map_replicate, Segment.atom]
    rw [lexAtoms_lineFeeds_append, lexAtoms_append_lineFeeds]
  obtain ⟨before', hbefore⟩ := exists_keptFrom_lineBreaks_append false before
    (lexAtoms [] (atoms text) ++ lineBreaks after)
  have hdropped : ∀ lexeme ∈ lexAtoms [] (atoms text), lexeme.dropped = false :=
    dropped_of_mem_lexAtoms
  obtain ⟨after', hafter⟩ := exists_keptFrom_append_lineBreaks hdropped false after
  refine ⟨before', after', ?_⟩
  calc unlinkedStream (List.replicate before '\n' ++ (text ++ List.replicate after '\n'))
      = keptFrom false (lineBreaks before ++ (lexAtoms [] (atoms text) ++ lineBreaks after)) := by
        rw [unlinkedStream, hlexed]
        rfl
    _ = lineBreaks before' ++ (unlinkedStream text ++ lineBreaks after') := by
        rw [hbefore, hafter]
        rfl

/-! ## Rows with the same items -/

namespace Lexeme

variable {lexeme lexeme' : Lexeme} (hitem : lexeme'.item = lexeme.item)

include hitem

theorem atoms_eq_of_item : lexeme'.atoms = lexeme.atoms := by
  obtain ⟨htoken, htext⟩ := Prod.mk.inj hitem
  rw [Lexeme.atoms, Lexeme.atoms, core_eq_of_item hitem, htoken, htext]

theorem isAlike_of_item : lexeme.IsAlike lexeme' := by
  obtain ⟨htoken, htext⟩ := Prod.mk.inj hitem
  constructor <;> simp [htoken, htext]

end Lexeme

section

variable {stream stream' : List Lexeme} {previous previous' : Option Lexeme}

theorem rel_head?_of_items {row row' : List Lexeme}
    (hitems : row'.map Lexeme.item = row.map Lexeme.item) :
    Option.Rel IsAlike row.head? row'.head? := by
  cases row with
  | nil => rw [List.map_eq_nil_iff.mp hitems]; exact .none
  | cons lexeme rest =>
      cases row' with
      | nil => exact absurd hitems.symm (List.cons_ne_nil _ _)
      | cons lexeme' rest' =>
          rw [List.map_cons, List.map_cons, List.cons.injEq] at hitems
          exact .some (Lexeme.isAlike_of_item hitems.1)

/-- The space after a lexeme depends on the items of its row, and on how much its brackets enclose. -/
theorem spaceAfter_eq_of_items {lexeme lexeme' : Lexeme} {rest rest' : List Lexeme}
    (hprevious : Option.Rel IsAlike previous previous')
    (hitems : (lexeme' :: rest').map Lexeme.item = (lexeme :: rest).map Lexeme.item)
    (hcounts : (lexeme' :: rest').map (matchedCount stream') =
      (lexeme :: rest).map (matchedCount stream))
    (hpads : BracketsPad (lexeme :: rest)) (hpads' : BracketsPad (lexeme' :: rest')) :
    spaceAfter stream' previous' lexeme' rest' = spaceAfter stream previous lexeme rest := by
  rw [List.map_cons, List.map_cons, List.cons.injEq] at hitems hcounts
  cases rest with
  | nil => rw [List.map_eq_nil_iff.mp hitems.2]; rfl
  | cons second rest =>
      cases rest' with
      | nil => exact absurd hitems.2.symm (List.cons_ne_nil _ _)
      | cons second' rest' =>
          obtain ⟨hitem, hitems⟩ := hitems
          obtain ⟨hcount, hcounts⟩ := hcounts
          rw [List.map_cons, List.map_cons, List.cons.injEq] at hitems hcounts
          have htoken : lexeme'.token = lexeme.token := congrArg Prod.fst hitem
          have hsecond : second'.token = second.token := congrArg Prod.fst hitems.1
          have hopen : lexeme.token = .openSquare →
              (1 < lexeme.enclosedCount ↔ 1 < lexeme'.enclosedCount) := by
            intro hopen
            have hopen' := htoken.trans hopen
            exact one_lt_enclosedCount_iff hcount hopen hopen'
              ((List.isChain_cons_cons.mp hpads).1 hopen)
              ((List.isChain_cons_cons.mp hpads').1 hopen')
          have hclose : second.token = .closeSquare →
              (1 < enclosedByPartner stream second ↔ 1 < enclosedByPartner stream' second') := by
            intro hclose
            rw [enclosedByPartner_eq_of_count hcounts.1 (by simp [hclose])
              (by simp [hsecond, hclose])]
          have hafter := padsAfter_eq hprevious (.some (Lexeme.isAlike_of_item hitems.1))
            htoken.symm hopen
          have hbefore := padsBefore_eq (.some (Lexeme.isAlike_of_item hitem))
            (rel_head?_of_items hitems.2) hsecond.symm hclose
          rw [spaceAfter, spaceAfter, isGapped, isGapped, hafter, hbefore]

theorem rowAtoms_eq_of_items {row row' : List Lexeme}
    (hprevious : Option.Rel IsAlike previous previous')
    (hitems : row'.map Lexeme.item = row.map Lexeme.item)
    (hcounts : row'.map (matchedCount stream') = row.map (matchedCount stream))
    (hpads : BracketsPad row) (hpads' : BracketsPad row') :
    rowAtoms stream' previous' row' = rowAtoms stream previous row := by
  induction row generalizing row' previous previous' with
  | nil => rw [List.map_eq_nil_iff.mp hitems]; rfl
  | cons lexeme rest ih =>
      cases row' with
      | nil => exact absurd hitems.symm (List.cons_ne_nil _ _)
      | cons lexeme' rest' =>
          have hspace := spaceAfter_eq_of_items hprevious hitems hcounts hpads hpads'
          rw [List.map_cons, List.map_cons, List.cons.injEq] at hitems hcounts
          rw [rowAtoms_cons, rowAtoms_cons, hspace, Lexeme.atoms_eq_of_item hitems.1,
            ih (.some (Lexeme.isAlike_of_item hitems.1)) hitems.2 hcounts.2 hpads.tail hpads'.tail]

theorem isBraceRow_eq_of_items {row row' : List Lexeme}
    (hitems : row'.map Lexeme.item = row.map Lexeme.item) (brace : Token) :
    isBraceRow brace row' = isBraceRow brace row := by
  have htokens := congrArg (List.map Prod.fst) hitems
  rw [List.map_map, List.map_map] at htokens
  exact congrArg (fun tokens => decide (tokens = [brace])) htokens

/-- Rows are printed alike when their items and the counts of their brackets are the same. -/
theorem printAtoms_eq_of_items {found found' : List (List Lexeme)}
    (hitems : found'.map (List.map Lexeme.item) = found.map (List.map Lexeme.item))
    (hcounts : found'.map (List.map (matchedCount stream')) =
      found.map (List.map (matchedCount stream)))
    (hfound : ∀ row ∈ found, BracketsPad row) (hfound' : ∀ row ∈ found', BracketsPad row)
    (depth : Int) : printAtoms stream' depth found' = printAtoms stream depth found := by
  apply printAtoms_congr
  induction found generalizing found' with
  | nil => rw [List.map_eq_nil_iff.mp hitems]; exact .nil
  | cons row rest ih =>
      cases found' with
      | nil => exact absurd hitems.symm (List.cons_ne_nil _ _)
      | cons row' rest' =>
          rw [List.map_cons, List.map_cons, List.cons.injEq] at hitems hcounts
          obtain ⟨hpads, hrest⟩ := List.forall_mem_cons.mp hfound
          obtain ⟨hpads', hrest'⟩ := List.forall_mem_cons.mp hfound'
          have hatoms := rowAtoms_eq_of_items .none hitems.1 hcounts.1 hpads hpads'
          exact .cons ⟨hatoms, fun brace _ => isBraceRow_eq_of_items hitems.1 brace⟩
            (ih hitems.2 hcounts.2 hrest hrest')

end

/-! ## Main statement -/

/-- Line feeds at either end of a source change nothing in the formatted source. -/
theorem tidy_surround (before after : Nat) (text : List Char) :
    Document.tidy (List.replicate before '\n' ++ (text ++ List.replicate after '\n')) =
      Document.tidy text := by
  obtain ⟨before', after', hstream⟩ := exists_unlinkedStream_surround before after text
  generalize List.replicate before '\n' ++ (text ++ List.replicate after '\n') = source at hstream ⊢
  have hitems : (shownRows source).map (List.map Lexeme.item) =
      (shownRows text).map (List.map Lexeme.item) := by
    rw [shownRows, plainStream_eq, map_item_rows_link fun _ => isFresh_of_mem_unlinkedStream,
      hstream, trimRows_rows_surround, shownRows, plainStream_eq,
      map_item_rows_link fun _ => isFresh_of_mem_unlinkedStream]
  have hcounts : rowCounts (plainStream source) = rowCounts (plainStream text) := by
    rw [plainStream_eq, hstream, rowCounts_link_surround isUnlinked_of_mem_unlinkedStream,
      plainStream_eq]
  have hprinted := printAtoms_eq_of_items hitems hcounts
    (fun row => bracketsPad_of_mem_shownRows) (fun row => bracketsPad_of_mem_shownRows) 0
  rw [tidy_eq_spell, tidy_eq_spell, hprinted]

/-- A formatted source has no blank at either end. -/
theorem not_isBlank_of_tidy {text : List Char} {char : Char}
    (hchar : (Document.tidy text).head? = some char ∨ (Document.tidy text).getLast? = some char) :
    Blank.isBlank char = false := by
  obtain ⟨shown, htrim⟩ : ∃ shown, Document.tidy text = Blank.trim shown := ⟨_, rfl⟩
  rw [htrim] at hchar
  have htight : Blank.IsTight (Blank.trim shown) := by
    apply Blank.isTight_trim
    intro hblank
    rw [Blank.trim_eq_nil_iff.mpr hblank] at hchar
    simp at hchar
  rcases hchar with hhead | hlast
  · simpa [hhead] using htight.1
  · simpa [hlast] using htight.2

end ChuckLayout
