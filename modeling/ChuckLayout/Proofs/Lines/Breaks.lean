import ChuckLayout.Proofs.Layout.Places
import ChuckLayout.Proofs.Literals.Catalogue

/-!
# Line breaks that stay

Next to a brace the line is broken once, whatever the source has there, and elsewhere as often as in
the source.  Main statement: how many line breaks the layout has between two lexemes of the source
that have only line breaks between them.
-/

namespace ChuckLayout

open Blank (AllBlank IsTight solid)
open BraceBreaks (braceAhead braceAhead_append_of_breaks exists_keptFrom_append_cons keptFrom
  keptFrom_lineBreak keptFrom_other)
open Spacing

namespace Spacing

/-- How often the line is broken between two lexemes that `count` line breaks of the source stand
between. -/
def breaksBetween (first second : Token) (count : Nat) : Nat :=
  if first.isBrace && second.isBrace then if first = second then 1 else 2
  else if first.isBrace || second.isBrace then 1
  else count

/-- Away from braces the line is broken as often as it is in the source. -/
theorem breaksAlong_of_newline (previous : Option Token) {breaks : List Token}
    (hbreaks : ∀ token ∈ breaks, token = .newline) {last : Token} (hlast : last.isBrace = false) :
    breaksAlong previous breaks last = breaks.length := by
  induction breaks generalizing previous with
  | nil => simp [breaksAlong, breaksBefore, hlast]
  | cons token rest ih =>
      obtain ⟨rfl, hrest⟩ := List.forall_mem_cons.mp hbreaks
      rw [breaksAlong, ih _ hrest, List.length_cons]
      simp [breaksBefore, breaksAfter, endsRow, Token.isBrace]
      omega

/-- The line breaks that are kept between two lexemes break the line as often as they should. -/
theorem breaksAlong_kept {breaks : List Token} (hbreaks : ∀ token ∈ breaks, token = .newline)
    {first second : Token} (hfirst : first ≠ .newline) :
    breaksAfter first + breaksAlong (some first)
        (if first.isBrace || second.isBrace then [] else breaks) second =
      breaksBetween first second breaks.length := by
  have hafter : breaksAfter first = if first.isBrace then 1 else 0 := by
    simp [breaksAfter, endsRow, hfirst]
  rw [hafter, breaksBetween]
  cases hfirstBrace : first.isBrace <;> cases hsecondBrace : second.isBrace
  · simp [breaksAlong_of_newline _ hbreaks hsecondBrace]
  · have hne : first ≠ second := by
      rintro rfl
      rw [hfirstBrace] at hsecondBrace
      exact Bool.noConfusion hsecondBrace
    simp [breaksAlong, breaksBefore, hsecondBrace, hne]
  · simp [breaksAlong, breaksBefore, hsecondBrace]
  · by_cases hsame : first = second <;> simp [breaksAlong, breaksBefore, hsecondBrace, hsame]

end Spacing

/-! ## Line breaks between two lexemes of a stream -/

/-- A run of line breaks is kept whole, or not at all when a brace stands at one end. -/
theorem keptFrom_append_cons {breaks : List Lexeme}
    (hbreaks : ∀ lexeme ∈ breaks, lexeme.token = .newline ∧ lexeme.dropped = false) {lexeme : Lexeme}
    (hdropped : lexeme.dropped = false) (hlexeme : lexeme.token ≠ .newline) (afterBrace : Bool)
    (back : List Lexeme) :
    keptFrom afterBrace (breaks ++ lexeme :: back) =
      (if afterBrace || lexeme.token.isBrace then [] else breaks) ++
        lexeme :: keptFrom lexeme.token.isBrace back := by
  have hahead : braceAhead (breaks ++ lexeme :: back) = lexeme.token.isBrace := by
    rw [braceAhead_append_of_breaks fun lexeme hmem => (hbreaks lexeme hmem).1, braceAhead,
      if_neg hlexeme]
  induction breaks with
  | nil =>
      rw [ite_self]
      exact keptFrom_other hlexeme hdropped afterBrace
  | cons first rest ih =>
      obtain ⟨⟨htoken, hfirst⟩, hrest⟩ := List.forall_mem_cons.mp hbreaks
      rw [List.cons_append, braceAhead, if_pos htoken] at hahead
      rw [List.cons_append, keptFrom_lineBreak htoken hfirst, hahead, ih hrest hahead]
      split <;> rfl

/-- What stands between two lexemes after the passes, when only line breaks stand between them
before. -/
theorem exists_applyAll {before breaks after : List Lexeme} {first second : Lexeme}
    (hdropped : ∀ lexeme ∈ before ++ first :: (breaks ++ second :: after), lexeme.dropped = false)
    (hfirst : first.token ≠ .newline) (hsecond : second.token ≠ .newline)
    (hbreaks : ∀ lexeme ∈ breaks, lexeme.token = .newline) :
    ∃ before' first' breaks' second' after',
      Pass.applyAll (before ++ first :: (breaks ++ second :: after)) =
        before' ++ first' :: (breaks' ++ second' :: after') ∧
      solidCores before' = solidCores before ∧
      first'.item = first.item ∧ second'.item = second.item ∧
      breaks'.map Lexeme.token =
        if first.token.isBrace || second.token.isBrace then [] else breaks.map Lexeme.token := by
  have hall : (∀ lexeme ∈ before, lexeme.dropped = false) ∧ first.dropped = false ∧
      (∀ lexeme ∈ breaks, lexeme.dropped = false) ∧ second.dropped = false := by
    simp only [List.forall_mem_append, List.forall_mem_cons] at hdropped
    exact ⟨hdropped.1, hdropped.2.1, hdropped.2.2.1, hdropped.2.2.2.1⟩
  obtain ⟨hbefore, hfirstDropped, hbreaksDropped, hsecondDropped⟩ := hall
  obtain ⟨kept, hkept, hfilter⟩ := exists_keptFrom_append_cons hbefore hfirstDropped hfirst false
    (breaks ++ second :: after)
  rw [keptFrom_append_cons (fun lexeme h => ⟨hbreaks lexeme h, hbreaksDropped lexeme h⟩)
    hsecondDropped hsecond] at hkept
  have hitems := map_item_applyAll (before ++ first :: (breaks ++ second :: after))
  rw [hkept, List.map_append, List.map_cons, List.map_append, List.map_cons] at hitems
  obtain ⟨before', rest, hstream, hbefore', hrest⟩ := List.map_eq_append_iff.mp hitems
  obtain ⟨first', rest, rfl, hfirst', hrest⟩ := List.map_eq_cons_iff.mp hrest
  obtain ⟨breaks', rest, rfl, hbreaks', hrest⟩ := List.map_eq_append_iff.mp hrest
  obtain ⟨second', after', rfl, hsecond', -⟩ := List.map_eq_cons_iff.mp hrest
  refine ⟨before', first', breaks', second', after', hstream, ?_, hfirst', hsecond', ?_⟩
  · rw [← solidCores_filter before, ← hfilter, solidCores_filter]
    exact solidCores_of_map_item hbefore'
  · have htokens := congrArg (List.map Prod.fst) hbreaks'
    rw [List.map_map, List.map_map] at htokens
    refine htokens.trans ?_
    split <;> rfl

/-- What the layout has between two lexemes of a stream with only line breaks between them. -/
theorem exists_gap_between {stream before between after : List Lexeme} {first second : Lexeme}
    (hneat : ∀ lexeme ∈ stream, lexeme.token ≠ .newline → lexeme.IsNeat)
    (hstream : stream = before ++ first :: (between ++ second :: after))
    (hfirst : first.token ≠ .newline) (hsecond : second.token ≠ .newline)
    (hbetween : ∀ lexeme ∈ between, lexeme.token = .newline) :
    ∃ front gap back,
      Document.layOut stream = front ++ first.core ++ gap ++ second.core ++ back ∧
      solid front = solidCores before ∧ AllBlank gap ∧
      gap.count '\n' = breaksAfter first.token +
        breaksAlong (some first.token) (between.map Lexeme.token) second.token := by
  have hfirstNeat := hneat first (by simp [hstream]) hfirst
  obtain ⟨front, back, htext, hfront, hcount⟩ := exists_place hneat hstream hfirst
  rw [← List.cons_append, ← List.append_assoc] at hstream
  obtain ⟨front', back', htext', hfront', hcount'⟩ := exists_place hneat hstream hsecond
  have hsolid : solid (front ++ first.core) = solid front' := by
    have hnone : solidCores between = [] := by
      rw [← solidCores_filter, List.filter_eq_nil_iff.mpr fun lexeme h => by simp [hbetween lexeme h]]
      rfl
    rw [hfront', Blank.solid_append, hfront, solidCores_append, ← List.singleton_append,
      solidCores_append, hnone, List.append_nil]
    simp [solidCores]
  have hlast : (front ++ first.core).getLast?.any fun char => !Blank.isBlank char := by
    rw [List.getLast?_append_of_ne_nil _ hfirstNeat.isTight_core.ne_nil]
    exact hfirstNeat.isTight_core.2
  rw [List.append_assoc] at htext'
  obtain ⟨gap, rfl, hgap⟩ := Blank.exists_gap (htext.symm.trans htext') hlast hsolid
  refine ⟨front, gap, back', htext'.trans (List.append_assoc _ _ _).symm, hfront, hgap, ?_⟩
  have hcore := List.count_eq_zero.mpr (lineFeed_not_mem_core hfirstNeat)
  rw [List.count_append, List.count_append, hcount, hcore, List.map_append, List.map_cons,
    breaksAlong_append_cons] at hcount'
  omega

/-- Between two lexemes of the source with only line breaks between them, the layout has as many line
breaks as the source when neither is a brace.  A brace next to other text, or to a brace of its kind,
has one, and unlike braces have two. -/
theorem breaks_between {source : List Char} {before breaks after : List Lexeme}
    {first second : Lexeme}
    (hlexed : (Document.lex source).lexemes = before ++ first :: (breaks ++ second :: after))
    (hfirst : first.token ≠ .newline) (hsecond : second.token ≠ .newline)
    (hbreaks : ∀ lexeme ∈ breaks, lexeme.token = .newline) :
    ∃ front gap back,
      Document.layOut (Document.stream source) =
        front ++ first.core ++ gap ++ second.core ++ back ∧
      solid front = solidCores before ∧ AllBlank gap ∧
      gap.count '\n' = breaksBetween first.token second.token breaks.length := by
  have hneat : ∀ lexeme ∈ Document.stream source, lexeme.token ≠ .newline → lexeme.IsNeat :=
    fun _ hlexeme => (isHidden_of_mem_stream hlexeme).isNeat (isNumbered_lex source)
  have hdropped : ∀ lexeme ∈ (Document.lex source).lexemes, lexeme.dropped = false :=
    dropped_of_mem_lex
  rw [hlexed] at hdropped
  obtain ⟨before', first', breaks', second', after', hstream, hcores, hfirst', hsecond', hkept⟩ :=
    exists_applyAll hdropped hfirst hsecond hbreaks
  rw [← hlexed, ← Document.stream] at hstream
  obtain ⟨hfirstToken, -⟩ := Prod.mk.inj hfirst'
  obtain ⟨hsecondToken, -⟩ := Prod.mk.inj hsecond'
  have htokens : ∀ token ∈ breaks.map Lexeme.token, token = .newline := by
    simpa using hbreaks
  have hbreaks' : ∀ lexeme ∈ breaks', lexeme.token = .newline := by
    intro lexeme hlexeme
    have hmem := List.mem_map_of_mem (f := Lexeme.token) hlexeme
    rw [hkept] at hmem
    split at hmem
    · exact absurd hmem List.not_mem_nil
    · exact htokens _ hmem
  obtain ⟨front, gap, back, htext, hfront, hgap, hcount⟩ := exists_gap_between hneat hstream
    (hfirstToken ▸ hfirst) (hsecondToken ▸ hsecond) hbreaks'
  refine ⟨front, gap, back, ?_, hfront.trans hcores, hgap, ?_⟩
  · rw [htext, Lexeme.core_eq_of_item hfirst', Lexeme.core_eq_of_item hsecond']
  · rw [hcount, hkept, hfirstToken, hsecondToken, breaksAlong_kept htokens hfirst, List.length_map]

/-- The blank lines that the source has before the closing brace are left out, and the line is broken
before it and after it. -/
theorem breaks_between_unlike_braces :
    let source := "a\x7b\n\n\n\x7db".toList
    let first : Lexeme := { token := .openBrace, text := "\x7b".toList }
    let second : Lexeme := { token := .closeBrace, text := "\x7d".toList }
    let before : List Lexeme := [{ token := .text, text := "a".toList }]
    let after : List Lexeme := [{ token := .text, text := "b".toList }, .lineBreak]
    let breaks : List Lexeme := [.lineBreak, .lineBreak, .lineBreak]
    (Document.lex source).lexemes = before ++ first :: (breaks ++ second :: after) ∧
      first.token ≠ .newline ∧ second.token ≠ .newline ∧
      (∀ lexeme ∈ breaks, lexeme.token = .newline) ∧
      ∃ front gap back,
        Document.layOut (Document.stream source) =
          front ++ first.core ++ gap ++ second.core ++ back ∧
        solid front = solidCores before ∧ AllBlank gap ∧ gap.count '\n' = 2 := by
  intro source first second before after breaks
  have hlexed : (Document.lex source).lexemes = before ++ first :: (breaks ++ second :: after) := by
    decide +kernel
  have hbreaks : ∀ lexeme ∈ breaks, lexeme.token = .newline := by decide
  exact ⟨hlexed, Token.noConfusion, Token.noConfusion, hbreaks,
    breaks_between hlexed Token.noConfusion Token.noConfusion hbreaks⟩

end ChuckLayout
