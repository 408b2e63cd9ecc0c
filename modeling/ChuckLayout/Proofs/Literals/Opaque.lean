import ChuckLayout.Proofs.Rereading.Literals

/-!
# Literals are opaque

Two sources that differ in one literal, and have it as a literal of one kind, are read the same
around it.  So they have one outline, and what is written before the literal and after it is the same
in both formatted sources, whatever the literals look like.
-/

namespace ChuckLayout

open List (Forall₂)
open Spacing

/-- Reading finds `text` as a whole literal of this kind between `front` and `back`. -/
def IsLiteralBetween (kind : Literal.Kind) (front text back : List Char) : Prop :=
  ∃ before after, segments .all (front ++ text ++ back) = before ++ .literal kind text :: after ∧
    before.flatMap Segment.text = front

/-! ## Reading around a literal -/

/-- The first segment of a reading, and the reading of what follows it. -/
theorem Reads.uncons {scope : Scope} {text : List Char} {segment : Segment} {found : List Segment}
    (hreads : Reads scope text (segment :: found)) :
    segment.text ≠ [] ∧ ∃ rest, text = segment.text ++ rest ∧
      Reads (scope.after segment) rest found ∧
      ∀ char tail, text = char :: tail → segment = Segment.leading scope char tail := by
  have hleading : ∀ char tail, text = char :: tail → segment = Segment.leading scope char tail := by
    rintro char tail rfl
    have hsegments := hreads.segments_eq
    rw [segments_cons] at hsegments
    exact (List.cons.inj hsegments).1.symm
  generalize hall : segment :: found = all at hreads
  cases hreads with
  | done => exact absurd hall (List.cons_ne_nil _ _)
  | code hopening hrest =>
      obtain ⟨rfl, rfl⟩ := List.cons.inj hall
      exact ⟨List.cons_ne_nil _ _, _, rfl, hrest, hleading⟩
  | literal hopening hliteral hrest =>
      obtain ⟨rfl, rfl⟩ := List.cons.inj hall
      exact ⟨List.cons_ne_nil _ _, _, rfl, hrest, hleading⟩
  | unclosed hopening hliteral hrest =>
      obtain ⟨rfl, rfl⟩ := List.cons.inj hall
      exact ⟨List.cons_ne_nil _ _, _, rfl, hrest, hleading⟩

def Literal.Kind.mark : Literal.Kind → Char
  | .string => '\"'
  | .blockComment | .lineComment => '/'

theorem Scope.eq_mark_of_opening? {scope : Scope} {kind : Literal.Kind} {char : Char}
    {next : Option Char} (hopening : scope.opening? char next = some kind) : char = kind.mark := by
  cases kind with
  | string => exact (opening?_eq_string_iff.mp hopening).1
  | blockComment => exact (opening?_eq_blockComment_iff.mp hopening).1
  | lineComment => exact (opening?_eq_lineComment_iff.mp hopening).1

/-- A literal that has been read begins as its kind does. -/
theorem Reads.head?_literal {scope : Scope} {kind : Literal.Kind} {text literal : List Char}
    {found : List Segment} (hreads : Reads scope text found)
    (hmem : .literal kind literal ∈ found) : literal.head? = some kind.mark := by
  induction hreads with
  | done => exact absurd hmem List.not_mem_nil
  | code _ _ ih => exact ih (by simpa using hmem)
  | unclosed _ _ _ ih => exact ih (by simpa using hmem)
  | literal hopening _ _ ih =>
      rcases List.mem_cons.mp hmem with heq | hmem
      · obtain ⟨rfl, rfl⟩ := Segment.literal.inj heq
        rw [List.head?_cons, Scope.eq_mark_of_opening? hopening]
      · exact ih hmem

namespace Segment

/-- A literal that ends before `first` ends there whatever stands in its place, for it is no line
comment that `first` would go on with. -/
theorem literalAt?_of_head? {kind : Literal.Kind} {front literal first second : List Char}
    {head : Char} (hfirst : first.head? = some head) (hhead : head ≠ '\n')
    (hfront : literal <+: front) (hliteral : literalAt? (front ++ first) kind = some literal) :
    literalAt? (front ++ second) kind = some literal := by
  obtain ⟨rest, rfl⟩ := hfront
  rw [List.append_assoc] at hliteral ⊢
  cases kind with
  | string => exact literalAt?_append (by decide) hliteral _
  | blockComment => exact literalAt?_append (by decide) hliteral _
  | lineComment =>
      rw [literalAt?_lineComment_iff] at hliteral ⊢
      refine ⟨hliteral.1, ?_⟩
      cases rest with
      | cons char rest => exact hliteral.2
      | nil =>
          have hend := hliteral.2
          rw [List.nil_append, hfirst, Option.all_some, decide_eq_true_eq] at hend
          exact absurd hend hhead

/-- An opener starts a literal, or is left as unclosed where the literal has no end. -/
theorem leading_of_opening? {scope : Scope} {kind : Literal.Kind} {char : Char} {rest : List Char}
    (hopening : scope.opening? char rest.head? = some kind) :
    leading scope char rest =
      ((literalAt? (char :: rest) kind).map (literal kind)).getD (unclosed kind char) := by
  unfold leading
  rw [hopening]
  cases hliteral : literalAt? (char :: rest) kind <;> simp [hliteral]

/-- The first segment is the same before either literal, if it ends before both. -/
theorem leading_eq_of_same_head {scope : Scope} {char : Char} {rest first second : List Char}
    {head : Char} (hfirst : first.head? = some head) (hsecond : second.head? = some head)
    (hhead : head ≠ '\n')
    (hends : (leading scope char (rest ++ first)).text <+: char :: rest)
    (hends' : (leading scope char (rest ++ second)).text <+: char :: rest) :
    leading scope char (rest ++ first) = leading scope char (rest ++ second) := by
  have hnext : (rest ++ first).head? = (rest ++ second).head? := by
    rw [List.head?_append, List.head?_append, hfirst, hsecond]
  cases hopening : scope.opening? char (rest ++ second).head? with
  | none => rw [leading, leading, hnext, hopening]
  | some kind =>
      have hopening' : scope.opening? char (rest ++ first).head? = some kind := by
        rw [hnext, hopening]
      rw [leading_of_opening? hopening'] at hends ⊢
      rw [leading_of_opening? hopening] at hends' ⊢
      suffices hliteral : literalAt? (char :: rest ++ first) kind =
          literalAt? (char :: rest ++ second) kind by
        rw [← List.cons_append, ← List.cons_append, hliteral]
      apply Option.ext
      intro literal
      constructor <;> intro hliteral
      · rw [← List.cons_append, hliteral] at hends
        exact literalAt?_of_head? hfirst hhead hends hliteral
      · rw [← List.cons_append, hliteral] at hends'
        exact literalAt?_of_head? hsecond hhead hends' hliteral

end Segment

/-- The first segment of two readings that differ from some place on is the same, if it ends before
that place in both. -/
theorem Reads.segment_eq {scope : Scope} {front first second : List Char} {head : Char}
    {segment segment' : Segment} {found found' : List Segment}
    (hreads : Reads scope (front ++ first) (segment :: found))
    (hreads' : Reads scope (front ++ second) (segment' :: found'))
    (hfirst : first.head? = some head) (hsecond : second.head? = some head) (hhead : head ≠ '\n')
    (hends : segment.text <+: front) (hends' : segment'.text <+: front) : segment = segment' := by
  obtain ⟨hne, _, -, -, hleading⟩ := hreads.uncons
  obtain ⟨-, _, -, -, hleading'⟩ := hreads'.uncons
  obtain ⟨char, tail, rfl⟩ : ∃ char tail, front = char :: tail := by
    apply List.exists_cons_of_ne_nil
    rintro rfl
    exact hne (List.prefix_nil.mp hends)
  have hsegment := hleading char (tail ++ first) rfl
  have hsegment' := hleading' char (tail ++ second) rfl
  rw [hsegment] at hends
  rw [hsegment'] at hends'
  calc segment
      = Segment.leading scope char (tail ++ first) := hsegment
    _ = Segment.leading scope char (tail ++ second) :=
        Segment.leading_eq_of_same_head hfirst hsecond hhead hends hends'
    _ = segment' := hsegment'.symm

theorem Reads.tail {scope : Scope} {segment : Segment} {rest : List Char} {found : List Segment}
    (hreads : Reads scope (segment.text ++ rest) (segment :: found)) :
    Reads (scope.after segment) rest found := by
  obtain ⟨-, later, htext, hlater, -⟩ := hreads.uncons
  rwa [List.append_cancel_left htext]

/-- Two readings that come upon a literal at the same place have found the same before it and find
the same after it. -/
theorem Reads.around_literal {kind : Literal.Kind} {scope : Scope} {front first second back : List Char}
    {before before' after after' : List Segment}
    (hfirst : Reads scope (front ++ (first ++ back)) (before ++ .literal kind first :: after))
    (hbefore : before.flatMap Segment.text = front)
    (hsecond : Reads scope (front ++ (second ++ back)) (before' ++ .literal kind second :: after'))
    (hbefore' : before'.flatMap Segment.text = front) :
    before = before' ∧ after = after' := by
  have hhead : kind.mark ≠ '\n' := by cases kind <;> decide
  have hfirstHead : (first ++ back).head? = some kind.mark := by
    rw [List.head?_append, hfirst.head?_literal (List.mem_append_right _ List.mem_cons_self)]
    rfl
  have hsecondHead : (second ++ back).head? = some kind.mark := by
    rw [List.head?_append, hsecond.head?_literal (List.mem_append_right _ List.mem_cons_self)]
    rfl
  induction before generalizing scope front before' with
  | nil =>
      obtain rfl : front = [] := hbefore.symm
      cases before' with
      | cons segment rest =>
          rw [List.flatMap_cons, List.append_eq_nil_iff] at hbefore'
          exact absurd hbefore'.1 hsecond.uncons.1
      | nil =>
          have hafter : Reads (scope.after (.literal kind first)) back after := hfirst.tail
          have hafter' : Reads (scope.after (.literal kind second)) back after' := hsecond.tail
          exact ⟨rfl, hafter.segments_eq.symm.trans hafter'.segments_eq⟩
  | cons segment rest ih =>
      cases before' with
      | nil =>
          obtain rfl : front = [] := hbefore'.symm
          rw [List.flatMap_cons, List.append_eq_nil_iff] at hbefore
          exact absurd hbefore.1 hfirst.uncons.1
      | cons segment' rest' =>
          rw [List.flatMap_cons] at hbefore hbefore'
          obtain rfl : segment = segment' :=
            hfirst.segment_eq hsecond hfirstHead hsecondHead hhead
              (hbefore ▸ List.prefix_append _ _) (hbefore' ▸ List.prefix_append _ _)
          have hrest := List.append_cancel_left (hbefore.trans hbefore'.symm)
          rw [← hbefore, List.append_assoc] at hfirst hsecond
          obtain ⟨rfl, rfl⟩ := ih hfirst.tail rfl hsecond.tail hrest.symm
          exact ⟨rfl, rfl⟩

/-! ## One outline -/

theorem forall₂_matches_self {related : List Char → List Char → Prop}
    (hrelated : ∀ text, related text text) (found : List Atom) :
    Forall₂ (Atom.Matches related) found found := by
  rw [List.forall₂_same]
  intro atom _
  cases atom with
  | char char => exact .char char
  | literal text => exact .literal (hrelated text)

/-- Matching atoms whose literals are told apart in one place are told apart in one place. -/
theorem exists_split_of_literalTexts {related : List Char → List Char → Prop}
    {found others : List Atom} (hmatches : Forall₂ (Atom.Matches related) found others)
    {before after : List (List Char)} {first second : List Char}
    (hfirst : literalTexts found = before ++ first :: after)
    (hsecond : literalTexts others = before ++ second :: after) :
    ∃ front back, found = front ++ .literal first :: back ∧
      others = front ++ .literal second :: back := by
  -- Past the place in question all literals are the same, so the atoms are.
  have hequal : ∀ {found others : List Atom}, Forall₂ (Atom.Matches related) found others →
      literalTexts found = literalTexts others → found = others := by
    intro found others hmatches hsame
    induction hmatches with
    | nil => rfl
    | cons hatom _ ih =>
        cases hatom with
        | char char => rw [ih hsame]
        | literal _ =>
            rw [literalTexts_cons, literalTexts_cons, List.cons.injEq] at hsame
            rw [hsame.1, ih hsame.2]
  induction hmatches generalizing before with
  | nil => exact absurd hfirst.symm (by simp [literalTexts])
  | cons hatom hrest ih =>
      cases hatom with
      | char char =>
          obtain ⟨front, back, rfl, rfl⟩ := ih hfirst hsecond
          exact ⟨.char char :: front, back, rfl, rfl⟩
      | literal _ =>
          rw [literalTexts_cons] at hfirst hsecond
          cases before with
          | nil =>
              obtain ⟨rfl, hlater⟩ := List.cons.inj hfirst
              obtain ⟨rfl, hlater'⟩ := List.cons.inj hsecond
              exact ⟨[], _, rfl, by rw [hequal hrest (hlater.trans hlater'.symm)]; rfl⟩
          | cons other before =>
              obtain ⟨rfl, hlater⟩ := List.cons.inj hfirst
              obtain ⟨rfl, hlater'⟩ := List.cons.inj hsecond
              obtain ⟨front, back, rfl, rfl⟩ := ih hlater hlater'
              exact ⟨.literal _ :: front, back, rfl, rfl⟩

/-- Sources that are lexed alike are printed the same, but for their literals. -/
theorem printAtoms_forall₂_of_lexAtoms {related : List Char → List Char → Prop}
    {items : Token × List Char → Token × List Char → Prop} (hkeeps : KeepsSpacing items)
    (hshow : ∀ first second : Lexeme, items first.item second.item →
      Forall₂ (Atom.Matches related) first.atoms second.atoms)
    {source other : List Char}
    (hlexed : Forall₂ (Lexeme.Corresponds items) (lexAtoms [] (atoms source))
      (lexAtoms [] (atoms other))) :
    Forall₂ (Atom.Matches related) (printAtoms (plainStream source) 0 (shownRows source))
      (printAtoms (plainStream other) 0 (shownRows other)) := by
  have hstreams := applyAll_corresponds hkeeps.shape_eq hlexed
  refine printAtoms_forall₂ hkeeps hshow hstreams (trimRows_forall₂ ?_) 0
  exact rows_forall₂ (fun first second hsame => hkeeps.shape_eq first second hsame.item) hstreams

/-- Sources that differ in their literals alone are laid out alike but for these. -/
theorem printAtoms_forall₂_of_atoms {related : List Char → List Char → Prop}
    {source other : List Char} (hatoms : Forall₂ (Atom.Matches related) (atoms source) (atoms other)) :
    Forall₂ (Atom.Matches related) (printAtoms (plainStream source) 0 (shownRows source))
      (printAtoms (plainStream other) 0 (shownRows other)) := by
  exact printAtoms_forall₂_of_lexAtoms SameBut.keepsSpacing forall₂_atoms (lexAtoms_forall₂ hatoms [])

/-! ## Noninterference -/

/-- What is written around a literal does not depend on what it holds. -/
theorem tidy_around_literal {kind : Literal.Kind} {front back first second : List Char}
    (hfirst : IsLiteralBetween kind front first back)
    (hsecond : IsLiteralBetween kind front second back)
    (htrimmed : kind = .lineComment → Blank.trimEnd first = first ∧ Blank.trimEnd second = second) :
    ∃ before after, Document.tidy (front ++ first ++ back) = before ++ first ++ after ∧
      Document.tidy (front ++ second ++ back) = before ++ second ++ after := by
  obtain ⟨before, after, hfound, hfront⟩ := hfirst
  obtain ⟨before', after', hfound', hfront'⟩ := hsecond
  have hreads := reads_iff.mpr hfound
  have hreads' := reads_iff.mpr hfound'
  rw [List.append_assoc] at hreads hreads'
  obtain ⟨rfl, rfl⟩ := hreads.around_literal hfront hreads' hfront'
  have htrim : ∀ text, (kind = .lineComment → Blank.trimEnd text = text) →
      kind.trimmed text = text := by
    intro text htext
    rw [Literal.Kind.trimmed]
    split
    · exact htext ‹_›
    · rfl
  have hatoms : atoms (front ++ first ++ back) =
      before.map Segment.atom ++ .literal first :: after.map Segment.atom := by
    rw [atoms, hfound, List.map_append, List.map_cons, atom_literal,
      htrim first fun h => (htrimmed h).1]
  have hatoms' : atoms (front ++ second ++ back) =
      before.map Segment.atom ++ .literal second :: after.map Segment.atom := by
    rw [atoms, hfound', List.map_append, List.map_cons, atom_literal,
      htrim second fun h => (htrimmed h).2]
  have hmatches : Forall₂ (Atom.Matches fun _ _ => True) (atoms (front ++ first ++ back))
      (atoms (front ++ second ++ back)) := by
    rw [hatoms, hatoms']
    exact List.rel_append (forall₂_matches_self (fun _ => trivial) _)
      (.cons (.literal trivial) (forall₂_matches_self (fun _ => trivial) _))
  have htexts := literalTexts_shownRows (front ++ first ++ back)
  have htexts' := literalTexts_shownRows (front ++ second ++ back)
  rw [hatoms, literalTexts_append, literalTexts_cons] at htexts
  rw [hatoms', literalTexts_append, literalTexts_cons] at htexts'
  obtain ⟨lead, trail, hprint, hprint'⟩ :=
    exists_split_of_literalTexts (printAtoms_forall₂_of_atoms hmatches) htexts htexts'
  refine ⟨spell lead, spell trail, ?_, ?_⟩
  · rw [tidy_eq_spell, hprint, spell_append, List.append_assoc]
    rfl
  · rw [tidy_eq_spell, hprint', spell_append, List.append_assoc]
    rfl

/-- Whatever a line holds after `//` is one comment. -/
theorem isLiteralBetween_lineComment (text : List Char) (hfeed : '\n' ∉ text) :
    IsLiteralBetween .lineComment "x ".toList ("//".toList ++ text) "\ny".toList := by
  have hcode : Reads .all "\ny".toList [.code '\n', .code 'y'] :=
    .code rfl (.code rfl (.done .all))
  have hcomment : Reads .all ('/' :: '/' :: text ++ "\ny".toList)
      [.literal .lineComment ('/' :: '/' :: text), .code '\n', .code 'y'] := by
    refine .literal rfl (Segment.literalAt?_lineComment_iff.mpr ⟨?_, rfl⟩) hcode
    simpa using hfeed
  have hreads : Reads .all ("x ".toList ++ "//".toList ++ text ++ "\ny".toList) _ :=
    .code rfl (.code rfl hcomment)
  refine ⟨[.code 'x', .code ' '], [.code '\n', .code 'y'], ?_, rfl⟩
  rw [← List.append_assoc]
  exact hreads.segments_eq

/-- The second comment looks like a placeholder, a quote and a brace, and is laid out as the first. -/
theorem tidy_around_lineComment_of_placeholder :
    let front := "x ".toList
    let first := "//a".toList
    let second := "//STRING_LITERAL_1 \"\x7b".toList
    let back := "\ny".toList
    (IsLiteralBetween .lineComment front first back ∧
      IsLiteralBetween .lineComment front second back ∧
      Blank.trimEnd first = first ∧ Blank.trimEnd second = second) ∧
        ∃ before after, Document.tidy (front ++ first ++ back) = before ++ first ++ after ∧
          Document.tidy (front ++ second ++ back) = before ++ second ++ after := by
  intro front first second back
  have hfirst : IsLiteralBetween .lineComment front first back :=
    isLiteralBetween_lineComment "a".toList (by decide)
  have hsecond : IsLiteralBetween .lineComment front second back :=
    isLiteralBetween_lineComment "STRING_LITERAL_1 \"\x7b".toList (by decide)
  have htrimmed : Blank.trimEnd first = first ∧ Blank.trimEnd second = second :=
    ⟨by decide, by decide⟩
  exact ⟨⟨hfirst, hsecond, htrimmed⟩, tidy_around_literal hfirst hsecond fun _ => htrimmed⟩

end ChuckLayout
