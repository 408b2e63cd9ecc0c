import ChuckLayout.Proofs.Stability.Brackets
import ChuckLayout.Proofs.Text.Words

/-!
# Spaces that come back

A sign is read back as another token when a space follows it, for it swallows the space.  Read back,
a row calls for the same spaces all the same, unless a sign that comes right after an opening
parenthesis has swallowed a blank before, or would do so now.
-/

namespace ChuckLayout

open Lexeme (IsAlike)
open Spacing

/-- A sign right after an opening parenthesis is a bare one, with raw text after it. -/
def Settles (opener sign : Lexeme) (next : Option Lexeme) : Prop :=
  opener.token = .openParen → sign.token.isSign →
    (sign.token = .plus ∨ sign.token = .minus) ∧ next.any (·.token == .text)

instance (opener sign : Lexeme) (next : Option Lexeme) : Decidable (Settles opener sign next) :=
  inferInstanceAs (Decidable (opener.token = .openParen → sign.token.isSign →
    (sign.token = .plus ∨ sign.token = .minus) ∧ next.any (·.token == .text)))

/-- Every sign right after an opening parenthesis is a bare one, with raw text after it. -/
def SignsSettle : List Lexeme → Prop
  | opener :: sign :: rest => Settles opener sign rest.head? ∧ SignsSettle (sign :: rest)
  | _ => True

instance decidableSignsSettle : (lexemes : List Lexeme) → Decidable (SignsSettle lexemes)
  | [] | [_] => isTrue trivial
  | opener :: sign :: rest =>
      have := decidableSignsSettle (sign :: rest)
      inferInstanceAs (Decidable (Settles opener sign rest.head? ∧ SignsSettle (sign :: rest)))

/-- An opening bracket that has no partner, and more after it in its row, is set off from that. -/
def BracketsPad (row : List Lexeme) : Prop :=
  row.IsChain fun first _ => first.token = .openSquare → first.partner = none →
    1 < first.enclosedCount

theorem SignsSettle.of_append {front back : List Lexeme} (hsigns : SignsSettle (front ++ back)) :
    SignsSettle back := by
  induction front with
  | nil => exact hsigns
  | cons lexeme front ih =>
      apply ih
      rw [List.cons_append] at hsigns
      cases hrest : front ++ back with
      | nil => trivial
      | cons next rest =>
          rw [hrest] at hsigns
          exact hsigns.2

/-! ## Lexemes that are read back -/

/-- The other lexeme is this one as it is read back, between the same brackets. -/
structure Lexeme.IsReread (stream stream' : List Lexeme) (gapped : Bool) (lexeme lexeme' : Lexeme) :
    Prop where
  item : lexeme'.item = (lexeme.settled gapped).item
  count : matchedCount stream' lexeme' = matchedCount stream lexeme

/-- The other row is this one as it is read back, after `previous` in its line. -/
inductive RowIsReread (stream stream' : List Lexeme) :
    Option Lexeme → List Lexeme → List Lexeme → Prop where
  | nil {previous : Option Lexeme} : RowIsReread stream stream' previous [] []
  | cons {previous : Option Lexeme} {lexeme lexeme' : Lexeme} {rest rest' : List Lexeme}
      (hhead : lexeme.IsReread stream stream' (spaceAfter stream previous lexeme rest) lexeme')
      (hrest : RowIsReread stream stream' (some lexeme) rest rest') :
      RowIsReread stream stream' previous (lexeme :: rest) (lexeme' :: rest')

/-- A row is read back when its items and the counts of its brackets are. -/
theorem rowIsReread_of_map_eq {stream stream' : List Lexeme} {previous : Option Lexeme}
    {row row' : List Lexeme}
    (hitems : row'.map Lexeme.item = (relexed stream previous row).map Lexeme.item)
    (hcounts : row'.map (matchedCount stream') = row.map (matchedCount stream)) :
    RowIsReread stream stream' previous row row' := by
  induction row generalizing previous row' with
  | nil =>
      rw [List.map_eq_nil_iff.mp hcounts]
      exact .nil
  | cons lexeme rest ih =>
      cases row' with
      | nil => exact absurd hcounts.symm (List.cons_ne_nil _ _)
      | cons lexeme' rest' =>
          rw [relexed, List.map_cons, List.map_cons, List.cons.injEq] at hitems
          rw [List.map_cons, List.map_cons, List.cons.injEq] at hcounts
          exact .cons ⟨hitems.1, hcounts.1⟩ (ih hitems.2 hcounts.2)

namespace Token

theorem spelling_settled (token : Token) (gapped : Bool) :
    (token.settled gapped).spelling = token.spelling := by
  cases token <;> cases gapped <;> rfl

theorem isSign_settled (token : Token) (gapped : Bool) :
    (token.settled gapped).isSign = token.isSign := by
  cases token <;> cases gapped <;> rfl

theorem settled_eq_iff {token other : Token} (hother : other.isSign = false) (gapped : Bool) :
    token.settled gapped = other ↔ token = other := by
  cases hsign : token.isSign with
  | false => rw [settled_of_not_isSign hsign]
  | true =>
      constructor <;> rintro rfl
      · rw [isSign_settled, hsign] at hother
        exact Bool.noConfusion hother
      · rw [hsign] at hother
        exact Bool.noConfusion hother

/-- A sign that has swallowed a blank is written with a space on either side. -/
theorem pads_of_spaced {lexeme : Lexeme}
    (hspaced : lexeme.token = .plusSpaced ∨ lexeme.token = .minusSpaced) (stream : List Lexeme)
    (previous next : Option Lexeme) :
    padsBefore stream previous lexeme next ∧ padsAfter previous lexeme next := by
  rw [padsBefore, padsAfter]
  rcases hspaced with htoken | htoken <;> rw [htoken] <;> exact ⟨rfl, rfl⟩

/-- A bare sign is written tight against raw text. -/
theorem not_isGapped_of_text {lexeme second : Lexeme}
    (hbare : lexeme.token = .plus ∨ lexeme.token = .minus) (htext : second.token = .text)
    (stream : List Lexeme) (previous next : Option Lexeme) :
    isGapped stream previous lexeme second next = false := by
  have hafter : padsAfter previous lexeme (some second) = false := by
    have hentry : second.token.isTableEntry = false := by
      rw [htext]
      rfl
    rw [padsAfter]
    rcases hbare with htoken | htoken <;> rw [htoken, Option.any_some, hentry] <;>
      exact Bool.and_false _
  have hbefore : padsBefore stream (some lexeme) second next = false := by
    rw [padsBefore, htext]
    rfl
  rw [isGapped, hafter, hbefore, Bool.or_false]

/-- A bare sign is set off from what comes before, unless that opens a parenthesis. -/
theorem padsBefore_of_bare {lexeme : Lexeme} {previous next : Option Lexeme}
    (hbare : lexeme.token = .plus ∨ lexeme.token = .minus)
    (hexponent : isExponentSign previous next = false)
    (hparen : ∀ opener, previous = some opener → opener.token ≠ .openParen) (stream : List Lexeme) :
    padsBefore stream previous lexeme next := by
  have hopen : previous.any (·.token == .openParen) = false := by
    cases previous with
    | none => rfl
    | some opener => simpa using hparen opener rfl
  rw [padsBefore]
  rcases hbare with htoken | htoken <;> rw [htoken] <;> simp [hexponent, hopen]

theorem settled_true_of_isSign {token : Token} (hsign : token.isSign) :
    token.settled true = .plusSpaced ∨ token.settled true = .minusSpaced := by
  revert hsign
  cases token <;> decide

theorem settled_false_of_isSign {token : Token} (hsign : token.isSign) :
    token.settled false = .plus ∨ token.settled false = .minus := by
  revert hsign
  cases token <;> decide

theorem isSign_cases {token : Token} (hsign : token.isSign) :
    (token = .plusSpaced ∨ token = .minusSpaced) ∨
      (token = .plus ∨ token = .minus) ∧ token.settled false = token := by
  revert hsign
  cases token <;> decide

end Token

namespace Lexeme

variable {stream stream' : List Lexeme} {gapped : Bool} {lexeme lexeme' : Lexeme}
  (hreread : lexeme.IsReread stream stream' gapped lexeme')

include hreread

theorem IsReread.token : lexeme'.token = lexeme.token.settled gapped :=
  (Prod.mk.inj hreread.item).1

theorem IsReread.text_of_text (htext : lexeme.token = .text) : lexeme'.text = lexeme.core := by
  have htext' := (Prod.mk.inj hreread.item).2
  rwa [settled_of_text htext] at htext'

theorem IsReread.token_eq_iff {token : Token} (htoken : token.isSign = false) :
    lexeme.token = token ↔ lexeme'.token = token := by
  rw [hreread.token, Token.settled_eq_iff htoken]

/-- A lexeme shows the same after it has been read back: the blank of a sign is trimmed away. -/
theorem IsReread.atoms (hshown : lexeme.IsShown) : lexeme'.atoms = lexeme.atoms := by
  rcases hshown.cases with hentry | hplaceholder | htext
  · have hnot := (Token.ne_of_isTableEntry hentry).2
    have hentry' : lexeme'.token.isTableEntry := by
      rw [hreread.token, Token.isTableEntry_settled, hentry]
    rw [atoms_of_code hnot, atoms_of_code (mt (hreread.token_eq_iff rfl).mpr hnot),
      (core_of_isTableEntry hentry).2, (core_of_isTableEntry hentry').2, hreread.token,
      Token.spelling_settled]
  · have htext' := (Prod.mk.inj hreread.item).2
    rw [settled_of_placeholder hplaceholder] at htext'
    rw [Lexeme.atoms, Lexeme.atoms, if_pos hplaceholder,
      if_pos ((hreread.token_eq_iff rfl).mp hplaceholder), htext']
  · have htext' := (hreread.token_eq_iff rfl).mp htext
    have hnot : ∀ other : Lexeme, other.token = .text → other.token ≠ .placeholder := by
      intro other hother
      simp [hother]
    rw [atoms_of_code (hnot _ htext), atoms_of_code (hnot _ htext'), (core_of_text htext').2,
      hreread.text_of_text htext, (core_of_text htext).2, Blank.squeeze_squeeze]

/-- A lexeme that is read back calls for the same spaces of its neighbours. -/
theorem IsReread.isAlike (hshown : lexeme.IsShown) : lexeme.IsAlike lexeme' where
  text := hreread.token_eq_iff rfl
  paren := hreread.token_eq_iff rfl
  entry := by rw [hreread.token, Token.isTableEntry_settled]
  lastWord htext := by
    rw [hreread.text_of_text htext, (core_of_text htext).2, Blank.lastWord_squeeze]
  head htext := by
    rw [hreread.text_of_text htext, (core_of_text htext).2,
      Blank.head?_squeeze (hshown.holdsNoEntry htext).2]

end Lexeme

/-! ## Spaces between lexemes that are read back -/

section

variable {stream stream' : List Lexeme} {previous previous' next next' : Option Lexeme}
  {gapped : Bool} {lexeme lexeme' : Lexeme}
  (hreread : lexeme.IsReread stream stream' gapped lexeme')
  (hprevious : Option.Rel IsAlike previous previous') (hnext : Option.Rel IsAlike next next')

/-- An opening bracket pads after the second reading exactly if it did after the first. -/
theorem one_lt_enclosedCount_iff (hcount : matchedCount stream' lexeme' = matchedCount stream lexeme)
    (hopen : lexeme.token = .openSquare) (hopen' : lexeme'.token = .openSquare)
    (hpads : lexeme.partner = none → 1 < lexeme.enclosedCount)
    (hpads' : lexeme'.partner = none → 1 < lexeme'.enclosedCount) :
    1 < lexeme.enclosedCount ↔ 1 < lexeme'.enclosedCount := by
  rw [matchedCount, matchedCount, if_pos hopen, if_pos hopen'] at hcount
  cases hpartner : lexeme.partner with
  | none =>
      have hpartner' : lexeme'.partner = none := by simpa [hpartner] using hcount
      exact iff_of_true (hpads hpartner) (hpads' hpartner')
  | some place =>
      cases hpartner' : lexeme'.partner with
      | none => simp [hpartner, hpartner'] at hcount
      | some place' =>
          have hsame : lexeme'.enclosedCount = lexeme.enclosedCount := by
            simpa [hpartner, hpartner'] using hcount
          rw [hsame]

theorem enclosedByPartner_eq_of_count
    (hcount : matchedCount stream' lexeme' = matchedCount stream lexeme)
    (hopen : lexeme.token ≠ .openSquare) (hopen' : lexeme'.token ≠ .openSquare) :
    enclosedByPartner stream lexeme = enclosedByPartner stream' lexeme' := by
  rw [matchedCount, matchedCount, if_neg hopen, if_neg hopen'] at hcount
  cases hpartner : lexeme.partner with
  | none =>
      have hpartner' : lexeme'.partner = none := by simpa [hpartner] using hcount
      rw [enclosedByPartner, enclosedByPartner, hpartner, hpartner', Option.bind_none,
        Option.bind_none]
  | some place =>
      cases hpartner' : lexeme'.partner with
      | none => simp [hpartner, hpartner'] at hcount
      | some place' => simpa [hpartner, hpartner'] using hcount.symm

include hreread hprevious hnext

/-- What a lexeme calls for after it comes back, but for a sign, which calls for the space that
follows it. -/
theorem padsAfter_reread {before : Bool} (hgapped : gapped = (padsAfter previous lexeme next || before))
    (hpads : lexeme.token = .openSquare → lexeme.partner = none → 1 < lexeme.enclosedCount)
    (hpads' : lexeme'.token = .openSquare → lexeme'.partner = none → 1 < lexeme'.enclosedCount) :
    (padsAfter previous' lexeme' next' || before) = (padsAfter previous lexeme next || before) := by
  have hopen : lexeme.token = .openSquare →
      (1 < lexeme.enclosedCount ↔ 1 < lexeme'.enclosedCount) := by
    intro hopen
    have hopen' := (hreread.token_eq_iff rfl).mp hopen
    exact one_lt_enclosedCount_iff hreread.count hopen hopen' (hpads hopen) (hpads' hopen')
  have hsame : lexeme.token = lexeme'.token →
      padsAfter previous' lexeme' next' = padsAfter previous lexeme next :=
    fun htoken => (padsAfter_eq hprevious hnext htoken hopen).symm
  cases hsign : lexeme.token.isSign with
  | false => rw [hsame (by rw [hreread.token, Token.settled_of_not_isSign hsign])]
  | true =>
      rw [← hgapped]
      cases hspace : gapped with
      | true =>
          have hspaced := Token.settled_true_of_isSign hsign
          rw [← hspace, ← hreread.token] at hspaced
          rw [(Token.pads_of_spaced hspaced stream' previous' next').2, Bool.true_or]
      | false =>
          rw [hspace] at hgapped
          rcases Token.isSign_cases hsign with hspaced | ⟨-, hbare⟩
          · rw [(Token.pads_of_spaced hspaced stream previous next).2] at hgapped
            exact Bool.noConfusion hgapped
          · rw [hsame (by rw [hreread.token, hspace, hbare]), hgapped]

omit hreread hprevious hnext in
/-- A bare sign that a space follows is set off from what comes before it too: raw text does not
follow it. -/
theorem padsBefore_of_spaceAfter {rest : List Lexeme}
    (hbare : lexeme.token = .plus ∨ lexeme.token = .minus)
    (hspace : spaceAfter stream previous lexeme rest) (after : List Lexeme)
    (hsettles : ∀ opener, previous = some opener → Settles opener lexeme (rest ++ after).head?) :
    padsBefore stream previous lexeme rest.head? := by
  cases rest with
  | nil => exact Bool.noConfusion hspace
  | cons second rest =>
      have htext : second.token ≠ .text := by
        intro htext
        rw [spaceAfter, Token.not_isGapped_of_text hbare htext] at hspace
        exact Bool.noConfusion hspace
      refine Token.padsBefore_of_bare hbare ?_ ?_ stream
      · refine isExponentSign_of_next ?_ previous
        rintro other ⟨rfl⟩
        exact htext
      · intro opener hopener hparen
        have hsign : lexeme.token.isSign := by
          rcases hbare with htoken | htoken <;> rw [htoken] <;> rfl
        have hnext := (hsettles opener hopener hparen hsign).2
        exact htext (by simpa using hnext)

omit hnext in
/-- A sign that has swallowed a blank at the end of its row is read back bare, and is set off all the
same. -/
theorem padsBefore_of_spaced_reread {rest : List Lexeme} (hbare : gapped = false)
    (hspaced : lexeme.token = .plusSpaced ∨ lexeme.token = .minusSpaced)
    (hspace : spaceAfter stream previous lexeme rest = false)
    (hnext : Option.Rel IsAlike rest.head? next') (after : List Lexeme)
    (hsettles : ∀ opener, previous = some opener → Settles opener lexeme (rest ++ after).head?) :
    padsBefore stream' previous' lexeme' next' := by
  have hsign : lexeme.token.isSign := by
    rcases hspaced with htoken | htoken <;> rw [htoken] <;> rfl
  have hbare' := Token.settled_false_of_isSign hsign
  rw [← hbare, ← hreread.token] at hbare'
  have hend : rest = [] := by
    cases rest with
    | nil => rfl
    | cons second rest =>
        rw [spaceAfter, isGapped, (Token.pads_of_spaced hspaced stream previous (some second)).2]
          at hspace
        exact Bool.noConfusion hspace
  refine Token.padsBefore_of_bare hbare' ?_ ?_ stream'
  · rw [← isExponentSign_eq hprevious hnext, hend]
    exact isExponentSign_of_next (by simp) previous
  · rintro opener' rfl hparen'
    cases hprevious with
    | some hsame =>
        have hplain := (hsettles _ rfl (hsame.paren.mpr hparen') hsign).1
        rcases hspaced with htoken | htoken <;> simp [htoken] at hplain

omit hnext in
/-- What a lexeme calls for before it comes back. -/
theorem padsBefore_reread {rest : List Lexeme}
    (hgapped : gapped = spaceAfter stream previous lexeme rest)
    (hnext : Option.Rel IsAlike rest.head? next') (after : List Lexeme)
    (hsettles : ∀ opener, previous = some opener → Settles opener lexeme (rest ++ after).head?) :
    padsBefore stream' previous' lexeme' next' = padsBefore stream previous lexeme rest.head? := by
  have hclose : lexeme.token = .closeSquare →
      (1 < enclosedByPartner stream lexeme ↔ 1 < enclosedByPartner stream' lexeme') := by
    intro hclose
    have hclose' := (hreread.token_eq_iff rfl).mp hclose
    rw [enclosedByPartner_eq_of_count hreread.count (by simp [hclose]) (by simp [hclose'])]
  have hsame : lexeme.token = lexeme'.token →
      padsBefore stream' previous' lexeme' next' = padsBefore stream previous lexeme rest.head? :=
    fun htoken => (padsBefore_eq hprevious hnext htoken hclose).symm
  cases hsign : lexeme.token.isSign with
  | false => exact hsame (by rw [hreread.token, Token.settled_of_not_isSign hsign])
  | true =>
      have hspaced' : gapped = true → padsBefore stream' previous' lexeme' next' := by
        intro hspace
        have hsettled := Token.settled_true_of_isSign hsign
        rw [← hspace, ← hreread.token] at hsettled
        exact (Token.pads_of_spaced hsettled stream' previous' next').1
      rcases Token.isSign_cases hsign with hspaced | ⟨hbare, hsettled⟩
      · rw [(Token.pads_of_spaced hspaced stream previous rest.head?).1]
        cases hspace : gapped with
        | true => exact hspaced' hspace
        | false =>
            exact padsBefore_of_spaced_reread hreread hprevious hspace hspaced
              (hgapped.symm.trans hspace) hnext after hsettles
      · cases hspace : gapped with
        | true =>
            rw [hspaced' hspace, padsBefore_of_spaceAfter hbare (hgapped.symm.trans hspace) after hsettles]
        | false => exact hsame (by rw [hreread.token, hspace, hsettled])

end

/-! ## Rows that are read back -/

section

variable {stream stream' : List Lexeme} {previous previous' : Option Lexeme}

theorem RowIsReread.rel_head? {row row' : List Lexeme}
    (hreread : RowIsReread stream stream' previous row row') (hshown : ∀ lexeme ∈ row, lexeme.IsShown) :
    Option.Rel IsAlike row.head? row'.head? := by
  cases hreread with
  | nil => exact .none
  | cons hhead _ => exact .some (hhead.isAlike (hshown _ List.mem_cons_self))

/-- The space after a lexeme comes back. -/
theorem RowIsReread.spaceAfter_eq {first first' : Lexeme} {rest rest' after : List Lexeme}
    (hreread : RowIsReread stream stream' previous (first :: rest) (first' :: rest'))
    (hprevious : Option.Rel IsAlike previous previous')
    (hshown : ∀ lexeme ∈ first :: rest, lexeme.IsShown) (hpads : BracketsPad (first :: rest))
    (hpads' : BracketsPad (first' :: rest')) (hsigns : SignsSettle (first :: rest ++ after)) :
    spaceAfter stream' previous' first' rest' = spaceAfter stream previous first rest := by
  cases hreread with
  | cons hfirst hlater =>
      cases hlater with
      | nil => rfl
      | @cons _ second second' rest rest' hsecond hrest =>
          have hfirstAlike := hfirst.isAlike (hshown _ List.mem_cons_self)
          have hsecondAlike := hsecond.isAlike (hshown _ (by simp))
          have hnextAlike := hrest.rel_head? fun lexeme hlexeme => hshown lexeme (by simp [hlexeme])
          have hafter := padsAfter_reread hfirst hprevious (.some hsecondAlike) rfl
            (List.isChain_cons_cons.mp hpads).1 (List.isChain_cons_cons.mp hpads').1
          have hbefore := padsBefore_reread hsecond (.some hfirstAlike) rfl hnextAlike after
            fun opener hopener => by
              obtain rfl := Option.some.inj hopener
              exact hsigns.1
          rw [spaceAfter, spaceAfter, isGapped, isGapped, hbefore]
          exact hafter

/-- A row that is read back is written as it was. -/
theorem RowIsReread.rowAtoms_eq {row row' after : List Lexeme}
    (hreread : RowIsReread stream stream' previous row row')
    (hprevious : Option.Rel IsAlike previous previous')
    (hshown : ∀ lexeme ∈ row, lexeme.IsShown) (hpads : BracketsPad row)
    (hpads' : BracketsPad row') (hsigns : SignsSettle (row ++ after)) :
    rowAtoms stream' previous' row' = rowAtoms stream previous row := by
  induction hreread generalizing previous' with
  | nil => rfl
  | @cons previous lexeme lexeme' rest rest' hhead hrest ih =>
      have hlexeme := hshown lexeme List.mem_cons_self
      have hspace := (RowIsReread.cons hhead hrest).spaceAfter_eq hprevious hshown hpads hpads' hsigns
      rw [rowAtoms_cons, rowAtoms_cons, hspace, hhead.atoms hlexeme,
        ih (.some (hhead.isAlike hlexeme)) (List.forall_mem_cons.mp hshown).2 hpads.tail hpads'.tail
          (show SignsSettle ([lexeme] ++ (rest ++ after)) from hsigns).of_append]

end

end ChuckLayout
