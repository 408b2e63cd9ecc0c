import ChuckLayout.Proofs.Layout.Print
import ChuckLayout.Proofs.Lexing.Passes

/-!
# Rows of streams that look alike

What is written between two lexemes depends on little of them and of their neighbours.  Streams that
agree on it, one lexeme by one, have the same rows with the same spaces.
-/

namespace ChuckLayout

open List (Forall₂)
open Lexeme (Corresponds)
open Spacing

/-! ## Spacing between lexemes that look alike -/

namespace Lexeme

/-- The lexemes call for the same space between their neighbours and those before or after them. -/
structure IsAlike (first second : Lexeme) : Prop where
  text : first.token = .text ↔ second.token = .text
  paren : first.token = .openParen ↔ second.token = .openParen
  entry : first.token.isTableEntry = second.token.isTableEntry
  lastWord : first.token = .text → Blank.lastWord first.text = Blank.lastWord second.text
  head : first.token = .text → first.text.head? = second.text.head?

end Lexeme

open Lexeme (IsAlike)

section

variable {stream stream' : List Lexeme} {previous previous' next next' : Option Lexeme}
  {lexeme lexeme' : Lexeme} (hprevious : Option.Rel IsAlike previous previous')
  (hnext : Option.Rel IsAlike next next')

include hprevious hnext in
theorem isExponentSign_eq : isExponentSign previous next = isExponentSign previous' next' := by
  cases hprevious with
  | none => rfl
  | @some first first' hfirst =>
      cases hnext with
      | none => rfl
      | @some second second' hsecond =>
          by_cases htext : first.token = .text ∧ second.token = .text
          · have htext' := And.intro (hfirst.text.mp htext.1) (hsecond.text.mp htext.2)
            simp [isExponentSign, htext.1, htext.2, htext'.1, htext'.2, hfirst.lastWord htext.1,
              hsecond.head htext.2]
          · have htext' : ¬(first'.token = .text ∧ second'.token = .text) := by
              rwa [← hfirst.text, ← hsecond.text]
            have hnot : ∀ left right : Lexeme, ¬(left.token = .text ∧ right.token = .text) →
                isExponentSign (some left) (some right) = false := by
              intro left right hnot
              cases hleft : left.token == .text <;> cases hright : right.token == .text <;>
                simp_all [isExponentSign]
            rw [hnot _ _ htext, hnot _ _ htext']

include hprevious in
theorem any_openParen_eq :
    previous.any (·.token == .openParen) = previous'.any (·.token == .openParen) := by
  cases hprevious with
  | none => rfl
  | some hfirst =>
      rw [Option.any_some, Option.any_some, Bool.eq_iff_iff, beq_iff_eq, beq_iff_eq, hfirst.paren]

include hnext in
theorem any_isTableEntry_eq :
    next.any (·.token.isTableEntry) = next'.any (·.token.isTableEntry) := by
  cases hnext with
  | none => rfl
  | some hsecond => exact hsecond.entry

include hprevious hnext in
/-- What calls for a space before a lexeme is its token, its neighbours up to likeness, and for a
closing bracket how much it encloses. -/
theorem padsBefore_eq (htoken : lexeme.token = lexeme'.token)
    (hclose : lexeme.token = .closeSquare →
      (1 < enclosedByPartner stream lexeme ↔ 1 < enclosedByPartner stream' lexeme')) :
    padsBefore stream previous lexeme next = padsBefore stream' previous' lexeme' next' := by
  rw [padsBefore, padsBefore, ← htoken, isExponentSign_eq hprevious hnext,
    any_openParen_eq hprevious]
  generalize lexeme.token = token at hclose
  cases token with
  | closeSquare => exact decide_eq_decide.mpr (hclose rfl)
  | _ => rfl

include hprevious hnext in
theorem padsAfter_eq (htoken : lexeme.token = lexeme'.token)
    (hopen : lexeme.token = .openSquare →
      (1 < lexeme.enclosedCount ↔ 1 < lexeme'.enclosedCount)) :
    padsAfter previous lexeme next = padsAfter previous' lexeme' next' := by
  rw [padsAfter, padsAfter, ← htoken, isExponentSign_eq hprevious hnext,
    any_isTableEntry_eq hnext]
  generalize lexeme.token = token at hopen
  cases token with
  | openSquare => exact decide_eq_decide.mpr (hopen rfl)
  | _ => rfl

end

/-- What a closing bracket encloses is found through its partner alone. -/
theorem enclosedByPartner_eq {related : Token × List Char → Token × List Char → Prop}
    {stream stream' : List Lexeme} (hstreams : Forall₂ (Corresponds related) stream stream')
    {closer closer' : Lexeme} (hpartner : closer.partner = closer'.partner) :
    enclosedByPartner stream closer = enclosedByPartner stream' closer' := by
  have hcounts : stream.map Lexeme.enclosedCount = stream'.map Lexeme.enclosedCount := by
    refine map_eq_of_forall₂ hstreams fun first second hsame => ?_
    rw [Lexeme.enclosedCount, Lexeme.enclosedCount, hsame.enclosed]
  have hplace : ∀ place : Nat, (stream[place]?).map Lexeme.enclosedCount =
      (stream'[place]?).map Lexeme.enclosedCount := by
    intro place
    rw [← List.getElem?_map, ← List.getElem?_map, hcounts]
  unfold enclosedByPartner
  rw [hpartner]
  cases closer'.partner with
  | none => rfl
  | some place => exact congrArg (Option.getD · 0) (hplace place)

/-! ## Streams that look alike -/

def KeepsSpacing (related : Token × List Char → Token × List Char → Prop) : Prop :=
  ∀ first second : Lexeme, related first.item second.item →
    first.token = second.token ∧ first.IsAlike second

section

variable {related : Token × List Char → Token × List Char → Prop} (hkeeps : KeepsSpacing related)
  {first first' second second' : Lexeme}

include hkeeps

theorem KeepsSpacing.shape_eq (first second : Lexeme) (hsame : related first.item second.item) :
    first.shape = second.shape := by
  rw [Lexeme.shape, Lexeme.shape, (hkeeps first second hsame).1]

theorem map_token_eq {lexemes others : List Lexeme}
    (hlexemes : Forall₂ (Corresponds related) lexemes others) :
    lexemes.map Lexeme.token = others.map Lexeme.token :=
  map_eq_of_forall₂ hlexemes fun _ _ hsame => (hkeeps _ _ hsame.item).1

theorem rel_head?_isAlike {lexemes others : List Lexeme}
    (hlexemes : Forall₂ (Corresponds related) lexemes others) :
    Option.Rel IsAlike lexemes.head? others.head? := by
  cases hlexemes with
  | nil => exact .none
  | cons hhead _ => exact .some (hkeeps _ _ hhead.item).2

/-- Related streams have a space at the same places of their rows. -/
theorem isGapped_eq {stream stream' : List Lexeme} {previous previous' next next' : Option Lexeme}
    (hstreams : Forall₂ (Corresponds related) stream stream')
    (hprevious : Option.Rel IsAlike previous previous') (hfirst : Corresponds related first first')
    (hsecond : Corresponds related second second') (hnext : Option.Rel IsAlike next next') :
    isGapped stream previous first second next = isGapped stream' previous' first' second' next' := by
  obtain ⟨hfirstToken, hfirstAlike⟩ := hkeeps first first' hfirst.item
  obtain ⟨hsecondToken, hsecondAlike⟩ := hkeeps second second' hsecond.item
  rw [isGapped, isGapped, padsAfter_eq hprevious (.some hsecondAlike) hfirstToken,
    padsBefore_eq (.some hfirstAlike) hnext hsecondToken]
  · intro _
    rw [enclosedByPartner_eq hstreams hsecond.partner]
  · intro _
    rw [Lexeme.enclosedCount, Lexeme.enclosedCount, hfirst.enclosed]

end

/-! ## Streams that differ in their placeholders -/

/-- The items are the same, but for placeholders, whose texts are related. -/
structure SameBut (related : List Char → List Char → Prop) (first second : Token × List Char) :
    Prop where
  token : first.1 = second.1
  literal : first.1 = .placeholder → related first.2 second.2
  other : first.1 ≠ .placeholder → first.2 = second.2

section

variable {related : List Char → List Char → Prop}

/-- Placeholders are spaced alike whatever their texts are. -/
theorem SameBut.keepsSpacing : KeepsSpacing (SameBut related) := by
  intro first second hsame
  have htoken : first.token = second.token := hsame.token
  have htext : first.token = .text → first.text = second.text := by
    intro htext
    apply hsame.other
    rw [Lexeme.item, htext]
    exact Token.noConfusion
  exact ⟨htoken, by rw [htoken], by rw [htoken], by rw [htoken], fun h => by rw [htext h],
    fun h => by rw [htext h]⟩

theorem rowDepth_eq {row row' : List Lexeme} (htokens : row.map Lexeme.token = row'.map Lexeme.token)
    (depth : Int) : rowDepth depth row = rowDepth depth row' := by
  rw [rowDepth, rowDepth, isBraceRow, isBraceRow, htokens]

theorem depthAfterRow_eq {row row' : List Lexeme}
    (htokens : row.map Lexeme.token = row'.map Lexeme.token) (depth : Int) :
    depthAfterRow depth row = depthAfterRow depth row' := by
  rw [depthAfterRow, depthAfterRow, isBraceRow, isBraceRow, isBraceRow, isBraceRow, htokens]

end

/-! ## The rows of corresponding streams -/

/-- Rows are made by tokens alone, so related lexemes are in related rows. -/
theorem rowsAfter_forall₂ {related : Lexeme → Lexeme → Prop}
    (hshape : ∀ first second, related first second → first.shape = second.shape)
    {lexemes others : List Lexeme} (hlexemes : Forall₂ related lexemes others)
    {previous previous' : Option Token}
    (hprevious : ∀ token : Token, token.isBrace → (previous = some token ↔ previous' = some token)) :
    Forall₂ (Forall₂ related) (rowsAfter previous lexemes) (rowsAfter previous' others) := by
  induction hlexemes generalizing previous previous' with
  | nil => exact Forall₂.cons Forall₂.nil Forall₂.nil
  | @cons first second lexemes others hhead _ ih =>
      have hsame := hshape _ _ hhead
      have hbrace := Lexeme.isBrace_eq_of_shape hsame
      have hnext : ∀ token : Token, token.isBrace →
          (some first.token = some token ↔ some second.token = some token) := by
        intro token htoken
        rw [Option.some.injEq, Option.some.injEq]
        refine Lexeme.token_eq_iff_of_shape hsame ?_
        rcases Token.isBrace_iff.mp htoken with rfl | rfl <;> simp
      have hlater := ih hnext
      by_cases htoken : first.token = .newline
      · have htoken' := (Lexeme.token_eq_iff_of_shape hsame (Or.inl rfl)).mp htoken
        rw [rowsAfter_lineBreak htoken, rowsAfter_lineBreak htoken']
        exact Forall₂.cons Forall₂.nil hlater
      have htoken' : second.token ≠ .newline :=
        mt (Lexeme.token_eq_iff_of_shape hsame (Or.inl rfl)).mpr htoken
      cases hisBrace : first.token.isBrace with
      | true =>
          have hsameToken : first.token = second.token := by
            rcases Token.isBrace_iff.mp hisBrace with hopen | hclose
            · rw [hopen, (Lexeme.token_eq_iff_of_shape hsame (by simp)).mp hopen]
            · rw [hclose, (Lexeme.token_eq_iff_of_shape hsame (by simp)).mp hclose]
          have hrow := Forall₂.cons (Forall₂.cons hhead Forall₂.nil) hlater
          rw [rowsAfter_brace hisBrace, rowsAfter_brace (hbrace ▸ hisBrace)]
          rw [← hsameToken] at hrow ⊢
          by_cases hsamePrevious : previous = some first.token
          · rw [if_pos hsamePrevious, if_pos ((hprevious _ hisBrace).mp hsamePrevious)]
            exact hrow
          · rw [if_neg hsamePrevious, if_neg (mt (hprevious _ hisBrace).mpr hsamePrevious)]
            exact Forall₂.cons Forall₂.nil hrow
      | false =>
          rw [rowsAfter_other (endsRow_eq_false_iff.mpr ⟨htoken, hisBrace⟩),
            rowsAfter_other (endsRow_eq_false_iff.mpr ⟨htoken', hbrace ▸ hisBrace⟩)]
          generalize rowsAfter (some first.token) lexemes = later at hlater
          generalize rowsAfter (some second.token) others = later' at hlater
          cases hlater with
          | nil => exact Forall₂.nil
          | cons hrow hrows => exact Forall₂.cons (Forall₂.cons hhead hrow) hrows

theorem rows_forall₂ {related : Lexeme → Lexeme → Prop}
    (hshape : ∀ first second, related first second → first.shape = second.shape)
    {lexemes others : List Lexeme} (hlexemes : Forall₂ related lexemes others) :
    Forall₂ (Forall₂ related) (rows lexemes) (rows others) :=
  rowsAfter_forall₂ hshape hlexemes fun _ _ => Iff.rfl

/-- A row is written in one piece in its stream. -/
theorem isInfix_of_mem_rowsAfter {previous : Option Token} {lexemes : List Lexeme} :
    (∀ row ∈ rowsAfter previous lexemes, row <:+: lexemes) ∧
      ∀ row, (rowsAfter previous lexemes).head? = some row → row <+: lexemes := by
  induction lexemes generalizing previous with
  | nil => simp [rowsAfter]
  | cons lexeme rest ih =>
      obtain ⟨hoccurs, hstarts⟩ := @ih (some lexeme.token)
      have hlift : ∀ row ∈ rowsAfter (some lexeme.token) rest, row <:+: lexeme :: rest :=
        fun row hrow => (hoccurs row hrow).trans (List.infix_cons List.infix_rfl)
      have hsingle : [lexeme] <+: lexeme :: rest := ⟨rest, rfl⟩
      rw [rowsAfter]
      split
      · exact ⟨List.forall_mem_cons.mpr ⟨List.nil_infix, hlift⟩, by simp⟩
      split
      · split
        · exact ⟨List.forall_mem_cons.mpr ⟨hsingle.isInfix, hlift⟩, by simp⟩
        · exact ⟨List.forall_mem_cons.mpr ⟨List.nil_infix,
            List.forall_mem_cons.mpr ⟨hsingle.isInfix, hlift⟩⟩, by simp⟩
      · obtain ⟨row, later, hrows⟩ :=
          List.exists_cons_of_ne_nil (rowsAfter_ne_nil (some lexeme.token) rest)
        rw [hrows] at hstarts hlift ⊢
        have hrow : lexeme :: row <+: lexeme :: rest :=
          (List.prefix_cons_inj lexeme).mpr (hstarts row rfl)
        rw [List.modifyHead_cons]
        exact ⟨List.forall_mem_cons.mpr ⟨hrow.isInfix, (List.forall_mem_cons.mp hlift).2⟩,
          by simpa using hrow⟩

end ChuckLayout
