import ChuckLayout.Proofs.Literals.Opaque
import ChuckLayout.Proofs.Relexing.Rows

/-!
# Code between texts

A text without the characters that end a literal is code or lies within a literal.  As code it is lexed
with the code before it that is still pending, and with the code after it up to the next literal or
line break.
-/

namespace ChuckLayout

open Blank (solid)
open Word (isWordChar)

/-- Reading finds all of `text` as code between `front` and `back`. -/
def IsCodeBetween (front text back : List Char) : Prop :=
  ∃ before after, segments .all (front ++ text ++ back) = before ++ text.map .code ++ after ∧
    before.flatMap Segment.text = front

/-! ## Reading -/

theorem Reads.of_code_append {scope : Scope} {text rest : List Char} {found : List Segment}
    (hreads : Reads scope (text ++ rest) (text.map .code ++ found)) : Reads scope rest found := by
  induction text with
  | nil => exact hreads
  | cons char text ih =>
      have htail : Reads (scope.after (.code char)) (text ++ rest) (text.map .code ++ found) :=
        hreads.tail
      exact ih htail

/-- A literal ends in what closes it, and a line comment before a line break. -/
theorem Reads.literal_ends {scope : Scope} {kind : Literal.Kind} {literal rest : List Char}
    {found : List Segment} (hreads : Reads scope (literal ++ rest) (.literal kind literal :: found)) :
    literal.getLast? = some '\"' ∨ literal.getLast? = some '/' ∨ rest.head?.all (· = '\n') := by
  generalize htext : literal ++ rest = text at hreads
  cases hreads with
  | @literal _ _ char tail _ _ hopening hliteral _ =>
      obtain rfl := List.append_cancel_left htext
      cases kind with
      | lineComment => exact Or.inr (Or.inr (Segment.literalAt?_lineComment_iff.mp hliteral).2)
      | string =>
          obtain ⟨inside, hinside, heq⟩ := Option.map_eq_some_iff.mp hliteral
          left
          rw [← heq, List.getLast?_cons, getLast?_of_throughQuote? hinside]
          rfl
      | blockComment =>
          obtain ⟨inside, hinside, heq⟩ := Option.map_eq_some_iff.mp hliteral
          right; left
          rw [← heq, List.getLast?_append, getLast?_of_throughCommentEnd? hinside]
          rfl

section

variable {text back : List Char} (hslash : '/' ∉ text) (hquote : '\"' ∉ text) (hfeed : '\n' ∉ text)
  {scope : Scope} {front : List Char} {found : List Segment}

include hslash hquote hfeed

/-- A segment that reaches into the text is a literal, and holds all of it. -/
theorem Reads.exists_literal {segment : Segment}
    (hreads : Reads scope (front ++ (text ++ back)) (segment :: found)) (hfront : front ≠ [])
    (hends : ¬segment.text <+: front) :
    ∃ kind trail, segment = .literal kind (front ++ text ++ trail) := by
  obtain ⟨-, rest, htext, -, -⟩ := hreads.uncons
  obtain ⟨more, hsegment, hmore⟩ : ∃ more, segment.text = front ++ more ∧ text ++ back = more ++ rest := by
    rcases List.append_eq_append_iff.mp htext with hlonger | ⟨front', rfl, -⟩
    · exact hlonger
    · exact absurd (List.prefix_append _ _) hends
  have hmoreNe : more ≠ [] := by
    rintro rfl
    exact hends (by rw [hsegment, List.append_nil])
  obtain ⟨kind, rfl⟩ : ∃ kind, segment = .literal kind (front ++ more) := by
    have hlength := congrArg List.length hsegment
    have hfrontLength := List.length_pos_iff.mpr hfront
    have hmoreLength := List.length_pos_iff.mpr hmoreNe
    rw [List.length_append] at hlength
    cases segment with
    | code char => rw [Segment.text, List.length_singleton] at hlength; omega
    | unclosed kind char => rw [Segment.text, List.length_singleton] at hlength; omega
    | literal kind literal => exact ⟨kind, congrArg _ hsegment⟩
  by_cases hwhole : text <+: more
  · obtain ⟨trail, rfl⟩ := hwhole
    exact ⟨kind, trail, by rw [List.append_assoc]⟩
  -- The literal would end in the text.
  exfalso
  obtain ⟨text', rfl, rfl⟩ : ∃ text', text = more ++ text' ∧ rest = text' ++ back := by
    rcases List.append_eq_append_iff.mp hmore with ⟨trail, rfl, -⟩ | hlonger
    · exact absurd (List.prefix_append _ _) hwhole
    · exact hlonger
  rw [htext] at hreads
  have hlast : (front ++ more).getLast? = some (more.getLast hmoreNe) := by
    rw [List.getLast?_append_of_ne_nil _ hmoreNe, List.getLast?_eq_some_getLast hmoreNe]
  have hmem : more.getLast hmoreNe ∈ more ++ text' :=
    List.mem_append_left _ (List.getLast_mem hmoreNe)
  rcases Reads.literal_ends hreads with hend | hend | hend
  · exact hquote (Option.some.inj (hlast.symm.trans hend) ▸ hmem)
  · exact hslash (Option.some.inj (hlast.symm.trans hend) ▸ hmem)
  · cases text' with
    | nil => exact hwhole (by rw [List.append_nil])
    | cons char text' =>
        obtain rfl : char = '\n' := by simpa using hend
        exact hfeed (by simp)

/-- A text in which no literal begins or ends is code, or a part of one literal. -/
theorem Reads.code_or_literal (hne : text ≠ []) (hreads : Reads scope (front ++ (text ++ back)) found) :
    (∃ before after, found = before ++ text.map .code ++ after ∧
      before.flatMap Segment.text = front) ∨
    ∃ before kind lead trail after, found = before ++ .literal kind (lead ++ text ++ trail) :: after ∧
      before.flatMap Segment.text ++ lead = front := by
  induction found generalizing scope front with
  | nil =>
      have hnil := hreads.flatMap_text
      simp [hne] at hnil
  | cons segment found ih =>
      by_cases hfront : front = []
      · subst hfront
        have hcode : Reads scope (text ++ back) (text.map .code ++ segments scope back) :=
          reads_code_append (opensNothing_of_ne hslash (fun h => absurd h hquote) _)
            (reads_segments scope back)
        exact Or.inl ⟨[], _, hreads.segments_eq.symm.trans hcode.segments_eq, rfl⟩
      by_cases hends : segment.text <+: front
      · obtain ⟨front, rfl⟩ := hends
        rw [List.append_assoc] at hreads
        rcases ih hreads.tail with ⟨before, after, rfl, rfl⟩ | ⟨before, kind, lead, trail, after, rfl, rfl⟩
        · exact Or.inl ⟨segment :: before, after, rfl, rfl⟩
        · refine Or.inr ⟨segment :: before, kind, lead, trail, after, rfl, ?_⟩
          rw [List.flatMap_cons, List.append_assoc]
      · obtain ⟨kind, trail, rfl⟩ := hreads.exists_literal hslash hquote hfeed hfront hends
        exact Or.inr ⟨[], kind, front, trail, found, rfl, rfl⟩

end

theorem flatMap_text_code (text : List Char) : (text.map Segment.code).flatMap Segment.text = text := by
  rw [List.flatMap_map]
  exact (List.flatMap_pure_eq_map _ _).trans (List.map_id _)

theorem map_atom_code (text : List Char) : (text.map Segment.code).map Segment.atom = text.map .char :=
  List.map_map

/-! ## Lexing -/

/-- The code that is pending after segments is what they end in. -/
theorem pendingCode_isSuffix (code : List Char) (found : List Segment) :
    pendingCode code (found.map Segment.atom) <:+ code ++ found.flatMap Segment.text := by
  induction found generalizing code with
  | nil => exact ⟨[], by simp [pendingCode]⟩
  | cons segment found ih =>
      have hrest : pendingCode [] (found.map Segment.atom) <:+
          code ++ (segment.text ++ found.flatMap Segment.text) :=
        (ih []).trans ((List.suffix_append _ _).trans (List.suffix_append _ _))
      have hchar : ∀ char, segment.text = [char] →
          pendingCode code (.char char :: found.map Segment.atom) <:+
            code ++ (segment.text ++ found.flatMap Segment.text) := by
        intro char hchar
        rw [pendingCode]
        split
        · exact hrest
        · rw [hchar, ← List.append_assoc]
          exact ih _
      rw [List.map_cons, List.flatMap_cons]
      cases segment with
      | code char => exact hchar char rfl
      | unclosed kind char => exact hchar char rfl
      | literal kind text =>
          rw [atom_literal]
          exact hrest

theorem ahead_isPrefix (found : List Segment) :
    ahead (found.map Segment.atom) <+: found.flatMap Segment.text := by
  induction found with
  | nil => exact List.nil_prefix
  | cons segment found ih =>
      have hchar : ∀ char, ahead (.char char :: found.map Segment.atom) <+:
          [char] ++ found.flatMap Segment.text := by
        intro char
        rw [ahead]
        split
        · exact List.nil_prefix
        · exact (List.prefix_cons_inj char).mpr ih
      rw [List.map_cons, List.flatMap_cons]
      cases segment with
      | code char => exact hchar char
      | unclosed kind char => exact hchar char
      | literal kind text =>
          rw [atom_literal]
          exact List.nil_prefix

/-- The lexemes before the pending code, and that code, hold the solid text before them. -/
theorem solidOf_lexedCode (found : List Segment) :
    solidOf ((lexedCode [] (found.map Segment.atom)).map Lexeme.item) ++
      solid (pendingCode [] (found.map Segment.atom)) = solid (found.flatMap Segment.text) := by
  have hlexed := solidOf_lexAtoms [] (found.map Segment.atom)
  have hbreak : solidOf [Lexeme.lineBreak.item] = [] := by decide
  rw [← List.append_nil (found.map Segment.atom), lexAtoms_append_atoms, lexAtoms, List.append_nil,
    List.map_append, List.map_append, solidOf_append, solidOf_append, solidOf_codeOf, List.map_singleton,
    hbreak, List.append_nil, Blank.solid_nil, List.nil_append, List.flatMap_map, Blank.solid_flatMap] at hlexed
  rw [hlexed, Blank.solid_flatMap]
  exact List.flatMap_congr fun segment _ => solid_atom_text segment

/-- Code that holds no line break is lexed with the code on either side of it. -/
theorem lexAtoms_around {text : List Char} (htext : '\n' ∉ text) (before after : List Atom) :
    lexAtoms [] (before ++ text.map .char ++ after) =
      lexedCode [] before ++
        (codeOf (pendingCode [] before ++ (text ++ ahead after)) ++ beyond after) := by
  rw [List.append_assoc, lexAtoms_append_atoms, lexAtoms_eq, (ahead_append htext after).1,
    (ahead_append htext after).2]

end ChuckLayout
