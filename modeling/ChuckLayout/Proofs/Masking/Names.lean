import ChuckLayout.Literal.Reveal
import ChuckLayout.Proofs.Masking.Numbering
import ChuckLayout.Proofs.Text.Cutting
import Mathlib.Data.List.Find

/-!
# Substitution in parts

Names are made of capital letters, digits and underscores, so a text may be cut at every place that
does not stand between two of these, and the literals put back in each part on its own.
-/

namespace ChuckLayout

namespace Placeholder

def isNameChar (char : Char) : Bool :=
  char.isUpper || char.isDigit || char == '_'

/-- No name reaches from `front` into `back`. -/
def IsApart (front back : List Char) : Prop :=
  ∀ last first, front.getLast? = some last → back.head? = some first →
    isNameChar last → isNameChar first = false

theorem isPrefixOf_takeWhile {pattern : List Char} (hpattern : ∀ char ∈ pattern, isNameChar char)
    (text : List Char) : pattern.isPrefixOf (text.takeWhile isNameChar) = pattern.isPrefixOf text := by
  induction pattern generalizing text with
  | nil => simp
  | cons first pattern ih =>
      obtain ⟨hfirst, hrest⟩ := List.forall_mem_cons.mp hpattern
      cases text with
      | nil => rfl
      | cons char rest =>
          by_cases hchar : isNameChar char
          · rw [List.takeWhile_cons_of_pos hchar, List.isPrefixOf_cons_cons, List.isPrefixOf_cons_cons,
              ih hrest]
          · have hne : (first == char) = false := by
              rw [beq_eq_false_iff_ne]
              rintro rfl
              exact hchar hfirst
            rw [List.takeWhile_cons_of_neg hchar, List.isPrefixOf_cons_cons, hne]
            rfl

theorem takeWhile_takeWhile_isNameChar {keeps : Char → Bool}
    (hkeeps : ∀ char, keeps char → isNameChar char) (text : List Char) :
    (text.takeWhile isNameChar).takeWhile keeps = text.takeWhile keeps := by
  rw [List.takeWhile_takeWhile]
  congr 1
  funext char
  cases hchar : keeps char <;> simp [hchar, hkeeps]

/-- The salt is read within the run of characters that a name can have. -/
theorem leadingSalt_takeWhile (text : List Char) :
    leadingSalt (text.takeWhile isNameChar) = leadingSalt text := by
  have hunderscore : isNameChar '_' := by decide
  have hcross : isNameChar 'X' := by decide
  have hkeeps : ∀ char, decide (char = 'X') → isNameChar char := by
    intro char hchar
    rw [of_decide_eq_true hchar]
    exact hcross
  match text with
  | [] => rfl
  | [char] =>
      by_cases hchar : isNameChar char <;> simp [List.takeWhile, hchar, leadingSalt]
  | char :: next :: rest =>
      by_cases hsalt : char = '_' ∧ next = 'X'
      · obtain ⟨rfl, rfl⟩ := hsalt
        rw [List.takeWhile_cons_of_pos hunderscore, List.takeWhile_cons_of_pos hcross, leadingSalt,
          leadingSalt, takeWhile_takeWhile_isNameChar hkeeps]
      · have hnone : ∀ first second later, ¬(first = '_' ∧ second = 'X') →
            leadingSalt (first :: second :: later) = [] := by
          intro first second later hnot
          unfold leadingSalt
          split
          · simp_all
          · rfl
        rw [hnone _ _ _ hsalt]
        by_cases hchar : isNameChar char
        · rw [List.takeWhile_cons_of_pos hchar]
          by_cases hnext : isNameChar next
          · rw [List.takeWhile_cons_of_pos hnext, hnone _ _ _ hsalt]
          · rw [List.takeWhile_cons_of_neg hnext]
            simp [leadingSalt]
        · rw [List.takeWhile_cons_of_neg hchar]
          rfl

theorem isNameChar_of_mem_leadingSalt (text : List Char) :
    ∀ char ∈ leadingSalt text, isNameChar char := by
  intro char hchar
  unfold leadingSalt at hchar
  split at hchar
  · rw [List.mem_cons, List.mem_cons] at hchar
    rcases hchar with rfl | rfl | hchar
    · decide
    · decide
    · have hcross := List.mem_takeWhile_imp hchar
      rw [of_decide_eq_true hcross]
      decide
  · simp at hchar

theorem isNameChar_of_mem_tag (kind : Literal.Kind) : ∀ char ∈ tag kind, isNameChar char := by
  cases kind <;> exact List.all_eq_true.mp (by decide)

theorem isNameChar_of_mem_stem (kind : Literal.Kind) {salt : List Char}
    (hsalt : ∀ char ∈ salt, isNameChar char) : ∀ char ∈ stem kind salt, isNameChar char := by
  have hmiddle : ∀ char ∈ "_LITERAL_".toList, isNameChar char :=
    List.all_eq_true.mp (by decide)
  intro char hchar
  rw [stem, List.mem_append, List.mem_append] at hchar
  rcases hchar with (hchar | hchar) | hchar
  · exact isNameChar_of_mem_tag kind char hchar
  · exact hsalt char hchar
  · exact hmiddle char hchar

/-- The leading name depends only on the leading run of characters that names are made of. -/
theorem leadingName?_takeWhile (text : List Char) :
    leadingName? (text.takeWhile isNameChar) = leadingName? text := by
  have hfind : (Literal.Kind.all.find? fun kind => (tag kind).isPrefixOf (text.takeWhile isNameChar)) =
      Literal.Kind.all.find? fun kind => (tag kind).isPrefixOf text :=
    List.find?_congr fun kind _ => isPrefixOf_takeWhile (isNameChar_of_mem_tag kind) text
  have hsplit : ∀ {front : List Char}, (∀ char ∈ front, isNameChar char) → ∀ rest,
      (front ++ rest).takeWhile isNameChar = front ++ rest.takeWhile isNameChar :=
    fun hfront _ => List.takeWhile_append_of_pos hfront
  unfold leadingName?
  rw [hfind]
  cases hkind : Literal.Kind.all.find? fun kind => (tag kind).isPrefixOf text with
  | none => rfl
  | some kind =>
      have htag := List.find?_some hkind
      obtain ⟨rest, rfl⟩ := List.isPrefixOf_iff_prefix.mp htag
      have hsalt : leadingSalt (((tag kind ++ rest).takeWhile isNameChar).drop (tag kind).length) =
          leadingSalt ((tag kind ++ rest).drop (tag kind).length) := by
        rw [hsplit (isNameChar_of_mem_tag kind), List.drop_left, List.drop_left, leadingSalt_takeWhile]
      simp only [hsalt]
      have hstem := isNameChar_of_mem_stem kind
        (isNameChar_of_mem_leadingSalt ((tag kind ++ rest).drop (tag kind).length))
      generalize stem kind _ = front at hstem
      rw [isPrefixOf_takeWhile hstem]
      cases hfront : front.isPrefixOf (tag kind ++ rest) with
      | false => simp
      | true =>
          obtain ⟨later, hlater⟩ := List.isPrefixOf_iff_prefix.mp hfront
          rw [← hlater, hsplit hstem, List.drop_left, List.drop_left,
            takeWhile_takeWhile_isNameChar (by simp +contextual [isNameChar])]

/-- A name ends where the run of its characters does, whatever follows. -/
theorem leadingName?_append {char : Char} {rest back : List Char}
    (happart : IsApart (char :: rest) back) :
    leadingName? (char :: (rest ++ back)) = leadingName? (char :: rest) := by
  rw [← leadingName?_takeWhile (char :: (rest ++ back)), ← List.cons_append,
    takeWhile_append_of_stop, leadingName?_takeWhile]
  intro hfront first hfirst
  refine happart _ first (List.getLast?_eq_some_getLast (List.cons_ne_nil _ _)) hfirst ?_
  exact hfront _ (List.getLast_mem _)

theorem IsApart.of_suffix {front part back : List Char} (happart : IsApart front back)
    (hpart : part <:+ front) : IsApart part back := by
  intro last first hlast hfirst
  obtain ⟨lead, rfl⟩ := hpart
  exact happart last first (by rw [List.getLast?_append, hlast]; rfl) hfirst

/-- Texts that are apart are searched for names one by one. -/
theorem chunks_append {front back : List Char} (happart : IsApart front back) :
    chunks (front ++ back) = chunks front ++ chunks back := by
  refine Cut.cut_append Chunk.leading_isFront fun char rest hsuffix => ?_
  rw [Chunk.leading, Chunk.leading, leadingName?_append (happart.of_suffix hsuffix)]

end Placeholder

namespace LiteralTable

open Placeholder (IsUnused Chunk chunks numbered)

variable {table : LiteralTable} {text : List Char}

/-- A name that is found in a text without the salt is none of the table. -/
theorem isIssued_eq_false_of_mem_chunks (hnumbered : table.IsNumbered)
    (hunused : IsUnused table.salt text) {name : List Char} (hname : .named name ∈ chunks text) :
    table.isIssued name = false := by
  have hoccurs : name <:+: text := by
    rw [← Placeholder.flatMap_chunks text]
    exact List.infix_of_mem_flatten (List.mem_map_of_mem hname)
  exact hnumbered.isIssued_eq_false (hunused.of_isInfix hoccurs)

/-- A text in which no placeholder of the table can be read stays. -/
theorem substitute_of_isUnused (hnumbered : table.IsNumbered) (hunused : IsUnused table.salt text) :
    table.substitute text = text := by
  have hchunk : ∀ chunk ∈ chunks text, table.revealChunk chunk = chunk.text := by
    intro chunk hchunk
    cases chunk with
    | plain char => rfl
    | named name =>
        have hissued := isIssued_eq_false_of_mem_chunks hnumbered hunused hchunk
        rw [isIssued, Option.isSome_eq_false_iff, Option.isNone_iff_eq_none] at hissued
        rw [revealChunk, hissued]
        rfl
  rw [substitute, List.flatMap_congr hchunk, Placeholder.flatMap_chunks]

/-- A placeholder of the table is one chunk. -/
theorem IsNumbered.chunks_of_knows (hnumbered : table.IsNumbered) {name value : List Char}
    (hknows : table.Knows name value) : chunks name = [.named name] := by
  obtain ⟨kind, number, -, rfl⟩ := hnumbered.exists_of_knows hknows
  have hname := Placeholder.leadingName?_numbered kind table.saltSize number [] rfl
  rw [List.append_nil] at hname
  obtain ⟨char, rest, hcons⟩ := List.exists_cons_of_ne_nil
    (Placeholder.leadingName?_front hname).1
  have hleading : Chunk.leading char rest = .named (numbered kind table.salt number) := by
    rw [Chunk.leading, ← hcons, hname]
    rfl
  have hcut : chunks (char :: rest) = [.named (numbered kind table.salt number)] := by
    rw [chunks, Cut.cut_of_leading Chunk.leading_isFront hleading [], Cut.cut_nil]
    rw [List.append_nil]
    exact hcons.symm
  rw [← hcut, ← hcons]
  rfl

end LiteralTable

end ChuckLayout
