import ChuckLayout.Proofs.Layout.Outline
import ChuckLayout.Proofs.Masking.Names

/-!
# Placeholders in a layout

A placeholder of a layout stands between margins, and nothing else in the layout can be read as a
placeholder of the table.  So cutting the layout at its names finds the placeholders as they were
written, and putting the literals back gives the layout with the literals in it.
-/

namespace ChuckLayout

open List (Forall₂)
open Placeholder (Chunk IsApart IsUnused chunks isNameChar saltOfSize)

/-- What a placeholder is set off by. -/
def isMargin (char : Char) : Bool :=
  char == ' ' || char == '\n'

/-- A literal among the two has a margin on the side of the other. -/
structure Atom.StandsOff (first second : Atom) : Prop where
  after : ∀ text, first = .literal text → ∃ char, isMargin char ∧ second = .char char
  before : ∀ text, second = .literal text → ∃ char, isMargin char ∧ first = .char char

theorem Atom.StandsOff.chars (first second : Char) : StandsOff (.char first) (.char second) :=
  ⟨fun _ h => Atom.noConfusion h, fun _ h => Atom.noConfusion h⟩

/-- The placeholder of the table that the chunk is. -/
def LiteralTable.issuedName? (table : LiteralTable) : Chunk → Option (List Char)
  | .named name => if table.isIssued name then some name else none
  | .plain _ => none

/-- What atoms are spelled as, with a space in place of each literal. -/
def outline (atoms : List Atom) : List Char :=
  atoms.flatMap fun
    | .char char => [char]
    | .literal _ => [' ']

/-- The literals are placeholders of the table that stand off from what is around them, and nothing
else can be read as a placeholder of the table. -/
structure IsPlaced (table : LiteralTable) (atoms : List Atom) : Prop where
  standsOff : atoms.IsChain Atom.StandsOff
  known : ∀ name, .literal name ∈ atoms → ∃ value, table.Knows name value
  unused : IsUnused table.salt (outline atoms)

theorem outline_append (front back : List Atom) : outline (front ++ back) = outline front ++ outline back :=
  List.flatMap_append

theorem outline_map_char (text : List Char) : outline (text.map .char) = text := by
  rw [outline, List.flatMap_map]
  exact List.flatMap_pure_eq_map _ _ |>.trans (List.map_id _)

theorem not_isNameChar_of_isMargin {char : Char} (hmargin : isMargin char) :
    isNameChar char = false := by
  rw [isMargin, Bool.or_eq_true, beq_iff_eq, beq_iff_eq] at hmargin
  rcases hmargin with rfl | rfl <;> decide

theorem isApart_of_getLast? {front : List Char} (back : List Char)
    (hfront : ∀ last, front.getLast? = some last → isNameChar last = false) :
    IsApart front back := by
  intro last first hlast _ hname
  rw [hfront last hlast] at hname
  exact absurd hname Bool.false_ne_true

theorem isApart_of_head? (front : List Char) {back : List Char}
    (hback : ∀ first, back.head? = some first → isNameChar first = false) :
    IsApart front back :=
  fun _ first _ hfirst _ => hback first hfirst

theorem Placeholder.isUnused_of_not_isNameChar {salt text : List Char}
    (htext : ∀ char ∈ text, isNameChar char = false) : IsUnused salt text := by
  intro kind hstem
  obtain ⟨char, rest, hcons⟩ := List.exists_cons_of_ne_nil (Placeholder.tag_ne_nil kind)
  have hname := Placeholder.isNameChar_of_mem_tag kind char (by simp [hcons])
  have hmem : char ∈ Placeholder.stem kind salt := by simp [Placeholder.stem, hcons]
  rw [htext char (hstem.subset hmem)] at hname
  exact absurd hname Bool.false_ne_true

theorem Placeholder.isNameChar_of_mem_saltOfSize (size : Nat) :
    ∀ char ∈ saltOfSize size, isNameChar char := by
  have hcross : isNameChar '_' ∧ isNameChar 'X' := by decide
  cases size with
  | zero => exact fun char hchar => absurd hchar List.not_mem_nil
  | succ size =>
      intro char hchar
      rcases List.mem_cons.mp hchar with rfl | hchar
      · exact hcross.1
      · rw [List.eq_of_mem_replicate hchar]
        exact hcross.2

/-- No placeholder comes about where two texts meet that are apart. -/
theorem Placeholder.IsUnused.append {size : Nat} {front back : List Char}
    (hfront : IsUnused (saltOfSize size) front) (hback : IsUnused (saltOfSize size) back)
    (happart : IsApart front back) : IsUnused (saltOfSize size) (front ++ back) := by
  rintro kind ⟨lead, trail, htext⟩
  have hname := Placeholder.isNameChar_of_mem_stem kind (isNameChar_of_mem_saltOfSize size)
  rcases List.append_eq_append_iff.mp htext with ⟨later, rfl, -⟩ | ⟨later, hlater, rfl⟩
  · exact hfront kind ⟨lead, later, rfl⟩
  · rcases List.append_eq_append_iff.mp hlater with ⟨straddling, rfl, hstem⟩ | ⟨lead, rfl, rfl⟩
    · rcases straddling.eq_nil_or_concat' with rfl | ⟨begun, last, rfl⟩
      · exact hback kind ⟨[], trail, by rw [hstem]; rfl⟩
      · cases later with
        | nil => exact hfront kind ⟨lead, [], by rw [hstem]; simp⟩
        | cons first rest =>
            -- the stem reaches over the seam, where two characters of names would meet
            have hlast := hname last (by simp [hstem])
            have hfirst := hname first (by simp [hstem])
            rw [happart last first (by simp) rfl hlast] at hfirst
            exact absurd hfirst Bool.false_ne_true
    · exact hback kind ⟨lead, trail, rfl⟩

namespace IsPlaced

variable {table : LiteralTable} {front back : List Atom} {name : List Char}

theorem nil : IsPlaced table [] where
  standsOff := .nil
  known _ hname := absurd hname List.not_mem_nil
  unused := Placeholder.isUnused_of_not_isNameChar fun _ hchar => absurd hchar List.not_mem_nil

/-- A placeholder alone. -/
theorem literal (hknown : ∃ value, table.Knows name value) : IsPlaced table [.literal name] where
  standsOff := List.isChain_singleton _
  known other hother := by
    obtain rfl := Atom.literal.inj (List.mem_singleton.mp hother)
    exact hknown
  unused := by
    have hspace : isNameChar ' ' = false := by decide
    exact Placeholder.isUnused_of_not_isNameChar (by simpa [outline] using hspace)

/-- A text without a name of the salt is placed by itself. -/
theorem chars {text : List Char} (hunused : IsUnused table.salt text) :
    IsPlaced table (text.map .char) where
  standsOff := by
    rw [List.isChain_map]
    exact List.isChain_iff_getElem.mpr fun _ _ => Atom.StandsOff.chars _ _
  known name hname := by simp at hname
  unused := by rwa [outline_map_char]

/-- Two placed parts stay placed when literals at the seam stand off and no name is put together
there. -/
theorem append (hfront : IsPlaced table front) (hback : IsPlaced table back)
    (hstands : ∀ last ∈ front.getLast?, ∀ first ∈ back.head?, last.StandsOff first)
    (happart : IsApart (outline front) (outline back)) : IsPlaced table (front ++ back) where
  standsOff := List.isChain_append.mpr ⟨hfront.standsOff, hback.standsOff, hstands⟩
  known name hname := (List.mem_append.mp hname).elim (hfront.known name) (hback.known name)
  unused := by
    rw [outline_append]
    exact hfront.unused.append hback.unused happart

theorem cons_margin (hback : IsPlaced table back) {char : Char} (hmargin : isMargin char) :
    IsPlaced table (.char char :: back) := by
  have hname := not_isNameChar_of_isMargin hmargin
  have hchar : IsPlaced table ([char].map .char) :=
    chars (Placeholder.isUnused_of_not_isNameChar (by simpa using hname))
  refine hchar.append hback ?_ ?_
  · rintro last ⟨rfl⟩ first -
    exact ⟨fun _ h => Atom.noConfusion h, fun _ _ => ⟨char, hmargin, rfl⟩⟩
  · apply isApart_of_getLast?
    rw [outline_map_char]
    simpa using hname

/-- A space or a line break at the seam is enough. -/
theorem append_margin {char : Char} (hfront : IsPlaced table front)
    (hback : IsPlaced table (.char char :: back)) (hmargin : isMargin char) :
    IsPlaced table (front ++ .char char :: back) := by
  refine hfront.append hback ?_ ?_
  · rintro last - first ⟨rfl⟩
    exact ⟨fun _ _ => ⟨char, hmargin, rfl⟩, fun _ h => Atom.noConfusion h⟩
  · apply isApart_of_head?
    rintro first ⟨rfl⟩
    exact not_isNameChar_of_isMargin hmargin

theorem blanks_append (hback : IsPlaced table back) (count : Nat) :
    IsPlaced table ((List.replicate count ' ').map .char ++ back) := by
  induction count with
  | zero => exact hback
  | succ count ih => exact ih.cons_margin rfl

theorem left (hplaced : IsPlaced table (front ++ back)) : IsPlaced table front where
  standsOff := hplaced.standsOff.left_of_append
  known other hother := hplaced.known other (List.mem_append_left _ hother)
  unused := hplaced.unused.of_isInfix (by rw [outline_append]; exact (List.prefix_append _ _).isInfix)

theorem right (hplaced : IsPlaced table (front ++ back)) : IsPlaced table back where
  standsOff := hplaced.standsOff.right_of_append
  known other hother := hplaced.known other (List.mem_append_right _ hother)
  unused := hplaced.unused.of_isInfix (by rw [outline_append]; exact (List.suffix_append _ _).isInfix)

theorem tail {atom : Atom} (hplaced : IsPlaced table (atom :: back)) : IsPlaced table back :=
  IsPlaced.right (show IsPlaced table ([atom] ++ back) from hplaced)

/-- A placeholder has a margin, or an end of the text, on either side. -/
theorem margins (hplaced : IsPlaced table (front ++ .literal name :: back)) :
    (spell front).getLast?.all isMargin ∧ (spell back).head?.all isMargin := by
  have hchain := List.isChain_append.mp hplaced.standsOff
  constructor
  · rcases front.eq_nil_or_concat' with rfl | ⟨lead, last, rfl⟩
    · rfl
    · obtain ⟨char, hmargin, rfl⟩ := (hchain.2.2 last (by simp) _ rfl).before name rfl
      simp [spell, Atom.text, hmargin]
  · cases back with
    | nil => rfl
    | cons first rest =>
        obtain ⟨char, hmargin, rfl⟩ :=
          (List.isChain_cons_cons.mp hchain.2.1).1.after name rfl
        simp [spell, Atom.text, hmargin]

/-- A text is cut at its placeholders. -/
theorem chunks_eq (hnumbered : table.IsNumbered)
    (hplaced : IsPlaced table (front ++ .literal name :: back)) :
    chunks (spell (front ++ .literal name :: back)) =
      chunks (spell front) ++ .named name :: chunks (spell back) := by
  obtain ⟨hlead, htrail⟩ := hplaced.margins
  obtain ⟨value, hknows⟩ := hplaced.known name (by simp)
  have hfront : IsApart (spell front) (name ++ spell back) := by
    apply isApart_of_getLast?
    intro last hlast
    rw [hlast] at hlead
    exact not_isNameChar_of_isMargin hlead
  have hback : IsApart name (spell back) := by
    apply isApart_of_head?
    intro first hfirst
    rw [hfirst] at htrail
    exact not_isNameChar_of_isMargin htrail
  have hspell : spell (front ++ .literal name :: back) = spell front ++ (name ++ spell back) :=
    spell_append _ _
  rw [hspell, Placeholder.chunks_append hfront, Placeholder.chunks_append hback,
    hnumbered.chunks_of_knows hknows]
  rfl

end IsPlaced

/-- Atoms are runs of characters between literals. -/
theorem runs_induction {motive : List Atom → Prop} (chars : ∀ text : List Char, motive (text.map .char))
    (literal : ∀ (text name : List Char) (rest : List Atom), motive rest →
      motive (text.map .char ++ .literal name :: rest))
    (atoms : List Atom) : motive atoms := by
  suffices hrun : ∀ text : List Char, motive (text.map .char ++ atoms) from hrun []
  induction atoms with
  | nil => intro text; rw [List.append_nil]; exact chars text
  | cons atom rest ih =>
      intro text
      cases atom with
      | char char =>
          have hrest := ih (text ++ [char])
          rwa [List.map_append, List.append_assoc] at hrest
      | literal name => exact literal text name rest (ih [])

namespace IsPlaced

variable {table : LiteralTable} (hnumbered : table.IsNumbered) {atoms : List Atom}

include hnumbered

/-- Where the text has a placeholder of the table, the atoms have it as a literal. -/
theorem exists_of_chunks_eq (hplaced : IsPlaced table atoms) {front back : List Chunk}
    {name : List Char} (hchunks : chunks (spell atoms) = front ++ .named name :: back)
    (hissued : table.isIssued name) :
    ∃ before after, atoms = before ++ .literal name :: after ∧ chunks (spell before) = front ∧
      chunks (spell after) = back := by
  have hnot : ∀ {text : List Char}, IsPlaced table (text.map .char) → .named name ∉ chunks text := by
    intro text htext hmem
    have hunused := htext.unused
    rw [outline_map_char] at hunused
    rw [LiteralTable.isIssued_eq_false_of_mem_chunks hnumbered hunused hmem] at hissued
    exact absurd hissued Bool.false_ne_true
  induction atoms using runs_induction generalizing front with
  | chars text =>
      rw [spell_map_char] at hchunks
      exact absurd (by rw [hchunks]; simp) (hnot hplaced)
  | literal text other rest ih =>
      rw [hplaced.chunks_eq hnumbered, spell_map_char, List.append_eq_append_iff] at hchunks
      rcases hchunks with ⟨later, rfl, hlater⟩ | ⟨later, htext, hlater⟩
      · cases later with
        | nil =>
            obtain ⟨hname, rfl⟩ := List.cons.inj hlater
            obtain rfl := Chunk.named.inj hname
            exact ⟨text.map .char, rest, rfl, by rw [spell_map_char, List.append_nil], rfl⟩
        | cons chunk later =>
            obtain ⟨rfl, hrest⟩ := List.cons.inj hlater
            obtain ⟨before, after, rfl, rfl, rfl⟩ := ih hplaced.right.tail hrest
            refine ⟨text.map .char ++ .literal other :: before, after, by simp, ?_, rfl⟩
            rw [← List.cons_append, ← List.append_assoc] at hplaced
            rw [hplaced.left.chunks_eq hnumbered, spell_map_char]
      · cases later with
        | nil =>
            obtain ⟨hname, rfl⟩ := List.cons.inj hlater
            obtain rfl := Chunk.named.inj hname
            exact ⟨text.map .char, rest, rfl, by rw [spell_map_char, htext, List.append_nil], rfl⟩
        | cons chunk later =>
            obtain ⟨rfl, -⟩ := List.cons.inj hlater
            exact absurd (by rw [htext]; simp) (hnot hplaced.left)

/-- The placeholders of the table that the text can be cut at are the literals of the atoms. -/
theorem filterMap_chunks (hplaced : IsPlaced table atoms) :
    (chunks (spell atoms)).filterMap table.issuedName? = literalTexts atoms := by
  have hchars : ∀ {text : List Char}, IsPlaced table (text.map .char) →
      (chunks text).filterMap table.issuedName? = [] := by
    intro text htext
    have hunused := htext.unused
    rw [outline_map_char] at hunused
    rw [List.filterMap_eq_nil_iff]
    intro chunk hchunk
    cases chunk with
    | plain char => rfl
    | named name =>
        have hissued := LiteralTable.isIssued_eq_false_of_mem_chunks hnumbered hunused hchunk
        simp [LiteralTable.issuedName?, hissued]
  induction atoms using runs_induction with
  | chars text =>
      rw [spell_map_char, hchars hplaced, ← List.append_nil (text.map Atom.char),
        literalTexts_map_char_append]
      rfl
  | literal text name rest ih =>
      obtain ⟨value, hknows⟩ := hplaced.known name (by simp)
      have hissued : table.isIssued name := LiteralTable.isIssued_iff.mpr ⟨value, hknows⟩
      have hsome : table.issuedName? (.named name) = some name := by
        rw [LiteralTable.issuedName?, if_pos hissued]
      rw [hplaced.chunks_eq hnumbered, spell_map_char, List.filterMap_append, hchars hplaced.left,
        List.filterMap_cons, hsome, ih hplaced.right.tail, literalTexts_map_char_append]
      rfl

/-- Putting the literals back puts each in the place of its placeholder. -/
theorem substitute_spell {others : List Atom} (hplaced : IsPlaced table atoms)
    (hmatches : Forall₂ (Atom.Matches table.Knows) atoms others) :
    table.substitute (spell atoms) = spell others := by
  have hchars : ∀ {text : List Char}, IsPlaced table (text.map .char) →
      table.substitute text = text := by
    intro text htext
    have hunused := htext.unused
    rw [outline_map_char] at hunused
    exact LiteralTable.substitute_of_isUnused hnumbered hunused
  induction atoms using runs_induction generalizing others with
  | chars text =>
      rw [spell_map_char, hchars hplaced, eq_of_matches_chars hmatches, spell_map_char]
  | literal text name rest ih =>
      obtain ⟨front, value, back, rfl, hknows, hfront, hback⟩ := exists_split_of_matches hmatches
      have hrest := ih hplaced.right.tail hback
      rw [LiteralTable.substitute] at hrest
      rw [LiteralTable.substitute, hplaced.chunks_eq hnumbered, spell_map_char, List.flatMap_append,
        List.flatMap_cons, hrest, ← LiteralTable.substitute, hchars hplaced.left,
        eq_of_matches_chars hfront, spell_append, spell_map_char, LiteralTable.revealChunk, hknows]
      rfl

end IsPlaced

end ChuckLayout
