import ChuckLayout.Proofs.Masking.Mark

/-!
# Hidden literals

What a pass leaves behind: holes that touch no other word, a table that knows every hole, and no
text between the holes in which a placeholder of the table could be read.
-/

namespace ChuckLayout.Mark

open Placeholder (IsUnused)
open Word (IsWord isWordChar separator)

variable {scope : Scope} {kind : Literal.Kind} {marks rest : List Mark} {before : Option Char}

/-! ## Isolation -/

theorem separator_eq_nil_iff {char : Option Char} :
    separator char = [] ↔ char.any isWordChar = false := by
  rcases separator_cases char with ⟨hlead, hword⟩ | ⟨hlead, hword⟩ <;> simp [hlead, hword]

theorem separator_getLast?_of_isWord {name : List Char} (hname : IsWord name) (hne : name ≠ [])
    (before : Option Char) : separator (name.getLast?.or before) ≠ [] := by
  rw [List.getLast?_eq_some_getLast hne, Option.some_or, ne_eq, separator_eq_nil_iff]
  simp [hname _ (List.getLast_mem hne)]

theorem separator_head?_of_isWord {name : List Char} (hname : IsWord name) (hne : name ≠ [])
    (rest : List Char) : separator (name ++ rest).head? ≠ [] := by
  obtain ⟨first, tail, rfl⟩ := List.exists_cons_of_ne_nil hne
  rw [List.cons_append, List.head?_cons, ne_eq, separator_eq_nil_iff]
  simp [hname first List.mem_cons_self]

/-- A separator does not call for another. -/
theorem separator_getLast?_separator (char : Option Char) :
    separator ((separator char).getLast?.or char) = [] := by
  rcases separator_cases char with ⟨hlead, hword⟩ | ⟨hlead, hword⟩
  · simp [hlead]
  · rw [hlead]
    rfl

/-- Code touches no hole by itself, but its last character may. -/
theorem isIsolated_codes {text : List Char} :
    IsIsolated before (codes text ++ marks) ↔ IsIsolated (text.getLast?.or before) marks := by
  induction text generalizing before with
  | nil => rfl
  | cons char text ih =>
      rw [codes, List.map_cons, List.cons_append, ← codes, IsIsolated, ih]
      · cases text <;> simp [shown, List.getLast?_cons]
      · exact fun name value heq => Mark.noConfusion heq

structure IsProper (mark : Mark) : Prop where
  shown_ne_nil : mark.shown ≠ []
  isWord : ∀ name value, mark = hole name value → IsWord name

theorem IsReading.isProper (hreading : IsReading scope marks) : ∀ mark ∈ marks, mark.IsProper := by
  induction marks generalizing scope with
  | nil => simp
  | cons mark rest ih =>
      rw [List.forall_mem_cons]
      cases mark with
      | code char =>
          exact ⟨⟨List.cons_ne_nil _ _, fun _ _ heq => Mark.noConfusion heq⟩, ih hreading.2⟩
      | unclosed kind char =>
          exact ⟨⟨List.cons_ne_nil _ _, fun _ _ heq => Mark.noConfusion heq⟩, ih hreading.2.2⟩
      | hole name value =>
          refine ⟨⟨hreading.2.1, fun _ _ heq => ?_⟩, ih hreading.2.2⟩
          obtain ⟨rfl, -⟩ := Mark.hole.inj heq
          exact hreading.1
      | literal kind text =>
          obtain ⟨⟨char, tail, rfl, -⟩, -, hrest⟩ := hreading
          exact ⟨⟨List.cons_ne_nil _ _, fun _ _ heq => Mark.noConfusion heq⟩, ih hrest⟩

/-- What stands before the marks may change, as long as no hole comes to touch a word. -/
theorem IsIsolated.change {after : Option Char} (hisolated : IsIsolated before marks)
    (hproper : ∀ mark ∈ marks, mark.IsProper)
    (hafter : separator after = [] ∨ separator (showAll marks).head? = []) :
    IsIsolated after marks := by
  cases marks with
  | nil => trivial
  | cons mark rest =>
      have hmark := hproper mark List.mem_cons_self
      have hne := hmark.shown_ne_nil
      have hlast : mark.shown.getLast?.or after = mark.shown.getLast?.or before := by
        rw [List.getLast?_eq_some_getLast hne]
        rfl
      cases mark with
      | hole name value =>
          refine ⟨?_, hisolated.2.1, ?_⟩
          · rcases hafter with hafter | hafter
            · exact hafter
            · exact absurd hafter (separator_head?_of_isWord (hmark.isWord name value rfl) hne _)
          · rw [shown] at hlast
            rw [hlast]
            exact hisolated.2.2
      | code char => exact hisolated
      | unclosed kind char => exact hisolated
      | literal kind text =>
          rw [IsIsolated, hlast]
          · exact hisolated
          · exact fun name value heq => Mark.noConfusion heq

theorem IsIsolated.left (hisolated : IsIsolated before (marks ++ rest)) :
    IsIsolated before marks := by
  induction marks generalizing before with
  | nil => trivial
  | cons mark marks ih =>
      cases mark with
      | code char => exact ih hisolated
      | unclosed kind char => exact ih hisolated
      | literal kind text => exact ih hisolated
      | hole name value =>
          refine ⟨hisolated.1, ?_, ih hisolated.2.2⟩
          have htrail : separator (showAll (marks ++ rest)).head? = [] := hisolated.2.1
          rw [showAll_append] at htrail
          cases hshow : showAll marks with
          | nil => rfl
          | cons char shown => simpa [hshow] using htrail

theorem IsIsolated.right (hisolated : IsIsolated before (marks ++ rest)) :
    ∃ after, IsIsolated after rest := by
  induction marks generalizing before with
  | nil => exact ⟨before, hisolated⟩
  | cons mark marks ih =>
      cases mark with
      | code char => exact ih hisolated
      | unclosed kind char => exact ih hisolated
      | literal kind text => exact ih hisolated
      | hole name value => exact ih hisolated.2.2

theorem IsReading.right (hreading : IsReading scope (marks ++ rest))
    (hclosed : ∀ kind char, unclosed kind char ∉ marks) : IsReading scope rest := by
  induction marks with
  | nil => exact hreading
  | cons mark marks ih =>
      have hclosedRest : ∀ kind char, unclosed kind char ∉ marks :=
        fun kind char hmem => hclosed kind char (List.mem_cons_of_mem _ hmem)
      cases mark with
      | code char => exact ih hreading.2 hclosedRest
      | literal kind text => exact ih hreading.2.2 hclosedRest
      | hole name value => exact ih hreading.2.2 hclosedRest
      | unclosed kind char => exact absurd List.mem_cons_self (hclosed kind char)

/-- What follows a word is not a word: a literal that was hidden there has brought a space. -/
theorem separator_head?_hide (hreading : IsReading scope marks) (hbefore : separator before ≠ [])
    (hmarks : separator (showAll marks).head? = []) (offset : Nat) (table : LiteralTable) :
    separator (showAll (hide kind before offset table marks).1).head? = [] := by
  rcases head?_hide kind hreading before offset table with hsame | ⟨-, hspace | hword⟩
  · rw [hsame]
    exact hmarks
  · rw [hspace]
    rfl
  · exact absurd hword.1 hbefore

/-- Separators keep every new hole apart from its neighbours, and take nothing from the old ones. -/
theorem isIsolated_hide (hreading : IsReading scope marks) (hisolated : IsIsolated before marks)
    (offset : Nat) (table : LiteralTable) :
    IsIsolated before (hide kind before offset table marks).1 := by
  induction marks generalizing scope before offset table with
  | nil => trivial
  | cons mark rest ih =>
      cases mark with
      | code char => exact ih hreading.2 hisolated _ _
      | unclosed other char =>
          rw [hide, keep]
          split <;> exact ih hreading.2.2 hisolated _ _
      | hole name value =>
          obtain ⟨hword, hne, hrest⟩ := hreading
          obtain ⟨hlead, htrail, hlater⟩ := hisolated
          exact ⟨hlead, separator_head?_hide hrest (separator_getLast?_of_isWord hword hne _) htrail _ _,
            ih hrest hlater _ _⟩
      | literal other text =>
          have hrest : IsReading scope rest := hreading.2.2
          by_cases hkind : other = kind
          · subst hkind
            have hword := isWord_nextPlaceholder table other
            have hne := nextPlaceholder_ne_nil table other
            rw [hide_literal_self, isIsolated_codes]
            refine ⟨separator_getLast?_separator before, ?_, ?_⟩
            · rw [showAll_append, showAll_codes]
              rcases separator_cases (showAll rest).head? with ⟨htrail, -⟩ | ⟨htrail, -⟩
              · rw [htrail, List.nil_append, List.append_nil]
                apply separator_head?_hide hrest _ htrail
                rw [List.getLast?_append]
                exact separator_getLast?_of_isWord hword hne _
              · rw [htrail]
                rfl
            · have hlast : (separator before ++ table.nextPlaceholder other ++
                  separator (showAll rest).head?).getLast? =
                    (separator (showAll rest).head?).getLast?.or
                      ((table.nextPlaceholder other).getLast?.or
                        ((separator before).getLast?.or before)) := by
                rw [List.getLast?_append, List.getLast?_append, List.getLast?_eq_some_getLast hne]
                rfl
              rw [isIsolated_codes, ← hlast]
              refine ih hrest (IsIsolated.change hisolated hrest.isProper ?_) _ _
              rcases separator_cases (showAll rest).head? with ⟨htrail, -⟩ | ⟨htrail, -⟩
              · exact Or.inr htrail
              · left
                rw [hlast, htrail]
                rfl
          · rw [hide, if_neg hkind]
            exact ih hrest hisolated _ _

/-! ## The table -/

/-- The later table comes from the earlier one by adding literals. -/
structure Extends (earlier later : LiteralTable) : Prop where
  saltSize : later.saltSize = earlier.saltSize
  numbered : earlier.IsNumbered → later.IsNumbered
  knows : ∀ name value, earlier.Knows name value → later.Knows name value

theorem Extends.refl (table : LiteralTable) : Extends table table :=
  ⟨rfl, id, fun _ _ => id⟩

theorem Extends.trans {first second third : LiteralTable} (hfirst : Extends first second)
    (hsecond : Extends second third) : Extends first third where
  saltSize := hsecond.saltSize.trans hfirst.saltSize
  numbered := hsecond.numbered ∘ hfirst.numbered
  knows name value := hsecond.knows name value ∘ hfirst.knows name value

theorem Extends.add (table : LiteralTable) (kind : Literal.Kind) (start : Nat)
    (value : List Char) : Extends table (table.add kind start value) where
  saltSize := rfl
  numbered hnumbered := hnumbered.add kind start value
  knows _ _ hknows := hknows.add kind start value

theorem extends_hide (kind : Literal.Kind) (marks : List Mark) (before : Option Char)
    (offset : Nat) (table : LiteralTable) :
    Extends table (hide kind before offset table marks).2 := by
  induction marks generalizing before offset table with
  | nil => exact Extends.refl table
  | cons mark rest ih =>
      cases mark with
      | code char => exact ih _ _ _
      | unclosed other char => exact ih _ _ _
      | hole name value => exact ih _ _ _
      | literal other text =>
          rw [hide]
          split
          · exact (Extends.add table kind offset text).trans (ih _ _ _)
          · exact ih _ _ _

theorem areKnown_cons {table : LiteralTable} {mark : Mark} :
    AreKnown table (mark :: rest) ↔
      (∀ name value, mark = hole name value → table.Knows name value) ∧ AreKnown table rest := by
  simp only [AreKnown, List.mem_cons, or_imp, forall_and, eq_comm]

theorem areKnown_append {table : LiteralTable} :
    AreKnown table (marks ++ rest) ↔ AreKnown table marks ∧ AreKnown table rest := by
  simp only [AreKnown, List.mem_append, or_imp, forall_and]

theorem areKnown_codes (table : LiteralTable) (text : List Char) : AreKnown table (codes text) := by
  intro name value hmem
  obtain ⟨char, -, heq⟩ := List.mem_map.mp hmem
  exact Mark.noConfusion heq

theorem AreKnown.extend {earlier later : LiteralTable} (hknown : AreKnown earlier marks)
    (hextends : Extends earlier later) : AreKnown later marks :=
  fun name value hmem => hextends.knows name value (hknown name value hmem)

/-- The pass adds each literal under the name that it leaves in its place. -/
theorem areKnown_hide {table : LiteralTable} (hnumbered : table.IsNumbered)
    (hknown : AreKnown table marks) (before : Option Char) (offset : Nat) :
    AreKnown (hide kind before offset table marks).2 (hide kind before offset table marks).1 := by
  induction marks generalizing before offset table with
  | nil => simp [hide, AreKnown]
  | cons mark rest ih =>
      obtain ⟨hmark, hrest⟩ := areKnown_cons.mp hknown
      cases mark with
      | code char => exact areKnown_cons.mpr ⟨fun _ _ heq => Mark.noConfusion heq, ih hnumbered hrest _ _⟩
      | unclosed other char =>
          rw [hide, keep]
          refine areKnown_cons.mpr ⟨?_, ih hnumbered hrest _ _⟩
          split <;> exact fun _ _ heq => Mark.noConfusion heq
      | hole name value =>
          refine areKnown_cons.mpr ⟨?_, ih hnumbered hrest _ _⟩
          intro name' value' heq
          exact (extends_hide kind rest _ _ table).knows _ _ (hmark name' value' heq)
      | literal other text =>
          by_cases hkind : other = kind
          · subst hkind
            have hadd := Extends.add table other offset text
            rw [hide_literal_self]
            refine areKnown_append.mpr ⟨areKnown_codes _ _, areKnown_cons.mpr ⟨?_, ?_⟩⟩
            · rintro name value heq
              obtain ⟨rfl, rfl⟩ := Mark.hole.inj heq
              exact (extends_hide other rest _ _ _).knows _ _
                (hnumbered.knows_nextPlaceholder other offset text)
            · exact areKnown_append.mpr ⟨areKnown_codes _ _,
                ih (hnumbered.add other offset text) (hrest.extend hadd) _ _⟩
          · rw [hide, if_neg hkind]
            exact areKnown_cons.mpr ⟨fun _ _ heq => Mark.noConfusion heq, ih hnumbered hrest _ _⟩

/-! ## Words between the holes -/

/-- Every word that can be read in `part` can be read in `whole`. -/
structure WordsWithin (part whole : List Char) : Prop where
  front : ∀ word, IsWord word → word <+: part → word <+: whole
  anywhere : ∀ word, IsWord word → word <:+: part → word <:+: whole

namespace WordsWithin

variable {part whole : List Char}

theorem nil : WordsWithin [] [] :=
  ⟨fun _ _ => id, fun _ _ => id⟩

theorem cons (hwithin : WordsWithin part whole) (char : Char) :
    WordsWithin (char :: part) (char :: whole) := by
  have hfront : ∀ word, IsWord word → word <+: char :: part → word <+: char :: whole := by
    intro word hword hstarts
    cases word with
    | nil => exact List.nil_prefix
    | cons first word =>
        obtain ⟨rfl, hrest⟩ := List.cons_prefix_cons.mp hstarts
        refine (List.prefix_cons_inj first).mpr (hwithin.front word ?_ hrest)
        exact fun other hother => hword other (List.mem_cons_of_mem _ hother)
  refine ⟨hfront, fun word hword hoccurs => ?_⟩
  rcases List.infix_cons_iff.mp hoccurs with hstarts | hoccurs
  · exact (hfront word hword hstarts).isInfix
  · exact List.infix_cons (hwithin.anywhere word hword hoccurs)

theorem append (hwithin : WordsWithin part whole) (text : List Char) :
    WordsWithin (text ++ part) (text ++ whole) := by
  induction text with
  | nil => exact hwithin
  | cons char text ih => exact ih.cons char

/-- No word is read across a space. -/
theorem space (hwithin : WordsWithin part whole) (text : List Char) :
    WordsWithin (' ' :: part) (text ++ whole) := by
  have hfront : ∀ word, IsWord word → word <+: ' ' :: part → word = [] := by
    intro word hword hstarts
    cases word with
    | nil => rfl
    | cons first word =>
        obtain ⟨rfl, -⟩ := List.cons_prefix_cons.mp hstarts
        exact absurd (hword ' ' List.mem_cons_self) (by decide)
  refine ⟨fun word hword hstarts => ?_, fun word hword hoccurs => ?_⟩
  · rw [hfront word hword hstarts]
    exact List.nil_prefix
  · rcases List.infix_cons_iff.mp hoccurs with hstarts | hoccurs
    · rw [hfront word hword hstarts]
      exact List.nil_infix
    · exact (hwithin.anywhere word hword hoccurs).trans (List.suffix_append _ _).isInfix

theorem separator (hwithin : WordsWithin part whole) (char : Option Char) :
    WordsWithin (Word.separator char ++ part) whole := by
  rcases separator_cases char with ⟨hlead, -⟩ | ⟨hlead, -⟩
  · rw [hlead]
    exact hwithin
  · rw [hlead]
    exact hwithin.space []

end WordsWithin

theorem veil_codes (text : List Char) : veil (codes text) = text := by
  simp [veil, codes, shown, List.flatMap_map]

theorem veil_append (front back : List Mark) : veil (front ++ back) = veil front ++ veil back :=
  List.flatMap_append

theorem veil_hole (name value : List Char) (rest : List Mark) :
    veil (hole name value :: rest) = ' ' :: veil rest := rfl

/-- A pass takes words away, and puts no new one together. -/
theorem wordsWithin_veil_hide (kind : Literal.Kind) (marks : List Mark) (before : Option Char)
    (offset : Nat) (table : LiteralTable) :
    WordsWithin (veil (hide kind before offset table marks).1) (veil marks) := by
  induction marks generalizing before offset table with
  | nil => exact WordsWithin.nil
  | cons mark rest ih =>
      cases mark with
      | code char => exact (ih _ _ _).cons char
      | hole name value => exact (ih _ _ _).cons ' '
      | unclosed other char =>
          rw [hide, keep]
          split <;> exact (ih _ _ _).cons char
      | literal other text =>
          by_cases hkind : other = kind
          · subst hkind
            rw [hide_literal_self, veil_append, veil_codes, veil_hole, veil_append, veil_codes]
            exact (((ih _ _ _).separator _).space text).separator before
          · rw [hide, if_neg hkind]
            exact (ih _ _ _).append text

/-- Outside of holes no name of the salt comes up, as no new word does. -/
theorem isUnused_veil_hide {size : Nat} (hunused : IsUnused (Placeholder.saltOfSize size) (veil marks))
    (before : Option Char) (offset : Nat) (table : LiteralTable) :
    IsUnused (Placeholder.saltOfSize size) (veil (hide kind before offset table marks).1) :=
  fun stemKind hstem => hunused stemKind ((wordsWithin_veil_hide kind marks before offset table).anywhere
    _ (Placeholder.isWord_stem stemKind size) hstem)

/-! ## A masked text -/

/-- What holds of the marks of a text and the table of its holes after every pass. -/
structure IsMasked (scope : Scope) (table : LiteralTable) (marks : List Mark) : Prop where
  reading : IsReading scope marks
  isolated : IsIsolated none marks
  numbered : table.IsNumbered
  known : AreKnown table marks
  unused : IsUnused table.salt (veil marks)

theorem IsMasked.right {table : LiteralTable} (hmasked : IsMasked scope table (marks ++ rest))
    (hclosed : ∀ kind char, unclosed kind char ∉ marks) : IsMasked scope table rest where
  reading := hmasked.reading.right hclosed
  isolated := by
    obtain ⟨after, hafter⟩ := hmasked.isolated.right
    exact hafter.change (hmasked.reading.right hclosed).isProper (Or.inl rfl)
  numbered := hmasked.numbered
  known := (areKnown_append.mp hmasked.known).2
  unused := by
    apply hmasked.unused.of_isInfix
    rw [veil_append]
    exact (List.suffix_append _ _).isInfix

theorem IsMasked.extend {earlier later : LiteralTable} (hmasked : IsMasked scope earlier marks)
    (hextends : Extends earlier later) : IsMasked scope later marks where
  reading := hmasked.reading
  isolated := hmasked.isolated
  numbered := hextends.numbered hmasked.numbered
  known := hmasked.known.extend hextends
  unused := by
    rw [LiteralTable.salt, hextends.saltSize]
    exact hmasked.unused

/-- A pass keeps the text masked, with one kind of literal less to look for. -/
theorem IsMasked.hide {rule : RegionRule} {table : LiteralTable}
    (hmasked : IsMasked scope table marks) (hseeks : Seeks rule scope) :
    IsMasked (scope.without rule.kind) (Mark.hide rule.kind none 0 table marks).2
      (Mark.hide rule.kind none 0 table marks).1 where
  reading := isReading_hide hseeks hmasked.reading none 0 table
  isolated := isIsolated_hide hmasked.reading hmasked.isolated 0 table
  numbered := (extends_hide rule.kind marks none 0 table).numbered hmasked.numbered
  known := areKnown_hide hmasked.numbered hmasked.known none 0
  unused := by
    rw [LiteralTable.salt, (extends_hide rule.kind marks none 0 table).saltSize]
    exact isUnused_veil_hide hmasked.unused none 0 table

theorem isIsolated_ofSegment (found : List Segment) (before : Option Char) :
    IsIsolated before (found.map ofSegment) := by
  induction found generalizing before with
  | nil => trivial
  | cons segment found ih => cases segment <;> exact ih _

theorem veil_ofSegment (found : List Segment) :
    veil (found.map ofSegment) = found.flatMap Segment.text := by
  induction found with
  | nil => rfl
  | cons segment found ih =>
      rw [List.flatMap_cons, ← ih]
      cases segment <;> rfl

/-- A text that has been read, before any pass. -/
theorem isMasked_forSource (source : List Char) :
    IsMasked .all (LiteralTable.forSource source) ((segments .all source).map ofSegment) where
  reading := isReading_ofSegment (reads_segments .all source)
  isolated := isIsolated_ofSegment _ none
  numbered := LiteralTable.isNumbered_forSource source
  known name value hmem := by
    obtain ⟨segment, -, heq⟩ := List.mem_map.mp hmem
    cases segment <;> exact Mark.noConfusion heq
  unused := by
    rw [veil_ofSegment, (reads_segments .all source).flatMap_text]
    exact LiteralTable.isUnused_forSource source

end ChuckLayout.Mark
