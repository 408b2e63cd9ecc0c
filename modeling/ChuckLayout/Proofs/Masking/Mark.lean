import ChuckLayout.Literal.Masking
import ChuckLayout.Proofs.Masking.Numbering
import ChuckLayout.Proofs.Reading.Closers

/-!
# Marks of a masked text

A text between two passes is a list of marks: segments that stand there as they were read, and holes
where a pass has put a placeholder.  A pass turns the literals it looks for into holes and keeps
every other mark, and what is read of the other marks stays the same.
-/

namespace ChuckLayout

inductive Mark where
  | code (char : Char)
  | literal (kind : Literal.Kind) (text : List Char)
  | unclosed (kind : Literal.Kind) (char : Char)
  | hole (name value : List Char)
  deriving DecidableEq, Repr

namespace Mark

open Placeholder (IsUnused)
open Word (IsWord isWordChar separator)

def ofSegment : Segment → Mark
  | .code char => code char
  | .literal kind text => literal kind text
  | .unclosed kind char => unclosed kind char

def shown : Mark → List Char
  | code char | unclosed _ char => [char]
  | literal _ text => text
  | hole name _ => name

def showAll (marks : List Mark) : List Char :=
  marks.flatMap shown

/-- The text of a list of marks with a space in place of each hole. -/
def veil (marks : List Mark) : List Char :=
  marks.flatMap fun
    | hole _ _ => [' ']
    | mark => mark.shown

def codes (text : List Char) : List Mark :=
  text.map code

/-- The marks are what reading their text in the scope finds, holes read as code. -/
def IsReading (scope : Scope) : List Mark → Prop
  | [] => True
  | code char :: rest =>
      scope.opening? char (showAll rest).head? = none ∧ IsReading scope rest
  | literal kind text :: rest =>
      (∃ char tail, text = char :: tail ∧
        scope.opening? char (tail ++ showAll rest).head? = some kind) ∧
      Segment.literalAt? (text ++ showAll rest) kind = some text ∧ IsReading scope rest
  | unclosed kind char :: rest =>
      scope.opening? char (showAll rest).head? = some kind ∧
      Segment.literalAt? (char :: showAll rest) kind = none ∧ IsReading (scope.without kind) rest
  | hole name _ :: rest => IsWord name ∧ name ≠ [] ∧ IsReading scope rest

/-- No hole touches a word character or another hole.  `before` is the last character before the
marks. -/
def IsIsolated (before : Option Char) : List Mark → Prop
  | [] => True
  | hole name _ :: rest =>
      separator before = [] ∧ separator (showAll rest).head? = [] ∧
        IsIsolated (name.getLast?.or before) rest
  | mark :: rest => IsIsolated (mark.shown.getLast?.or before) rest

def AreKnown (table : LiteralTable) (marks : List Mark) : Prop :=
  ∀ name value, hole name value ∈ marks → table.Knows name value

def keep (mark : Mark) (hidden : List Mark × LiteralTable) : List Mark × LiteralTable :=
  (mark :: hidden.1, hidden.2)

/-- Turns the literals of one kind into holes, as a pass does; what is never closed is code to the
passes that follow.  `before` is the last character written so far and `offset` the number of bytes
before the first mark. -/
def hide (kind : Literal.Kind) (before : Option Char) (offset : Nat) :
    LiteralTable → List Mark → List Mark × LiteralTable
  | table, [] => ([], table)
  | table, code char :: rest =>
      keep (code char) (hide kind (some char) (offset + char.utf8Size) table rest)
  | table, unclosed other char :: rest =>
      keep (if other = kind then code char else unclosed other char)
        (hide kind (some char) (offset + char.utf8Size) table rest)
  | table, hole name value :: rest =>
      keep (hole name value)
        (hide kind (name.getLast?.or before) (offset + Units.utf8Length name) table rest)
  | table, literal other text :: rest =>
      if other = kind then
        let lead := separator before
        let name := table.nextPlaceholder kind
        let trail := separator (showAll rest).head?
        let hidden := hide kind (lead ++ name ++ trail).getLast? (offset + Units.utf8Length text)
          (table.add kind offset text) rest
        (codes lead ++ hole name text :: codes trail ++ hidden.1, hidden.2)
      else
        keep (literal other text)
          (hide kind (text.getLast?.or before) (offset + Units.utf8Length text) table rest)

/-! ## The pass and its marks -/

@[simp]
theorem showAll_nil : showAll [] = [] := rfl

@[simp]
theorem showAll_cons (mark : Mark) (rest : List Mark) :
    showAll (mark :: rest) = mark.shown ++ showAll rest := rfl

@[simp]
theorem showAll_append (front back : List Mark) :
    showAll (front ++ back) = showAll front ++ showAll back :=
  List.flatMap_append

@[simp]
theorem showAll_codes (text : List Char) : showAll (codes text) = text := by
  simp [showAll, codes, shown, List.flatMap_map]

/-- As long as nothing is hidden, marks show the text that was read. -/
theorem showAll_ofSegment (found : List Segment) :
    showAll (found.map ofSegment) = found.flatMap Segment.text := by
  induction found with
  | nil => rfl
  | cons segment found ih =>
      rw [List.map_cons, showAll_cons, ih, List.flatMap_cons]
      cases segment <;> rfl

theorem isReading_ofSegment {scope : Scope} {text : List Char} {found : List Segment}
    (hreads : Reads scope text found) : IsReading scope (found.map ofSegment) := by
  induction hreads with
  | done => trivial
  | code hopening hrest ih =>
      refine ⟨?_, ih⟩
      rwa [showAll_ofSegment, hrest.flatMap_text]
  | literal hopening hliteral hrest ih =>
      refine ⟨⟨_, _, rfl, ?_⟩, ?_, ih⟩
      · rwa [showAll_ofSegment, hrest.flatMap_text]
      · rwa [showAll_ofSegment, hrest.flatMap_text]
  | unclosed hopening hliteral hrest ih =>
      refine ⟨?_, ?_, ih⟩
      · rwa [showAll_ofSegment, hrest.flatMap_text]
      · rwa [showAll_ofSegment, hrest.flatMap_text]

theorem hide_literal_self (kind : Literal.Kind) (text : List Char) (rest : List Mark)
    (before : Option Char) (offset : Nat) (table : LiteralTable) :
    hide kind before offset table (literal kind text :: rest) =
      let name := table.nextPlaceholder kind
      let trail := separator (showAll rest).head?
      let hidden := hide kind (separator before ++ name ++ trail).getLast?
        (offset + Units.utf8Length text) (table.add kind offset text) rest
      (codes (separator before) ++ hole name text :: (codes trail ++ hidden.1), hidden.2) := by
  rw [hide, if_pos rfl]
  simp

/-- A pass for a kind that is ignored finds nothing. -/
theorem hide_eq_self {kind : Literal.Kind} {scope : Scope} {marks : List Mark}
    (hignores : scope.Ignores kind) (hreading : IsReading scope marks) (before : Option Char)
    (offset : Nat) (table : LiteralTable) :
    hide kind before offset table marks = (marks, table) := by
  induction marks generalizing scope before offset with
  | nil => rfl
  | cons mark rest ih =>
      cases mark with
      | code char => rw [hide, ih hignores hreading.2, keep]
      | hole name value => rw [hide, ih hignores hreading.2.2, keep]
      | unclosed other char =>
          have hother : other ≠ kind := by
            rintro rfl
            exact hignores.opening?_ne _ _ hreading.1
          rw [hide, ih (hignores.without other) hreading.2.2, keep, if_neg hother]
      | literal other text =>
          have hother : other ≠ kind := by
            rintro rfl
            obtain ⟨char, tail, -, hopening⟩ := hreading.1
            exact hignores.opening?_ne _ _ hopening
          rw [hide, if_neg hother, ih hignores hreading.2.2, keep]

variable {rule : RegionRule} {scope : Scope} {marks : List Mark}

theorem maskTiles_plain {kind : Literal.Kind} {char : Char} {rest : List Char}
    (hleading : Tile.leading rule char rest = .plain char) (before : Option Char) (offset : Nat)
    (table : LiteralTable) :
    LiteralTable.maskTiles kind before offset table (tiles rule (char :: rest)) =
      let masked := LiteralTable.maskTiles kind (some char) (offset + char.utf8Size) table
        (tiles rule rest)
      ⟨char :: masked.text, masked.table⟩ := by
  rw [tiles_of_leading hleading rest rfl]
  rfl

/-- Nothing that a pass looks for starts with a word character. -/
theorem leading_of_wordChar (hseeks : Seeks rule scope) {char : Char} (hchar : isWordChar char)
    (rest : List Char) : Tile.leading rule char rest = .plain char := by
  apply Tile.leading_of_code hseeks
  rw [Scope.opening?_eq_none_iff]
  refine ⟨?_, ?_, ?_⟩ <;> rintro ⟨rfl, -⟩ <;> exact absurd hchar (by decide)

/-- A pass walks over a word without taking notice. -/
theorem maskTiles_word (hseeks : Seeks rule scope) {name : List Char} (hname : IsWord name)
    (rest : List Char) (before : Option Char) (offset : Nat) (table : LiteralTable) :
    LiteralTable.maskTiles rule.kind before offset table (tiles rule (name ++ rest)) =
      let masked := LiteralTable.maskTiles rule.kind (name.getLast?.or before)
        (offset + Units.utf8Length name) table (tiles rule rest)
      ⟨name ++ masked.text, masked.table⟩ := by
  induction name generalizing before offset with
  | nil => rfl
  | cons char name ih =>
      rw [List.cons_append,
        maskTiles_plain (leading_of_wordChar hseeks (hname char List.mem_cons_self) (name ++ rest)),
        ih fun other hother => hname other (List.mem_cons_of_mem _ hother)]
      cases name <;> simp [Units.utf8Length, Nat.add_assoc, List.getLast?_cons]

theorem maskTiles_passedOver {kind : Literal.Kind} {char : Char} {rest text : List Char}
    (hleading : Tile.leading rule char rest = .passedOver text) (later : List Char)
    (htext : char :: rest = text ++ later) (before : Option Char) (offset : Nat) (table : LiteralTable) :
    LiteralTable.maskTiles kind before offset table (tiles rule (char :: rest)) =
      let masked := LiteralTable.maskTiles kind (text.getLast?.or before)
        (offset + Units.utf8Length text) table (tiles rule later)
      ⟨text ++ masked.text, masked.table⟩ := by
  rw [tiles_of_leading hleading later htext]
  rfl

/-- Nothing is masked from a literal on that is never closed. -/
theorem maskTiles_open {kind : Literal.Kind} {char : Char} {rest : List Char}
    (hleading : Tile.leading rule char rest = .openRegion (char :: rest) ∨
      Tile.leading rule char rest = .openPassedOver (char :: rest))
    (before : Option Char) (offset : Nat) (table : LiteralTable) :
    LiteralTable.maskTiles kind before offset table (tiles rule (char :: rest)) =
      ⟨char :: rest, table⟩ := by
  rcases hleading with hleading | hleading
  all_goals
    rw [tiles_of_leading hleading [] (by simp [Tile.text]), tiles_nil]
    simp [LiteralTable.maskTiles, Tile.text]

theorem utf8Length_append (front back : List Char) :
    Units.utf8Length (front ++ back) = Units.utf8Length front + Units.utf8Length back := by
  induction front with
  | nil => simp [Units.utf8Length]
  | cons char front ih => simp [Units.utf8Length, ih, Nat.add_assoc]

/-- A line comment is passed over, and with it the line break that ends it. -/
theorem tiles_lineComment (hseeks : Seeks rule scope) {char : Char} {tail rest : List Char}
    (hopening : scope.opening? char (tail ++ rest).head? = some .lineComment)
    (hliteral : Segment.literalAt? (char :: tail ++ rest) .lineComment = some (char :: tail)) :
    rest = [] ∧ tiles rule (char :: tail ++ rest) = [.passedOver (char :: tail)] ∨
      ∃ later, tiles rule rest = .plain '\n' :: tiles rule later ∧
        tiles rule (char :: tail ++ rest) =
          .passedOver (char :: tail ++ ['\n']) :: tiles rule later := by
  have hleading := Tile.leading_of_lineComment hseeks hopening
  have htake : (char :: (tail ++ rest)).takeWhile (· != '\n') = char :: tail := by
    simpa [Segment.literalAt?] using hliteral
  obtain ⟨hfeed, hrest⟩ := Segment.literalAt?_lineComment_iff.mp hliteral
  rw [htake] at hleading
  cases rest with
  | nil =>
      have hnone : '\n' ∉ tail ++ [] := by
        simpa using fun hmem => hfeed (List.mem_cons_of_mem _ hmem)
      rw [if_neg hnone, List.append_nil, List.append_nil] at hleading
      rw [List.append_nil, tiles_of_leading hleading [] (by simp [Tile.text]), tiles_nil]
      exact Or.inl ⟨rfl, rfl⟩
  | cons feed later =>
      obtain rfl : feed = '\n' := by simpa using hrest
      rw [if_pos (by simp)] at hleading
      have hplain : Tile.leading rule '\n' later = .plain '\n' := by
        apply Tile.leading_of_code hseeks
        simp [Scope.opening?]
      refine Or.inr ⟨later, tiles_of_leading hplain later rfl, ?_⟩
      exact tiles_of_leading hleading later (by simp [Tile.text])

/-- The line break that ends a line comment is passed over as if it stood alone. -/
theorem maskTiles_lineComment (hseeks : Seeks rule scope) {char : Char} {tail rest : List Char}
    (hopening : scope.opening? char (tail ++ rest).head? = some .lineComment)
    (hliteral : Segment.literalAt? (char :: tail ++ rest) .lineComment = some (char :: tail))
    (before : Option Char) (offset : Nat) (table : LiteralTable) :
    LiteralTable.maskTiles rule.kind before offset table (tiles rule (char :: tail ++ rest)) =
      let masked := LiteralTable.maskTiles rule.kind ((char :: tail).getLast?.or before)
        (offset + Units.utf8Length (char :: tail)) table (tiles rule rest)
      ⟨char :: tail ++ masked.text, masked.table⟩ := by
  rcases tiles_lineComment hseeks hopening hliteral with ⟨rfl, htiles⟩ | ⟨later, hrest, htiles⟩
  · rw [htiles, tiles_nil]
    rfl
  · have hlast : (char :: (tail ++ ['\n'])).getLast? = some '\n' :=
      List.getLast?_concat (l := char :: tail)
    rw [htiles, hrest]
    simp [LiteralTable.maskTiles, Tile.text, hlast, utf8Length_append, Units.utf8Length,
      Nat.add_assoc]

/-- A pass meets literals of its own kind and line comments; only the pass for strings comes first
and meets block comments, too. -/
theorem kind_cases (hseeks : Seeks rule scope) {kind : Literal.Kind} {char : Char}
    {next : Option Char} (hopening : scope.opening? char next = some kind) :
    kind = rule.kind ∨ kind = .lineComment ∨
      rule = .string ∧ scope = .all ∧ kind = .blockComment := by
  cases hseeks with
  | strings => cases kind <;> simp [RegionRule.string]
  | blockComments =>
      cases kind with
      | string => exact absurd (Scope.opening?_eq_string_iff.mp hopening).2 (by decide)
      | blockComment => exact Or.inl rfl
      | lineComment => exact Or.inr (Or.inl rfl)

theorem kind_ne_lineComment (hseeks : Seeks rule scope) : rule.kind ≠ .lineComment := by
  cases hseeks <;> decide

theorem ne_lineComment_of_none {text : List Char} {kind : Literal.Kind}
    (hliteral : Segment.literalAt? text kind = none) : kind ≠ .lineComment := by
  rintro rfl
  simp [Segment.literalAt?] at hliteral

/-- Nothing is hidden from a literal on that is never closed. -/
theorem hide_unclosed (hseeks : Seeks rule scope) {kind : Literal.Kind} {char : Char}
    (hreading : IsReading scope (unclosed kind char :: marks)) (before : Option Char) (offset : Nat)
    (table : LiteralTable) :
    hide rule.kind before offset table (unclosed kind char :: marks) =
      ((if kind = rule.kind then code char else unclosed kind char) :: marks, table) := by
  obtain ⟨hopening, hliteral, hrest⟩ := hreading
  have hne := ne_lineComment_of_none hliteral
  have hignores : (scope.without kind).Ignores rule.kind := by
    rcases kind_cases hseeks hopening with rfl | rfl | ⟨rfl, rfl, rfl⟩
    · exact Scope.ignores_without hne
    · exact absurd rfl hne
    · exact Scope.noConfusion
  rw [hide, hide_eq_self hignores hrest, keep]

/-- A pass turns the literals that it looks for into holes. -/
theorem maskTiles_tiles (hseeks : Seeks rule scope) (hreading : IsReading scope marks)
    (before : Option Char) (offset : Nat) (table : LiteralTable) :
    LiteralTable.maskTiles rule.kind before offset table (tiles rule (showAll marks)) =
      ⟨showAll (hide rule.kind before offset table marks).1,
        (hide rule.kind before offset table marks).2⟩ := by
  induction marks generalizing before offset table with
  | nil => rw [showAll_nil, tiles_nil]; rfl
  | cons mark rest ih =>
      cases mark with
      | code char =>
          have hplain := Tile.leading_of_code hseeks hreading.1
          rw [showAll_cons, shown, List.singleton_append, maskTiles_plain hplain, ih hreading.2]
          rfl
      | hole name value =>
          rw [showAll_cons, shown, maskTiles_word hseeks hreading.1, ih hreading.2.2]
          rfl
      | unclosed kind char =>
          have hopen : Tile.leading rule char (showAll rest) = .openRegion (char :: showAll rest) ∨
              Tile.leading rule char (showAll rest) = .openPassedOver (char :: showAll rest) := by
            obtain ⟨hopening, hliteral, -⟩ := hreading
            rcases kind_cases hseeks hopening with rfl | rfl | ⟨rfl, rfl, rfl⟩
            · rw [Tile.leading_of_region hseeks hopening, hliteral]
              exact Or.inl rfl
            · exact absurd rfl (ne_lineComment_of_none hliteral)
            · rw [Tile.leading_of_blockComment hopening, hliteral]
              exact Or.inr rfl
          rw [hide_unclosed hseeks hreading, showAll_cons, shown, List.singleton_append,
            maskTiles_open hopen]
          split <;> simp [shown]
      | literal kind text =>
          obtain ⟨⟨char, tail, rfl, hopening⟩, hliteral, hrest⟩ := hreading
          rw [showAll_cons, shown]
          rcases kind_cases hseeks hopening with rfl | rfl | ⟨rfl, rfl, rfl⟩
          · have hleading := Tile.leading_of_region hseeks hopening
            rw [← List.cons_append, hliteral] at hleading
            rw [List.cons_append, tiles_of_leading hleading _ rfl, LiteralTable.maskTiles, head?_tiles,
              ih hrest, hide, if_pos rfl]
            simp [shown]
          · rw [maskTiles_lineComment hseeks hopening hliteral, ih hrest, hide,
              if_neg (kind_ne_lineComment hseeks).symm]
            rfl
          · have hleading := Tile.leading_of_blockComment hopening
            rw [← List.cons_append, hliteral] at hleading
            rw [List.cons_append, maskTiles_passedOver hleading _ rfl, ih hrest, hide,
              if_neg (by decide)]
            rfl

/-! ## What is read of the hidden marks -/

theorem isWord_nextPlaceholder (table : LiteralTable) (kind : Literal.Kind) :
    IsWord (table.nextPlaceholder kind) :=
  Placeholder.isWord_numbered kind table.saltSize _

theorem nextPlaceholder_ne_nil (table : LiteralTable) (kind : Literal.Kind) :
    table.nextPlaceholder kind ≠ [] := by
  simp [LiteralTable.nextPlaceholder, Placeholder.stem_ne_nil]

theorem separator_cases (char : Option Char) :
    separator char = [] ∧ (char.any isWordChar) = false ∨
      separator char = [' '] ∧ (char.any isWordChar) = true := by
  unfold separator
  cases hchar : char.any isWordChar <;> simp

/-- Only a literal at the front changes the first character, and then it is a space, or a word
character that follows no other. -/
theorem head?_hide (kind : Literal.Kind) (hreading : IsReading scope marks) (before : Option Char)
    (offset : Nat) (table : LiteralTable) :
    (showAll (hide kind before offset table marks).1).head? = (showAll marks).head? ∨
      (∃ char, (showAll marks).head? = some char ∧ (char = '/' ∨ char = '\"')) ∧
      ((showAll (hide kind before offset table marks).1).head? = some ' ' ∨
        separator before = [] ∧
          ((showAll (hide kind before offset table marks).1).head?.any isWordChar) = true) := by
  cases marks with
  | nil => exact Or.inl rfl
  | cons mark rest =>
      cases mark with
      | code char => exact Or.inl rfl
      | unclosed other char =>
          left
          rw [hide, keep]
          split <;> rfl
      | hole name value =>
          left
          obtain ⟨first, tail, rfl⟩ := List.exists_cons_of_ne_nil hreading.2.1
          rfl
      | literal other text =>
          obtain ⟨⟨char, tail, rfl, hopening⟩, -, -⟩ := hreading
          rw [hide]
          split
          · rename_i hkind
            right
            refine ⟨⟨char, rfl, Scope.eq_of_opening? hopening⟩, ?_⟩
            obtain ⟨first, name, hname⟩ :=
              List.exists_cons_of_ne_nil (nextPlaceholder_ne_nil table kind)
            have hfirst : isWordChar first :=
              isWord_nextPlaceholder table kind first (by simp [hname])
            rcases separator_cases before with ⟨hlead, -⟩ | ⟨hlead, -⟩
            · right
              simp [hlead, hname, shown, hfirst]
            · left
              simp [hlead, shown, codes]
          · exact Or.inl rfl

/-- A character that opens nothing still opens nothing when a space or a word comes to stand after
it. -/
theorem opening?_without_eq_none {kind : Literal.Kind} {char : Char} {next next' : Option Char}
    (hopening : scope.opening? char next = none)
    (hnext : next' = next ∨ next' = some ' ' ∨ (next'.any isWordChar) = true) :
    (scope.without kind).opening? char next' = none := by
  obtain ⟨hline, hblock, hquote⟩ := Scope.opening?_eq_none_iff.mp hopening
  rw [Scope.opening?_eq_none_iff]
  have hall : scope.without kind = .all → scope = .all := by
    cases scope <;> cases kind <;> simp [Scope.without]
  have hlines : scope.without kind ≠ .lineComments → scope ≠ .lineComments := by
    cases scope <;> cases kind <;> simp [Scope.without]
  refine ⟨?_, ?_, fun hopens => hquote ⟨hopens.1, hall hopens.2⟩⟩
  · rintro ⟨rfl, rfl⟩
    rcases hnext with rfl | hnext | hnext
    · exact hline ⟨rfl, rfl⟩
    · simp at hnext
    · exact absurd hnext (by decide)
  · rintro ⟨rfl, rfl, hscope⟩
    rcases hnext with rfl | hnext | hnext
    · exact hblock ⟨rfl, rfl, hlines hscope⟩
    · simp at hnext
    · exact absurd hnext (by decide)

theorem opening?_without_self {kind : Literal.Kind} (hkind : kind ≠ .lineComment) {char : Char}
    {next : Option Char} (hopening : scope.opening? char next = some kind) :
    (scope.without kind).opening? char next = none := by
  rw [Scope.opening?_eq_none_iff]
  cases kind with
  | lineComment => exact absurd rfl hkind
  | blockComment =>
      obtain ⟨rfl, rfl, -⟩ := Scope.opening?_eq_blockComment_iff.mp hopening
      simp [Scope.without]
  | string =>
      obtain ⟨rfl, rfl⟩ := Scope.opening?_eq_string_iff.mp hopening
      simp [Scope.without]

theorem isReading_codes_spaces {text : List Char} (htext : ∀ char ∈ text, char = ' ')
    (hreading : IsReading scope marks) : IsReading scope (codes text ++ marks) := by
  induction text with
  | nil => exact hreading
  | cons char text ih =>
      refine ⟨?_, ih fun other hother => htext other (List.mem_cons_of_mem _ hother)⟩
      rw [htext char List.mem_cons_self]
      simp [Scope.opening?]

theorem eq_space_of_mem_separator {before : Option Char} :
    ∀ char ∈ separator before, char = ' ' := by
  rcases separator_cases before with ⟨hlead, -⟩ | ⟨hlead, -⟩ <;> simp [hlead]

/-- After a pass the text reads as it did, with holes for the literals of its kind, which are not
looked for any more. -/
theorem isReading_hide (hseeks : Seeks rule scope) (hreading : IsReading scope marks)
    (before : Option Char) (offset : Nat) (table : LiteralTable) :
    IsReading (scope.without rule.kind) (hide rule.kind before offset table marks).1 := by
  induction marks generalizing before offset table with
  | nil => trivial
  | cons mark rest ih =>
      cases mark with
      | code char =>
          refine ⟨opening?_without_eq_none hreading.1 ?_, ih hreading.2 _ _ _⟩
          rcases head?_hide rule.kind hreading.2 (some char) (offset + char.utf8Size) table
            with hhead | ⟨-, hhead | ⟨-, hhead⟩⟩
          · exact Or.inl hhead
          · exact Or.inr (Or.inl hhead)
          · exact Or.inr (Or.inr hhead)
      | hole name value => exact ⟨hreading.1, hreading.2.1, ih hreading.2.2 _ _ _⟩
      | unclosed kind char =>
          rw [hide_unclosed hseeks hreading]
          obtain ⟨hopening, hliteral, hrest⟩ := hreading
          rcases kind_cases hseeks hopening with rfl | rfl | ⟨rfl, rfl, rfl⟩
          · rw [if_pos rfl]
            exact ⟨opening?_without_self (kind_ne_lineComment hseeks) hopening, hrest⟩
          · exact absurd rfl (ne_lineComment_of_none hliteral)
          · obtain ⟨rfl, hnext, -⟩ := Scope.opening?_eq_blockComment_iff.mp hopening
            exact ⟨Scope.opening?_eq_blockComment_iff.mpr ⟨rfl, hnext, by decide⟩, hliteral, hrest⟩
      | literal kind text =>
          obtain ⟨⟨char, tail, rfl, hopening⟩, hliteral, hrest⟩ := hreading
          obtain ⟨next, later, rfl⟩ :=
            List.exists_cons_of_ne_nil (Segment.tail_ne_nil hopening hliteral)
          rcases kind_cases hseeks hopening with rfl | rfl | ⟨rfl, rfl, rfl⟩
          · rw [hide_literal_self]
            refine isReading_codes_spaces eq_space_of_mem_separator ?_
            exact ⟨isWord_nextPlaceholder table _, nextPlaceholder_ne_nil table _,
              isReading_codes_spaces eq_space_of_mem_separator (ih hrest _ _ _)⟩
          · rw [hide, if_neg (kind_ne_lineComment hseeks).symm]
            obtain ⟨hslash, hnext⟩ := Scope.opening?_eq_lineComment_iff.mp hopening
            refine ⟨⟨char, _, rfl, Scope.opening?_eq_lineComment_iff.mpr ⟨hslash, hnext⟩⟩, ?_,
              ih hrest _ _ _⟩
            obtain ⟨hfeed, hend⟩ := Segment.literalAt?_lineComment_iff.mp hliteral
            refine Segment.literalAt?_lineComment_iff.mpr ⟨hfeed, ?_⟩
            -- A line comment ends at a line break, so no literal follows it.
            rcases head?_hide rule.kind hrest ((char :: next :: later).getLast?.or before)
              (offset + Units.utf8Length (char :: next :: later)) table
              with hhead | ⟨⟨first, hfirst, hopener⟩, -⟩
            · rw [hhead]
              exact hend
            · rw [hfirst] at hend
              rcases hopener with rfl | rfl <;> simp at hend
          · rw [hide, if_neg (by decide)]
            obtain ⟨hslash, hnext, -⟩ := Scope.opening?_eq_blockComment_iff.mp hopening
            exact ⟨⟨char, _, rfl,
              Scope.opening?_eq_blockComment_iff.mpr ⟨hslash, hnext, by decide⟩⟩,
              Segment.literalAt?_append (by decide) hliteral _, ih hrest _ _ _⟩

end Mark

end ChuckLayout
