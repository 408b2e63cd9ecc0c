import ChuckLayout.Comparison
import ChuckLayout.Proofs.Text.Squeeze

/-!
# A report hides no difference

The lines of two texts are compared place by place.  The differences that are found turn the expected
lines into the actual ones, and they can be read off a report: a heading tells how many lines go with
it, whatever these lines look like.
-/

namespace ChuckLayout.Comparison

/-! ## Visible blanks -/

/-- The text has none of the characters that show blanks. -/
def IsPlain (text : List Char) : Prop :=
  '·' ∉ text ∧ '→' ∉ text

/-- The blank that a character shows, or the character itself. -/
def hiddenChar (char : Char) : Char :=
  if char = '·' then ' ' else if char = '→' then '\t' else char

theorem hiddenChar_visibleChar {char : Char} (hdot : char ≠ '·') (harrow : char ≠ '→') :
    hiddenChar (visibleChar char) = char := by
  rw [visibleChar]
  split
  · rename_i hspace
    exact hspace.symm
  split
  · rename_i htab
    exact htab.symm
  · rw [hiddenChar, if_neg hdot, if_neg harrow]

theorem map_hiddenChar_visible {text : List Char} (hplain : IsPlain text) :
    (visible text).map hiddenChar = text := by
  rw [visible, List.map_map]
  apply (List.map_congr_left fun char hchar => ?_).trans (List.map_id text)
  exact hiddenChar_visibleChar (ne_of_mem_of_not_mem hchar hplain.1)
    (ne_of_mem_of_not_mem hchar hplain.2)

/-- Showing the blanks of plain texts does not make different texts look the same. -/
theorem visible_inj {first second : List Char} (hfirst : IsPlain first) (hsecond : IsPlain second)
    (hsame : visible first = visible second) : first = second := by
  rw [← map_hiddenChar_visible hfirst, hsame, map_hiddenChar_visible hsecond]

theorem lineFeed_not_mem_visible {text : List Char} (hfeed : '\n' ∉ text) : '\n' ∉ visible text := by
  intro hmem
  obtain ⟨char, hchar, hshown⟩ := List.mem_map.mp hmem
  rw [visibleChar] at hshown
  split at hshown
  · exact absurd hshown (by decide)
  split at hshown
  · exact absurd hshown (by decide)
  · exact hfeed (hshown ▸ hchar)

theorem isInfix_of_mem_intercalate {line gap : List Char} {lines : List (List Char)}
    (hline : line ∈ lines) : line <:+: gap.intercalate lines := by
  induction lines with
  | nil => exact absurd hline List.not_mem_nil
  | cons first rest ih =>
      cases rest with
      | nil =>
          rw [List.mem_singleton.mp hline, List.intercalate_singleton]
      | cons second rest =>
          rw [List.intercalate_cons_cons]
          rcases List.mem_cons.mp hline with rfl | hlater
          · rw [List.append_assoc]
            exact (List.prefix_append _ _).isInfix
          · exact (ih hlater).trans (List.suffix_append _ _).isInfix

theorem IsPlain.of_mem_split {text line : List Char} (hplain : IsPlain text)
    (hline : line ∈ Line.split text) : IsPlain line := by
  have hinside : line ⊆ text := by
    rw [← Line.join_split text]
    exact (isInfix_of_mem_intercalate hline).subset
  exact ⟨fun hdot => hplain.1 (hinside hdot), fun harrow => hplain.2 (hinside harrow)⟩

/-! ## Differences place by place -/

namespace Difference

def number : Difference → Nat
  | changed number _ _ => number
  | missing number _ => number
  | extra number _ => number

end Difference

/-- What is said about the lines at one place; nothing where neither text has a line. -/
def differenceAt? (number : Nat) :
    Option (List Char) → Option (List Char) → Option (List Difference)
  | some expected, some actual =>
      some (if expected = actual then [] else [.changed number expected actual])
  | some expected, none => some [.missing number expected]
  | none, some actual => some [.extra number actual]
  | none, none => none

/-- Compares two lists of lines at every place up to the end of the longer one. -/
def compareByPlace? (number : Nat) (expected actual : List (List Char)) : Option (List Difference) :=
  ((List.range (max expected.length actual.length)).mapM fun place =>
    differenceAt? (number + place) expected[place]? actual[place]?).map List.flatten

theorem max_length_eq {expected actual : List (List Char)} (hlines : expected ≠ [] ∨ actual ≠ []) :
    max expected.length actual.length = max expected.tail.length actual.tail.length + 1 := by
  rw [← List.length_pos_iff, ← List.length_pos_iff] at hlines
  rw [List.length_tail, List.length_tail]
  omega

/-- Comparing by place compares the first lines and goes on with the places after them. -/
theorem compareByPlace?_step (number : Nat) {expected actual : List (List Char)}
    (hlines : expected ≠ [] ∨ actual ≠ []) :
    compareByPlace? number expected actual =
      (differenceAt? number expected.head? actual.head?).bind fun first =>
        (compareByPlace? (number + 1) expected.tail actual.tail).map (first ++ ·) := by
  have hlater : ∀ place,
      differenceAt? (number + (place + 1)) expected[place + 1]? actual[place + 1]? =
        differenceAt? (number + 1 + place) expected.tail[place]? actual.tail[place]? := by
    intro place
    rw [List.getElem?_tail, List.getElem?_tail, Nat.add_right_comm, Nat.add_assoc]
  rw [compareByPlace?, max_length_eq hlines, List.range_succ_eq_map, List.mapM_cons, List.mapM_map]
  simp only [Function.comp_def, Nat.succ_eq_add_one, hlater, Nat.add_zero]
  rw [← List.head?_eq_getElem?, ← List.head?_eq_getElem?, compareByPlace?]
  cases differenceAt? number expected.head? actual.head? with
  | none => rfl
  | some first =>
      cases (List.range (max expected.tail.length actual.tail.length)).mapM fun place =>
        differenceAt? (number + 1 + place) expected.tail[place]? actual.tail[place]? <;> rfl

/-- The comparison never comes to a place where neither list has a line. -/
theorem compareByPlace?_eq (number : Nat) (expected actual : List (List Char)) :
    compareByPlace? number expected actual = some (differencesFrom number expected actual) := by
  fun_induction differencesFrom number expected actual with
  | case1 number => rfl
  | case2 number expected rest ih =>
      rw [compareByPlace?_step number (Or.inl (List.cons_ne_nil _ _)), List.tail_cons, List.tail_nil,
        ih]
      rfl
  | case3 number actual rest ih =>
      rw [compareByPlace?_step number (Or.inr (List.cons_ne_nil _ _)), List.tail_cons, List.tail_nil,
        ih]
      rfl
  | case4 number expectedRest actual actualRest later ih =>
      rw [compareByPlace?_step number (Or.inl (List.cons_ne_nil _ _)), List.tail_cons, List.tail_cons,
        ih]
      simp [differenceAt?, later]
  | case5 number expected expectedRest actual actualRest later hne ih =>
      rw [compareByPlace?_step number (Or.inl (List.cons_ne_nil _ _)), List.tail_cons, List.tail_cons,
        ih]
      simp [differenceAt?, hne, later]

/-- The places up to the end of the longer list at which the lines differ. -/
def unlikePlaces (expected actual : List (List Char)) : List Nat :=
  (List.range (max expected.length actual.length)).filter fun place =>
    expected[place]? ≠ actual[place]?

theorem unlikePlaces_step {expected actual : List (List Char)}
    (hlines : expected ≠ [] ∨ actual ≠ []) :
    unlikePlaces expected actual =
      (if expected.head? = actual.head? then [] else [0]) ++
        (unlikePlaces expected.tail actual.tail).map (· + 1) := by
  rw [unlikePlaces, max_length_eq hlines, List.range_succ_eq_map, List.filter_cons, List.filter_map,
    ← List.head?_eq_getElem?, ← List.head?_eq_getElem?, unlikePlaces]
  by_cases hhead : expected.head? = actual.head?
  · rw [if_pos hhead, if_neg (by simpa using hhead)]
    simp [Function.comp_def]
  · rw [if_neg hhead, if_pos (by simpa using hhead)]
    simp [Function.comp_def]

/-- The numbers of the differences are those of the places at which the lines differ. -/
theorem map_number_differencesFrom (number : Nat) (expected actual : List (List Char)) :
    (differencesFrom number expected actual).map Difference.number =
      (unlikePlaces expected actual).map (number + ·) := by
  fun_induction differencesFrom number expected actual with
  | case1 number => rfl
  | case2 number expected rest ih =>
      rw [unlikePlaces_step (Or.inl (List.cons_ne_nil _ _)), List.map_cons, ih]
      simp [Difference.number, Nat.add_assoc, Nat.add_comm 1]
  | case3 number actual rest ih =>
      rw [unlikePlaces_step (Or.inr (List.cons_ne_nil _ _)), List.map_cons, ih]
      simp [Difference.number, Nat.add_assoc, Nat.add_comm 1]
  | case4 number expectedRest actual actualRest later ih =>
      rw [unlikePlaces_step (Or.inl (List.cons_ne_nil _ _)), ih]
      simp [Nat.add_assoc, Nat.add_comm 1]
  | case5 number expected expectedRest actual actualRest later hne ih =>
      rw [unlikePlaces_step (Or.inl (List.cons_ne_nil _ _)), List.map_cons, ih]
      simp [Difference.number, hne, Nat.add_assoc, Nat.add_comm 1]

theorem le_number_of_mem {number : Nat} {expected actual : List (List Char)} {found : Difference}
    (hfound : found ∈ differencesFrom number expected actual) : number ≤ found.number := by
  have hnumber := List.mem_map_of_mem (f := Difference.number) hfound
  rw [map_number_differencesFrom, List.mem_map] at hnumber
  obtain ⟨place, -, hplace⟩ := hnumber
  omega

/-! ## Differences as a patch -/

namespace Difference

def actual? : Difference → Option (List Char)
  | changed _ _ actual => some actual
  | missing _ _ => none
  | extra _ actual => some actual

def lines : Difference → List (List Char)
  | changed _ expected actual => [expected, actual]
  | missing _ expected => [expected]
  | extra _ actual => [actual]

end Difference

/-- The expected lines from line `number` on, with the differences made. -/
def patchFrom (number : Nat) (found : List Difference) :
    List (List Char) → List (List Char)
  | [] => found.filterMap Difference.actual?
  | expected :: rest =>
      match found with
      | [] => expected :: rest
      | first :: later =>
          if first.number = number then
            match first.actual? with
            | some actual => actual :: patchFrom (number + 1) later rest
            | none => []
          else expected :: patchFrom (number + 1) (first :: later) rest

theorem patchFrom_nil (number : Nat) (expected : List (List Char)) :
    patchFrom number [] expected = expected := by
  cases expected <;> rfl

/-- The differences turn the expected lines into the actual ones. -/
theorem patchFrom_differencesFrom (number : Nat) (expected actual : List (List Char)) :
    patchFrom number (differencesFrom number expected actual) expected = actual := by
  fun_induction differencesFrom number expected actual with
  | case1 number => rfl
  | case2 number expected rest ih => exact if_pos rfl
  | case3 number actual rest ih =>
      rw [patchFrom] at ih ⊢
      rw [List.filterMap_cons, ih]
      rfl
  | case4 number expectedRest actual actualRest later ih =>
      cases hlater : later with
      | nil =>
          rw [patchFrom_nil]
          rw [show differencesFrom (number + 1) expectedRest actualRest = [] from hlater,
            patchFrom_nil] at ih
          rw [ih]
      | cons first others =>
          have hfirst : number + 1 ≤ first.number := le_number_of_mem (hlater ▸ List.mem_cons_self)
          rw [patchFrom, if_neg (by omega), ← hlater, ih]
  | case5 number expected expectedRest actual actualRest later hne ih =>
      rw [patchFrom, Difference.number, if_pos rfl]
      exact congrArg (actual :: ·) ih

/-- The differences, made in the expected text, give back the actual one. -/
theorem differences_inj {expected first second : List Char}
    (hsame : differences expected first = differences expected second) : first = second := by
  rw [← Line.join_split first, ← patchFrom_differencesFrom 1 (Line.split expected) (Line.split first),
    ← differences, hsame, differences, patchFrom_differencesFrom, Line.join_split]

theorem differences_eq_nil_iff {expected actual : List Char} :
    differences expected actual = [] ↔ expected = actual := by
  have hself : differences expected expected = [] := by
    rw [← List.map_eq_nil_iff (f := Difference.number), differences, map_number_differencesFrom]
    simp [unlikePlaces]
  exact ⟨fun hnone => differences_inj (hself.trans hnone.symm), fun heq => heq ▸ hself⟩

/-! ## Reading a report -/

namespace Difference

def note : Difference → String
  | changed _ _ _ => ""
  | missing _ _ => " missing"
  | extra _ _ => " extra"

theorem heading_eq (number : Nat) (note : String) :
    heading number note =
      "line ".toList ++ (Nat.toDigits 10 number ++ ':' :: note.toList) := by
  have hparts : heading number note =
      "line ".toList ++ Nat.toDigits 10 number ++ ":".toList ++ note.toList := rfl
  rw [hparts, List.append_assoc, List.append_assoc]
  rfl

theorem head?_expectedLine (line : List Char) : (expectedLine line).head? = some ' ' := rfl

theorem head?_actualLine (line : List Char) : (actualLine line).head? = some ' ' := rfl

/-- A difference is reported by its heading and then lines that begin with a space, as no heading
does. -/
theorem report_eq (found : Difference) :
    ∃ shown, found.report = heading found.number found.note :: shown ∧
      ∀ line ∈ shown, line.head? = some ' ' := by
  cases found <;> exact ⟨_, rfl, by simp [head?_expectedLine, head?_actualLine]⟩

end Difference

open Difference (heading heading_eq)

/-- The number and the note of a line that is a heading. -/
def readHeading? (line : List Char) : Option (Nat × List Char) :=
  if "line ".toList.isPrefixOf line then
    let numbered := line.drop "line ".toList.length
    some (Nat.ofDigitChars 10 (numbered.takeWhile Char.isDigit) 0, numbered.dropWhile Char.isDigit)
  else none

theorem readHeading?_heading (number : Nat) (note : String) :
    readHeading? (heading number note) = some (number, ':' :: note.toList) := by
  have hdigits : ∀ char ∈ Nat.toDigits 10 number, char.isDigit :=
    fun char hchar => Nat.isDigit_of_mem_toDigits (by decide) (by decide) hchar
  have hcolon : ':'.isDigit = false := by decide
  rw [readHeading?, heading_eq, if_pos (List.isPrefixOf_iff_prefix.mpr (List.prefix_append _ _)),
    List.drop_left]
  simp only [List.takeWhile_append_of_pos hdigits, List.dropWhile_append_of_pos hdigits]
  rw [List.takeWhile_cons_of_neg (by simp [hcolon]), List.dropWhile_cons_of_neg (by simp [hcolon]),
    List.append_nil, Nat.ofDigitChars_ten_toDigits]

theorem readHeading?_eq_none {line : List Char} (hline : line.head? = some ' ') :
    readHeading? line = none := by
  obtain ⟨rest, rfl⟩ := List.head?_eq_some_iff.mp hline
  rfl

theorem heading_inj {number other : Nat} {note others : String}
    (hsame : heading number note = heading other others) : number = other ∧ note = others := by
  have hread := congrArg readHeading? hsame
  rw [readHeading?_heading, readHeading?_heading, Option.some.injEq, Prod.mk.injEq, List.cons.injEq]
    at hread
  exact ⟨hread.1, String.toList_inj.mp hread.2.2⟩

/-- The numbers in the headings of a report. -/
def reportedNumbers (report : List Char) : List Nat :=
  (Line.split report).filterMap fun line => (readHeading? line).map Prod.fst

theorem filterMap_readHeading?_report (found : Difference) :
    found.report.filterMap (fun line => (readHeading? line).map Prod.fst) = [found.number] := by
  obtain ⟨shown, hreport, hshown⟩ := found.report_eq
  have hnone : shown.filterMap (fun line => (readHeading? line).map Prod.fst) = [] := by
    rw [List.filterMap_eq_nil_iff]
    intro line hline
    rw [readHeading?_eq_none (hshown line hline), Option.map_none]
  rw [hreport, List.filterMap_cons, readHeading?_heading, hnone]
  rfl

/-- What follows a heading belongs to it, whatever it looks like. -/
theorem report_append_inj {found other : Difference} {rest others : List (List Char)}
    (hfound : ∀ line ∈ found.lines, IsPlain line) (hother : ∀ line ∈ other.lines, IsPlain line)
    (hsame : found.report ++ rest = other.report ++ others) : found = other ∧ rest = others := by
  obtain ⟨shown, hreport, -⟩ := found.report_eq
  obtain ⟨shown', hreport', -⟩ := other.report_eq
  have hheading : heading found.number found.note = heading other.number other.note := by
    rw [hreport, hreport'] at hsame
    exact (List.cons.inj hsame).1
  obtain ⟨hnumber, hnote⟩ := heading_inj hheading
  cases found with
  | changed number expected actual =>
      cases other with
      | changed number' expected' actual' =>
          obtain ⟨hexpected, hactual⟩ := by simpa [Difference.lines] using hfound
          obtain ⟨hexpected', hactual'⟩ := by simpa [Difference.lines] using hother
          simp only [Difference.report, List.cons_append, List.nil_append, List.cons.injEq] at hsame
          obtain ⟨-, hsameExpected, hsameActual, hrest⟩ := hsame
          obtain rfl : number = number' := hnumber
          obtain rfl := visible_inj hexpected hexpected' (List.append_cancel_left hsameExpected)
          obtain rfl := visible_inj hactual hactual' (List.append_cancel_left hsameActual)
          exact ⟨rfl, hrest⟩
      | missing number' expected' => simp [Difference.note] at hnote
      | extra number' actual' => simp [Difference.note] at hnote
  | missing number expected =>
      cases other with
      | changed number' expected' actual' => simp [Difference.note] at hnote
      | missing number' expected' =>
          simp only [Difference.report, List.cons_append, List.nil_append, List.cons.injEq] at hsame
          obtain ⟨-, hsameExpected, hrest⟩ := hsame
          obtain rfl : number = number' := hnumber
          obtain rfl := visible_inj (hfound _ List.mem_cons_self) (hother _ List.mem_cons_self)
            (List.append_cancel_left hsameExpected)
          exact ⟨rfl, hrest⟩
      | extra number' actual' => simp [Difference.note] at hnote
  | extra number actual =>
      cases other with
      | changed number' expected' actual' => simp [Difference.note] at hnote
      | missing number' expected' => simp [Difference.note] at hnote
      | extra number' actual' =>
          simp only [Difference.report, List.cons_append, List.nil_append, List.cons.injEq] at hsame
          obtain ⟨-, hsameActual, hrest⟩ := hsame
          obtain rfl : number = number' := hnumber
          obtain rfl := visible_inj (hfound _ List.mem_cons_self) (hother _ List.mem_cons_self)
            (List.append_cancel_left hsameActual)
          exact ⟨rfl, hrest⟩

/-- Reports of differences that hold plain lines are the same only for the same differences. -/
theorem flatMap_report_inj {found others : List Difference}
    (hfound : ∀ first ∈ found, ∀ line ∈ first.lines, IsPlain line)
    (hothers : ∀ first ∈ others, ∀ line ∈ first.lines, IsPlain line)
    (hsame : found.flatMap Difference.report = others.flatMap Difference.report) :
    found = others := by
  have hne : ∀ (first : Difference) (rest : List Difference),
      (first :: rest).flatMap Difference.report ≠ [] := by
    intro first rest
    obtain ⟨shown, hreport, -⟩ := first.report_eq
    simp [hreport]
  induction found generalizing others with
  | nil =>
      cases others with
      | nil => rfl
      | cons first rest => exact absurd hsame.symm (hne first rest)
  | cons first rest ih =>
      cases others with
      | nil => exact absurd hsame (hne first rest)
      | cons other later =>
          obtain ⟨hfirst, hrest⟩ := List.forall_mem_cons.mp hfound
          obtain ⟨hother, hlater⟩ := List.forall_mem_cons.mp hothers
          obtain ⟨rfl, hsameRest⟩ := report_append_inj hfirst hother hsame
          rw [ih hrest hlater hsameRest]

theorem mem_of_mem_lines {number : Nat} {expected actual : List (List Char)} {found : Difference}
    (hfound : found ∈ differencesFrom number expected actual) :
    ∀ line ∈ found.lines, line ∈ expected ∨ line ∈ actual := by
  fun_induction differencesFrom number expected actual with
  | case1 number => exact absurd hfound List.not_mem_nil
  | case2 number expected rest ih =>
      rcases List.mem_cons.mp hfound with rfl | hlater
      · simp [Difference.lines]
      · exact fun line hline => (ih hlater line hline).imp_left (List.mem_cons_of_mem _)
  | case3 number actual rest ih =>
      rcases List.mem_cons.mp hfound with rfl | hlater
      · simp [Difference.lines]
      · exact fun line hline => (ih hlater line hline).imp_right (List.mem_cons_of_mem _)
  | case4 number expectedRest actual actualRest later ih =>
      exact fun line hline =>
        (ih hfound line hline).imp (List.mem_cons_of_mem _) (List.mem_cons_of_mem _)
  | case5 number expected expectedRest actual actualRest later hne ih =>
      rcases List.mem_cons.mp hfound with rfl | hlater
      · simp [Difference.lines]
      · exact fun line hline =>
          (ih hlater line hline).imp (List.mem_cons_of_mem _) (List.mem_cons_of_mem _)

theorem isPlain_of_mem_differences {expected actual : List Char} (hexpected : IsPlain expected)
    (hactual : IsPlain actual) :
    ∀ found ∈ differences expected actual, ∀ line ∈ found.lines, IsPlain line := by
  intro found hfound line hline
  rcases mem_of_mem_lines hfound line hline with hmem | hmem
  · exact hexpected.of_mem_split hmem
  · exact hactual.of_mem_split hmem

theorem lineFeed_not_mem_heading (number : Nat) {note : String} (hnote : '\n' ∉ note.toList) :
    '\n' ∉ heading number note := by
  have hdigits : '\n' ∉ Nat.toDigits 10 number := fun hmem =>
    absurd (Nat.isDigit_of_mem_toDigits (by decide) (by decide) hmem) (by decide)
  simp only [heading_eq, List.mem_append, List.mem_cons, not_or]
  exact ⟨by decide, hdigits, by decide, hnote⟩

theorem lineFeed_not_mem_report {found : Difference} (hlines : ∀ line ∈ found.lines, '\n' ∉ line) :
    ∀ line ∈ found.report, '\n' ∉ line := by
  have hshown : ∀ mark : String, '\n' ∉ mark.toList → ∀ line ∈ found.lines,
      '\n' ∉ mark.toList ++ visible line := by
    intro mark hmark line hline
    rw [List.mem_append, not_or]
    exact ⟨hmark, lineFeed_not_mem_visible (hlines line hline)⟩
  cases found with
  | changed number expected actual =>
      simp only [Difference.report, List.forall_mem_cons]
      exact ⟨lineFeed_not_mem_heading number (by decide),
        hshown "  - " (by decide) expected (by simp [Difference.lines]),
        hshown "  + " (by decide) actual (by simp [Difference.lines]), List.forall_mem_nil _⟩
  | missing number expected =>
      simp only [Difference.report, List.forall_mem_cons]
      exact ⟨lineFeed_not_mem_heading number (by decide),
        hshown "  - " (by decide) expected (by simp [Difference.lines]), List.forall_mem_nil _⟩
  | extra number actual =>
      simp only [Difference.report, List.forall_mem_cons]
      exact ⟨lineFeed_not_mem_heading number (by decide),
        hshown "  + " (by decide) actual (by simp [Difference.lines]), List.forall_mem_nil _⟩

theorem report?_eq_none_iff {expected actual : List Char} :
    report? expected actual = none ↔ expected = actual := by
  rw [report?]
  split <;> simp_all

/-- The lines of a report are those of its differences. -/
theorem split_report {expected actual report : List Char}
    (hreport : report? expected actual = some report) :
    Line.split report = (differences expected actual).flatMap Difference.report := by
  have hdiffer : expected ≠ actual := fun heq =>
    Option.some_ne_none _ (hreport.symm.trans (report?_eq_none_iff.mpr heq))
  rw [report?, if_neg hdiffer, Option.some.injEq] at hreport
  rw [← hreport]
  apply Line.split_join
  · intro line hline
    obtain ⟨found, hfound, hline⟩ := List.mem_flatMap.mp hline
    refine lineFeed_not_mem_report (fun shown hshown => ?_) line hline
    rcases mem_of_mem_lines hfound shown hshown with hmem | hmem
    · exact Blank.lineFeed_not_mem_split expected shown hmem
    · exact Blank.lineFeed_not_mem_split actual shown hmem
  · obtain ⟨first, rest, hfound⟩ :=
      List.exists_cons_of_ne_nil (mt differences_eq_nil_iff.mp hdiffer)
    obtain ⟨shown, hfirst, -⟩ := first.report_eq
    simp [hfound, hfirst]

/-- A report is made just for texts that are not equal.  The comparison goes over every place without
meeting one that neither text has; the numbers in the headings of the report are those of the lines
that differ; and two texts without the characters that show blanks have one report only if they are
equal. -/
theorem report?_hides_nothing (expected actual : List Char) :
    (report? expected actual = none ↔ expected = actual) ∧
      compareByPlace? 1 (Line.split expected) (Line.split actual) =
        some (differences expected actual) ∧
      (∀ report, report? expected actual = some report →
        reportedNumbers report =
          (unlikePlaces (Line.split expected) (Line.split actual)).map (· + 1)) ∧
      ∀ other, IsPlain expected → IsPlain actual → IsPlain other →
        report? expected actual = report? expected other → actual = other := by
  refine ⟨report?_eq_none_iff, compareByPlace?_eq 1 _ _, fun report hreport => ?_, ?_⟩
  · rw [reportedNumbers, split_report hreport, List.filterMap_flatMap]
    simp only [filterMap_readHeading?_report, ← List.map_eq_flatMap]
    rw [differences, map_number_differencesFrom]
    exact List.map_congr_left fun place _ => Nat.add_comm 1 place
  · intro other hexpected hactual hother hsame
    cases hreport : report? expected actual with
    | none =>
        rw [hreport] at hsame
        exact (report?_eq_none_iff.mp hreport).symm.trans (report?_eq_none_iff.mp hsame.symm)
    | some report =>
        have hother' : report? expected other = some report := hsame ▸ hreport
        apply differences_inj
        apply flatMap_report_inj (isPlain_of_mem_differences hexpected hactual)
          (isPlain_of_mem_differences hexpected hother)
        rw [← split_report hreport, split_report hother']

/-- The lines look like parts of a report, and two of them differ in their blanks only. -/
theorem report?_hides_nothing_in_headings :
    let expected := "line 1:\n  - x".toList
    let actual := "line 1:\n\t- x\nline 2: extra".toList
    let other := "line 1:\n\t- x\n".toList ++ "line 2: extra".toList
    (IsPlain expected ∧ IsPlain actual ∧ IsPlain other ∧
      report? expected actual = report? expected other) ∧
        (∃ report, report? expected actual = some report ∧
          reportedNumbers report =
            (unlikePlaces (Line.split expected) (Line.split actual)).map (· + 1)) ∧
        compareByPlace? 1 (Line.split expected) (Line.split actual) =
          some (differences expected actual) ∧
        report? expected actual ≠ none ∧ actual = other := by
  intro expected actual other
  have hexpected : IsPlain expected := ⟨by decide, by decide⟩
  have hactual : IsPlain actual := ⟨by decide, by decide⟩
  have hother : IsPlain other := ⟨by decide, by decide⟩
  have hsame : report? expected actual = report? expected other := rfl
  have hdiffer : expected ≠ actual := by decide
  obtain ⟨hnone, hplaces, hnumbers, hinj⟩ := report?_hides_nothing expected actual
  have hreport : report? expected actual ≠ none := mt hnone.mp hdiffer
  obtain ⟨report, hreport'⟩ := Option.ne_none_iff_exists'.mp hreport
  exact ⟨⟨hexpected, hactual, hother, hsame⟩, ⟨report, hreport', hnumbers report hreport'⟩, hplaces,
    hreport, hinj other hexpected hactual hother hsame⟩

end ChuckLayout.Comparison
