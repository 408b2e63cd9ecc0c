import ChuckLayout.Proofs.Literals.Sessions

/-!
# Words that are revealed

What is looked up in a text are the longest names at the places that a scan from left to right comes
to.  A placeholder that a table has issued is such a name as a whole, whatever its salt and number,
so in a text of words each of these words gives way to its value, and nothing that a value holds is
looked at again.
-/

namespace ChuckLayout

open Word (IsWord isWordChar)

namespace Placeholder

/-- A tag, a salt of any size, the middle and digits of any number but none. -/
def IsShaped (name : List Char) : Prop :=
  ∃ kind size digits, name = stem kind (saltOfSize size) ++ digits ∧ digits ≠ [] ∧
    ∀ digit ∈ digits, digit.isDigit

/-- The longest front of the text that is shaped like a placeholder. -/
structure IsLongestName (name text : List Char) : Prop where
  shaped : IsShaped name
  front : name <+: text
  longest : ∀ other, IsShaped other → other <+: text → other <+: name

/-- The names that are found in a text from left to right: the longest one where there is one, and on
from its end. -/
inductive Scans : List Char → List (List Char) → Prop where
  | done : Scans [] []
  | skip {char : Char} {rest : List Char} {found : List (List Char)}
      (hnone : ∀ name, IsShaped name → ¬name <+: char :: rest) (hrest : Scans rest found) :
      Scans (char :: rest) found
  | take {name rest : List Char} {found : List (List Char)}
      (hname : IsLongestName name (name ++ rest)) (hrest : Scans rest found) :
      Scans (name ++ rest) (name :: found)

/-- The name is found when the text is scanned. -/
def Matches (text name : List Char) : Prop :=
  ∃ found, Scans text found ∧ name ∈ found

/-! ## Leading names -/

/-- The salt that is read at the front of a text is one of those that lengthening comes to. -/
theorem exists_leadingSalt_eq (text : List Char) : ∃ size, leadingSalt text = saltOfSize size := by
  unfold leadingSalt
  split
  · rename_i rest
    refine ⟨(rest.takeWhile (· = 'X')).length + 1, ?_⟩
    rw [saltOfSize, List.replicate_succ]
    congr 2
    apply List.eq_replicate_of_mem
    intro char hchar
    simpa using List.mem_takeWhile_imp hchar
  · exact ⟨0, rfl⟩

/-- After a stem all digits are read that there are. -/
theorem leadingName?_stem_append (kind : Literal.Kind) (size : Nat) (rest : List Char)
    (hdigits : rest.takeWhile Char.isDigit ≠ []) :
    leadingName? (stem kind (saltOfSize size) ++ rest) =
      some (stem kind (saltOfSize size) ++ rest.takeWhile Char.isDigit) := by
  have htext : stem kind (saltOfSize size) ++ rest =
      tag kind ++ (saltOfSize size ++ ("_LITERAL_".toList ++ rest)) := by
    simp [stem]
  have hsalt : leadingSalt ((stem kind (saltOfSize size) ++ rest).drop (tag kind).length) =
      saltOfSize size := by
    rw [htext, List.drop_left, leadingSalt_saltOfSize]
  have hstarts : (stem kind (saltOfSize size)).isPrefixOf (stem kind (saltOfSize size) ++ rest) :=
    List.isPrefixOf_iff_prefix.mpr (List.prefix_append _ _)
  rw [leadingName?, htext, find?_tag, ← htext]
  simp only [hsalt, List.drop_left]
  rw [hstarts]
  simp [hdigits]

theorem isShaped_of_leadingName? {text name : List Char} (hname : leadingName? text = some name) :
    IsShaped name := by
  unfold leadingName? at hname
  split at hname
  · exact absurd hname.symm (Option.some_ne_none name)
  · rename_i kind _
    obtain ⟨size, hsize⟩ := exists_leadingSalt_eq (text.drop (tag kind).length)
    rw [hsize] at hname
    dsimp only at hname
    rw [Option.ite_none_right_eq_some, Bool.and_eq_true] at hname
    obtain ⟨⟨-, hdigits⟩, hsome⟩ := hname
    refine ⟨kind, size, _, (Option.some.inj hsome).symm, by simpa using hdigits, ?_⟩
    intro digit hdigit
    exact List.mem_takeWhile_imp hdigit

/-- A text that has a shaped front has a leading name, which is no shorter. -/
theorem exists_leadingName? {text name : List Char} (hshaped : IsShaped name)
    (hfront : name <+: text) : ∃ longest, leadingName? text = some longest ∧ name <+: longest := by
  obtain ⟨kind, size, digits, rfl, hne, hdigits⟩ := hshaped
  obtain ⟨rest, rfl⟩ := hfront
  have hrun : (digits ++ rest).takeWhile Char.isDigit = digits ++ rest.takeWhile Char.isDigit :=
    List.takeWhile_append_of_pos hdigits
  rw [List.append_assoc, leadingName?_stem_append, hrun]
  · exact ⟨_, rfl, (List.prefix_append_right_inj _).mpr (List.prefix_append _ _)⟩
  · rw [hrun]
    exact List.append_ne_nil_of_left_ne_nil hne _

/-- The name that is read at the front of a text is the longest one that stands there. -/
theorem leadingName?_eq_some_iff {text name : List Char} :
    leadingName? text = some name ↔ IsLongestName name text := by
  constructor
  · intro hname
    refine ⟨isShaped_of_leadingName? hname, (leadingName?_front hname).2, ?_⟩
    intro other hshaped hfront
    obtain ⟨longest, hlongest, hother⟩ := exists_leadingName? hshaped hfront
    rw [hname] at hlongest
    rwa [Option.some.inj hlongest]
  · intro hname
    obtain ⟨longest, hlongest, hfront⟩ := exists_leadingName? hname.shaped hname.front
    have hback := hname.longest longest (isShaped_of_leadingName? hlongest)
      (leadingName?_front hlongest).2
    rw [hlongest, hfront.eq_of_length_le hback.length_le]

theorem leadingName?_eq_none_iff {text : List Char} :
    leadingName? text = none ↔ ∀ name, IsShaped name → ¬name <+: text := by
  constructor
  · intro hnone name hshaped hfront
    obtain ⟨longest, hlongest, -⟩ := exists_leadingName? hshaped hfront
    rw [hnone] at hlongest
    exact Option.some_ne_none longest hlongest.symm
  · intro hnone
    rw [Option.eq_none_iff_forall_ne_some]
    intro name hname
    exact hnone name (isShaped_of_leadingName? hname) (leadingName?_front hname).2

/-! ## Scans -/

def Chunk.name? : Chunk → Option (List Char)
  | plain _ => none
  | named name => some name

def namesOf (text : List Char) : List (List Char) :=
  (chunks text).filterMap Chunk.name?

theorem namesOf_cons {char : Char} {rest : List Char} (hnone : leadingName? (char :: rest) = none) :
    namesOf (char :: rest) = namesOf rest := by
  have hleading : Chunk.leading char rest = .plain char := by
    rw [Chunk.leading, hnone]
  rw [namesOf, chunks, Cut.cut_of_leading Chunk.leading_isFront hleading rest rfl]
  rfl

theorem namesOf_append {name rest : List Char} (hname : leadingName? (name ++ rest) = some name) :
    namesOf (name ++ rest) = name :: namesOf rest := by
  obtain ⟨char, later, htext⟩ := List.exists_cons_of_ne_nil
    (List.append_ne_nil_of_left_ne_nil (leadingName?_front hname).1 rest)
  have hleading : Chunk.leading char later = .named name := by
    rw [Chunk.leading, ← htext, hname]
  rw [namesOf, htext, chunks, Cut.cut_of_leading Chunk.leading_isFront hleading rest htext.symm]
  rfl

/-- The names of a text are found by scanning from the left and taking the longest each time. -/
theorem scans_namesOf (text : List Char) : Scans text (namesOf text) := by
  induction hlength : text.length using Nat.strong_induction_on generalizing text with
  | _ length ih =>
      cases text with
      | nil =>
          rw [namesOf, chunks, Cut.cut_nil]
          exact .done
      | cons char rest =>
          cases hname : leadingName? (char :: rest) with
          | none =>
              rw [namesOf_cons hname]
              exact .skip (leadingName?_eq_none_iff.mp hname) (ih _ (by simp [← hlength]) rest rfl)
          | some name =>
              obtain ⟨hne, later, hlater⟩ := leadingName?_front hname
              have hshorter : later.length < length := by
                rw [← hlength, ← hlater, List.length_append]
                exact Nat.lt_add_of_pos_left (List.length_pos_iff.mpr hne)
              rw [← hlater] at hname ⊢
              rw [namesOf_append hname]
              exact .take (leadingName?_eq_some_iff.mp hname) (ih _ hshorter later rfl)

/-- There is one way to scan a text. -/
theorem Scans.eq_namesOf {text : List Char} {found : List (List Char)} (hscans : Scans text found) :
    found = namesOf text := by
  induction hscans with
  | done => rw [namesOf, chunks, Cut.cut_nil]; rfl
  | skip hnone _ ih => rw [namesOf_cons (leadingName?_eq_none_iff.mpr hnone), ih]
  | take hname _ ih => rw [namesOf_append (leadingName?_eq_some_iff.mpr hname), ih]

/-- A text has one scan, so what matches in it is what the chunks name. -/
theorem matches_iff {text name : List Char} : Matches text name ↔ name ∈ namesOf text := by
  constructor
  · rintro ⟨found, hscans, hfound⟩
    rwa [← hscans.eq_namesOf]
  · exact fun hname => ⟨_, scans_namesOf text, hname⟩

theorem mem_namesOf_iff {text name : List Char} :
    name ∈ namesOf text ↔ .named name ∈ chunks text := by
  rw [namesOf, List.mem_filterMap]
  constructor
  · rintro ⟨chunk, hchunk, hname⟩
    cases chunk with
    | plain char => exact absurd hname.symm (Option.some_ne_none name)
    | named other => rwa [← Option.some.inj hname]
  · exact fun hnamed => ⟨_, hnamed, rfl⟩

end Placeholder

/-! ## Words and what separates them -/

instance (text : List Char) : Decidable (IsWord text) :=
  inferInstanceAs (Decidable (∀ char ∈ text, isWordChar char))

/-- A text of words, with a character between each and the next that belongs to no word.  A word may
be empty. -/
structure WordedText where
  first : List Char
  later : List (Char × List Char)
  isWord_first : IsWord first
  isWord_later : ∀ part ∈ later, isWordChar part.1 = false ∧ IsWord part.2

namespace WordedText

def words (text : WordedText) : List (List Char) :=
  text.first :: text.later.map Prod.snd

/-- The text with each word written as `write` says. -/
def spellBy (write : List Char → List Char) (text : WordedText) : List Char :=
  write text.first ++ text.later.flatMap fun part => part.1 :: write part.2

def spell (text : WordedText) : List Char :=
  text.spellBy id

end WordedText

namespace LiteralTable

open Placeholder (IsApart Matches chunks chunks_append isNameChar matches_iff mem_namesOf_iff namesOf)

variable {table : LiteralTable}

theorem substitute_append {front back : List Char} (happart : IsApart front back) :
    table.substitute (front ++ back) = table.substitute front ++ table.substitute back := by
  rw [substitute, chunks_append happart, List.flatMap_append]
  rfl

def wordFor (table : LiteralTable) (word : List Char) : List Char :=
  (table.valueOf? word).getD word

/-- A word that is a placeholder is replaced as a whole, and any other is left as it is. -/
theorem substitute_word (hnumbered : table.IsNumbered) {word : List Char}
    (hword : table.isIssued word ∨ ∀ name, Matches word name → table.isIssued name = false) :
    table.substitute word = table.wordFor word := by
  by_cases hissued : table.isIssued word
  · obtain ⟨value, hknows⟩ := isIssued_iff.mp hissued
    rw [substitute, hnumbered.chunks_of_knows hknows, List.flatMap_singleton]
    rfl
  · have hnone := hword.resolve_left hissued
    have hchunk : ∀ chunk ∈ chunks word, table.revealChunk chunk = chunk.text := by
      intro chunk hchunk
      cases chunk with
      | plain char => rfl
      | named name =>
          have hunknown := hnone name (matches_iff.mpr (mem_namesOf_iff.mpr hchunk))
          rw [isIssued, Option.isSome_eq_false_iff, Option.isNone_iff_eq_none] at hunknown
          rw [revealChunk, hunknown]
          rfl
    rw [Bool.not_eq_true, isIssued, Option.isSome_eq_false_iff, Option.isNone_iff_eq_none] at hissued
    rw [substitute, List.flatMap_congr hchunk, Placeholder.flatMap_chunks, wordFor, hissued,
      Option.getD_none]

theorem isNameChar_eq_false {char : Char} (hchar : isWordChar char = false) :
    isNameChar char = false := by
  have hparts : (char.isUpper || char.isLower || char.isDigit || char == '_') = false := hchar
  simp only [Bool.or_eq_false_iff] at hparts
  obtain ⟨⟨⟨hupper, -⟩, hdigit⟩, hunderscore⟩ := hparts
  rw [isNameChar, hupper, hdigit, hunderscore]
  rfl

/-- No name goes across the end of a word, so words are replaced one by one. -/
theorem substitute_parts (hnumbered : table.IsNumbered) (first : List Char)
    (later : List (Char × List Char)) (hseparators : ∀ part ∈ later, isWordChar part.1 = false)
    (hwords : ∀ word ∈ first :: later.map Prod.snd, table.substitute word = table.wordFor word) :
    table.substitute (first ++ later.flatMap fun part => part.1 :: part.2) =
      table.wordFor first ++ later.flatMap fun part => part.1 :: table.wordFor part.2 := by
  induction later generalizing first with
  | nil =>
      rw [List.flatMap_nil, List.append_nil, List.flatMap_nil, List.append_nil]
      exact hwords first List.mem_cons_self
  | cons part later ih =>
      obtain ⟨separator, word⟩ := part
      obtain ⟨hseparator, hlater⟩ := List.forall_mem_cons.mp hseparators
      obtain ⟨hfirst, hrest⟩ := List.forall_mem_cons.mp hwords
      have hname := isNameChar_eq_false hseparator
      have halone : table.substitute [separator] = [separator] := by
        apply substitute_of_isUnused hnumbered
        apply Placeholder.isUnused_of_not_isNameChar
        simpa using hname
      have hbefore : ∀ back, IsApart first ([separator] ++ back) := by
        intro back
        apply isApart_of_head?
        simpa using hname
      have hafter : ∀ back, IsApart [separator] back := by
        intro back
        apply isApart_of_getLast?
        simpa using hname
      calc table.substitute
              (first ++ (separator :: word ++ later.flatMap fun part => part.1 :: part.2))
          = table.substitute first ++ (table.substitute [separator] ++
              table.substitute (word ++ later.flatMap fun part => part.1 :: part.2)) := by
            rw [← substitute_append (hafter _), ← substitute_append (hbefore _)]
            rfl
        _ = table.wordFor first ++ ([separator] ++
              (table.wordFor word ++ later.flatMap fun part => part.1 :: table.wordFor part.2)) := by
            rw [hfirst, halone, ih word hlater hrest]

/-- In a text of words, each placeholder that a table has issued at any time of a session gives way to
the value of its literal, and nothing else changes but for blanks at either end, whatever the values
hold.  The other words may hold names, as long as these have not been issued. -/
theorem reveal_worded (source : Option (List Char)) (actions : List Action) (text : WordedText)
    (hwords : ∀ word ∈ text.words, ((opened source).runSession actions).isIssued word ∨
      ∀ name, Matches word name → ((opened source).runSession actions).isIssued name = false) :
    ((opened source).runSession actions).reveal text.spell =
        Blank.trim (text.spellBy fun word =>
          (((opened source).runSession actions).valueOf? word).getD word) ∧
      ∀ literal ∈ ((opened source).runSession actions).literals,
        ((opened source).runSession actions).valueOf? literal.placeholder = some literal.value := by
  have hkept := isKept_runSession source actions
  generalize (opened source).runSession actions = table at *
  constructor
  · rw [reveal]
    congr 1
    apply substitute_parts hkept.distinct.numbered
    · intro part hpart
      exact (text.isWord_later part hpart).1
    · intro word hword
      exact substitute_word hkept.distinct.numbered (hwords word hword)
  · intro literal hliteral
    exact hkept.distinct.valueOf?_eq_some_iff.mpr ⟨literal, hliteral, rfl, rfl⟩

/-- Twelve literals, each with the name of the next for its value. -/
theorem reveal_worded_next_name :
    let name (number : Nat) : List Char := "STRING_LITERAL_".toList ++ Nat.toDigits 10 number
    let actions := (List.range 12).map fun place => Action.add .string 0 (name (place + 2))
    ∃ text : WordedText,
      text.spell = name 12 ++ ' ' :: name 1 ++ ';' :: name 99 ++ "\n".toList ∧
      (∀ word ∈ text.words, ((opened none).runSession actions).isIssued word ∨
        ∀ name, Matches word name → ((opened none).runSession actions).isIssued name = false) ∧
      ((opened none).runSession actions).reveal text.spell =
        name 13 ++ ' ' :: name 2 ++ ';' :: name 99 := by
  intro name actions
  let text : WordedText := {
    first := name 12
    later := [(' ', name 1), (';', name 99), ('\n', [])]
    isWord_first := Placeholder.isWord_numbered .string 0 12
    isWord_later := by
      simp only [List.forall_mem_cons]
      exact ⟨⟨rfl, Placeholder.isWord_numbered .string 0 1⟩,
        ⟨rfl, Placeholder.isWord_numbered .string 0 99⟩, ⟨rfl, List.forall_mem_nil _⟩,
        List.forall_mem_nil _⟩ }
  have hwords : ∀ word ∈ text.words, ((opened none).runSession actions).isIssued word ∨
      ∀ name ∈ namesOf word, ((opened none).runSession actions).isIssued name = false := by
    decide +kernel
  have hmatches : ∀ word ∈ text.words, ((opened none).runSession actions).isIssued word ∨
      ∀ name, Matches word name → ((opened none).runSession actions).isIssued name = false := by
    intro word hword
    exact (hwords word hword).imp_right fun hnone name hname => hnone name (matches_iff.mp hname)
  refine ⟨text, rfl, hmatches, ?_⟩
  rw [(reveal_worded none actions text hmatches).1]
  decide +kernel

end LiteralTable

end ChuckLayout
