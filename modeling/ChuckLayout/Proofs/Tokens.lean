import ChuckLayout.Proofs.Relexing.Formatted
import ChuckLayout.Proofs.Relexing.Merging
import ChuckLayout.Proofs.Rereading.Literals
import ChuckLayout.Proofs.Text.Words

/-!
# Tokens survive formatting

What a stream means is told by its lexemes without their spacing: line breaks and the blank after a
sign mean nothing, raw text means its words, and a placeholder means its literal.  Formatting keeps
the meaning of a source just when no raw text merges with the lexeme after it, and no quote that the
source leaves open is closed.
-/

namespace ChuckLayout

open List (Forall₂)
open Spacing

inductive Meaning where
  | entry (token : Token)
  | raw (words : List (List Char))
  | literal (value : Option (List Char))
  deriving DecidableEq

/-- The meaning of an item, with `valueOf?` to look literals up; a line break has none. -/
def meaningOf? (valueOf? : List Char → Option (List Char)) (item : Token × List Char) :
    Option Meaning :=
  match item.1 with
  | .newline => none
  | .text => some (.raw (Blank.words item.2))
  | .placeholder => some (.literal (valueOf? item.2))
  | token => some (.entry (token.settled false))

/-- The meaning of a source, lexeme by lexeme. -/
def meanings (source : List Char) : List Meaning :=
  ((Document.stream source).map Lexeme.item).filterMap
    (meaningOf? (Document.lex source).table.valueOf?)

/-! ## Meaning without masking -/

/-- A placeholder means the literal behind it. -/
theorem meaningOf?_of_reveals {table : LiteralTable} {first second : Token × List Char}
    (hreveals : Reveals table first second) :
    meaningOf? table.valueOf? first = meaningOf? some second := by
  obtain ⟨token, text⟩ := first
  obtain ⟨token', text'⟩ := second
  obtain rfl : token = token' := hreveals.token
  by_cases htoken : token = .placeholder
  · have hknows : table.valueOf? text = some text' := hreveals.literal htoken
    subst htoken
    simp [meaningOf?, hknows]
  · obtain rfl : text = text' := hreveals.other htoken
    cases token <;> first | rfl | exact absurd rfl htoken

theorem filterMap_meaningOf?_filter (valueOf? : List Char → Option (List Char))
    (items : List (Token × List Char)) :
    (items.filter fun item => item.1 != .newline).filterMap (meaningOf? valueOf?) =
      items.filterMap (meaningOf? valueOf?) := by
  rw [List.filterMap_filter]
  apply List.filterMap_congr
  intro item _
  by_cases htoken : item.1 = .newline
  · simp [meaningOf?, htoken]
  · simp [htoken]

/-- The meaning of a source is that of the items it shows. -/
theorem meanings_eq (source : List Char) :
    meanings source = (shownItems source).filterMap (meaningOf? some) := by
  have hstreams := reveals_stream source
  rw [meanings, shownItems_eq, filterMap_meaningOf?_filter]
  generalize Document.stream source = stream at hstreams
  generalize plainStream source = plain at hstreams
  induction hstreams with
  | nil => rfl
  | cons hhead _ ih =>
      rw [List.map_cons, List.map_cons, List.filterMap_cons, List.filterMap_cons,
        meaningOf?_of_reveals hhead.item, ih]

/-! ## Meaning of what is read back -/

def plainMeanings (lexemes : List Lexeme) : List Meaning :=
  (lexemes.map Lexeme.item).filterMap (meaningOf? some)

theorem plainMeanings_append (front back : List Lexeme) :
    plainMeanings (front ++ back) = plainMeanings front ++ plainMeanings back := by
  rw [plainMeanings, List.map_append, List.filterMap_append, plainMeanings, plainMeanings]

theorem plainMeanings_lineBreak_cons (rest : List Lexeme) :
    plainMeanings (.lineBreak :: rest) = plainMeanings rest := rfl

theorem exists_meaningOf? {lexeme : Lexeme} (htoken : lexeme.token ≠ .newline) :
    ∃ meaning, meaningOf? some lexeme.item = some meaning := by
  rw [Lexeme.item]
  generalize lexeme.token = token at htoken
  cases token <;> first | exact ⟨_, rfl⟩ | exact absurd rfl htoken

/-- Raw text means its words, so the blanks between them do not count. -/
theorem meaningOf?_eq_raw_iff {lexeme : Lexeme} {words : List (List Char)} :
    meaningOf? some lexeme.item = some (.raw words) ↔
      lexeme.token = .text ∧ Blank.words lexeme.text = words := by
  rw [Lexeme.item]
  generalize lexeme.token = token
  cases token <;> simp [meaningOf?]

theorem plainMeanings_cons {lexeme : Lexeme} {meaning : Meaning}
    (hmeaning : meaningOf? some lexeme.item = some meaning) (rest : List Lexeme) :
    plainMeanings (lexeme :: rest) = meaning :: plainMeanings rest := by
  rw [plainMeanings, List.map_cons, List.filterMap_cons_some hmeaning, plainMeanings]

theorem plainMeanings_flatten_shownRows (source : List Char) :
    plainMeanings (shownRows source).flatten = meanings source := by
  rw [plainMeanings, map_item_flatten_shownRows, meanings_eq]

theorem plainMeanings_lexAtoms (source : List Char) :
    plainMeanings (lexAtoms [] (atoms source)) = meanings source := by
  rw [meanings_eq, shownItems, filterMap_meaningOf?_filter, plainMeanings]

theorem Token.settled_settled (token : Token) (gapped : Bool) :
    (token.settled gapped).settled false = token.settled false := by
  cases token <;> cases gapped <;> rfl

/-- A token means the same with the blank after its sign and without it. -/
theorem meaningOf?_settled (lexeme : Lexeme) (gapped : Bool) :
    meaningOf? some (lexeme.settled gapped).item = meaningOf? some lexeme.item := by
  by_cases htext : lexeme.token = .text
  · have hwords : Blank.words lexeme.core = Blank.words lexeme.text := by
      rw [(Lexeme.core_of_text htext).2]
      exact Blank.wordsBy_squeeze (fun _ => id) lexeme.text
    rw [Lexeme.settled_of_text htext, Lexeme.item, Lexeme.item, htext, meaningOf?, meaningOf?, hwords]
  by_cases hplaceholder : lexeme.token = .placeholder
  · rw [Lexeme.settled_of_placeholder hplaceholder, Lexeme.item, Lexeme.item, hplaceholder]
  · have hsame := lexeme.token.settled_settled gapped
    rw [Lexeme.item, Lexeme.item, Lexeme.settled]
    generalize lexeme.token = token at htext hplaceholder hsame
    cases token <;> cases gapped <;> first | rfl | exact absurd rfl htext | exact absurd rfl hplaceholder

/-- Reading a row back changes spaces and the blanks of signs, neither of which means anything. -/
theorem plainMeanings_relexed (stream : List Lexeme) (previous : Option Lexeme) (row : List Lexeme) :
    plainMeanings (relexed stream previous row) = plainMeanings row := by
  induction row generalizing previous with
  | nil => rfl
  | cons lexeme rest ih =>
      have hrest := ih (some lexeme)
      rw [plainMeanings, plainMeanings] at hrest
      rw [relexed, plainMeanings, plainMeanings, List.map_cons, List.map_cons, List.filterMap_cons,
        List.filterMap_cons, meaningOf?_settled, hrest]

/-! ## Rows -/

section

variable {stream : List Lexeme}

/-- A row in which raw text merges is read back with another meaning. -/
theorem plainMeanings_ne_of_merges {row : List Lexeme} (hrow : IsRow row)
    (hmerges : ¬NothingMerges row) {tail : List Atom} (htail : ahead tail = [])
    (previous : Option Lexeme) (later : List Meaning) :
    plainMeanings (lexAtoms [] (rowAtoms stream previous row ++ tail)) ≠
      plainMeanings row ++ later := by
  induction row generalizing previous with
  | nil => exact absurd .nil hmerges
  | cons first rest ih =>
      obtain ⟨meaning, hmeaning⟩ := exists_meaningOf? (hrow.shown first List.mem_cons_self).2
      rw [plainMeanings_cons hmeaning, List.cons_append]
      by_cases hpair : ∀ second, rest.head? = some second → ¬Merges first second
      · have hsettled := (meaningOf?_settled first (spaceAfter stream previous first rest)).trans hmeaning
        rw [lexAtoms_rowAtoms_cons hrow htail hpair, plainMeanings_cons hsettled]
        intro hsame
        refine ih hrow.of_cons (fun hrest => hmerges ?_) (some first) (List.cons.inj hsame).2
        exact List.isChain_cons.mpr ⟨hpair, hrest⟩
      · push Not at hpair
        obtain ⟨second, hsecond, hpair⟩ := hpair
        obtain ⟨rest, rfl⟩ := List.head?_eq_some_iff.mp hsecond
        obtain ⟨lexeme, others, hlex, htoken, hsolid⟩ :=
          exists_lexAtoms_of_merges hrow hpair htail previous
        obtain ⟨other, hother⟩ := exists_meaningOf? htoken
        rw [hlex, plainMeanings_cons hother]
        intro hsame
        have htext : meaningOf? some first.item = some (.raw (Blank.words first.text)) :=
          meaningOf?_eq_raw_iff.mpr ⟨hpair.1, rfl⟩
        rw [(List.cons.inj hsame).1, ← hmeaning, htext, meaningOf?_eq_raw_iff] at hother
        apply hsolid hother.1
        rw [← Blank.flatten_words, hother.2, Blank.flatten_words]

/-- What is printed after a row stands apart from it. -/
theorem exists_printAtoms_cons (stream : List Lexeme) (depth : Int) (row : List Lexeme)
    (rest : List (List Lexeme)) :
    ∃ tail, printAtoms stream depth (row :: rest) = lineAtoms stream depth row ++ tail ∧
      ahead tail = [] ∧ plainMeanings (lexAtoms [] tail) =
        plainMeanings (lexAtoms [] (printAtoms stream (depthAfterRow depth row) rest)) := by
  cases rest with
  | nil => exact ⟨[], (List.append_nil _).symm, rfl, rfl⟩
  | cons next rest =>
      refine ⟨_, rfl, if_pos rfl, ?_⟩
      rw [lexAtoms, if_pos rfl, codeOf_nil, List.nil_append, plainMeanings_lineBreak_cons]

/-- Printed rows are read back with their meaning just when no raw text merges in them. -/
theorem plainMeanings_printAtoms_iff {found : List (List Lexeme)} (hfound : ∀ row ∈ found, IsRow row)
    (depth : Int) :
    plainMeanings (lexAtoms [] (printAtoms stream depth found)) = plainMeanings found.flatten ↔
      ∀ row ∈ found, NothingMerges row := by
  induction found generalizing depth with
  | nil =>
      rw [printAtoms, lexAtoms, codeOf_nil]
      exact iff_of_true rfl (by simp)
  | cons row rest ih =>
      obtain ⟨hrow, hrest⟩ := List.forall_mem_cons.mp hfound
      obtain ⟨tail, hprint, htail, hlater⟩ := exists_printAtoms_cons stream depth row rest
      rw [hprint, lineAtoms, List.append_assoc, Nesting.indentation, lexAtoms_spaces,
        List.flatten_cons, plainMeanings_append, List.forall_mem_cons]
      by_cases hmerges : NothingMerges row
      · rw [lexAtoms_rowAtoms_append hrow hmerges htail, plainMeanings_append,
          plainMeanings_relexed, List.append_cancel_left_eq, hlater, ih hrest,
          and_iff_right hmerges]
      · exact iff_of_false (plainMeanings_ne_of_merges hrow hmerges htail none _)
          fun h => hmerges h.1

end

/-- Raw text and the lexeme after it stand in one row, so nothing merges in the rows exactly if
nothing does in the stream. -/
theorem nothingMerges_iff_of_shownRows (source : List Char) :
    (∀ row ∈ shownRows source, NothingMerges row) ↔ NothingMerges (plainStream source) := by
  refine ⟨fun hshown => ?_, fun hmerges row => nothingMerges_of_mem_rows hmerges⟩
  have hrows : ∀ row ∈ rows (plainStream source), NothingMerges row := by
    intro row hrow
    obtain ⟨before, after, hsplit⟩ := exists_trimRows (rows (plainStream source))
    rw [hsplit, List.mem_append, List.mem_append] at hrow
    rcases hrow with (hrow | hrow) | hrow
    · rw [List.eq_of_mem_replicate hrow]
      exact .nil
    · exact hshown row hrow
    · rw [List.eq_of_mem_replicate hrow]
      exact .nil
  exact nothingMerges_of_rowsAfter hrows

/-! ## Literals -/

def Meaning.literal? : Meaning → Option (List Char)
  | literal value => value
  | _ => none

/-- The literals among the meanings of a source are its literals. -/
theorem filterMap_literal?_meanings (source : List Char) :
    (meanings source).filterMap Meaning.literal? = literalTexts (atoms source) := by
  rw [← plainMeanings_lexAtoms, ← placeholderTexts_lexAtoms, plainMeanings, List.filterMap_filterMap,
    placeholderTexts]
  apply List.filterMap_congr
  rintro ⟨token, text⟩ -
  cases token <;> rfl

/-- The formatted source means what the source means, just when no raw text merges with its neighbour
and no quote that the source leaves open is closed. -/
theorem meanings_tidy_iff (source : List Char) :
    meanings (Document.tidy source) = meanings source ↔
      NothingMerges (Document.stream source) ∧
        QuoteStaysOpen ((Document.revealedStream source).map Lexeme.item) := by
  rw [nothingMerges_iff (reveals_stream source), ← nothingMerges_iff_of_shownRows,
    quoteStaysOpen_revealedStream_iff]
  have hprint : QuoteStaysOpen (shownItems source) →
      (meanings (Document.tidy source) = meanings source ↔
        ∀ row ∈ shownRows source, NothingMerges row) := by
    intro hquotes
    rw [← plainMeanings_lexAtoms, atoms_tidy hquotes, ← plainMeanings_flatten_shownRows,
      plainMeanings_printAtoms_iff fun row => isRow_of_mem_shownRows]
  constructor
  · intro hsame
    have hquotes : QuoteStaysOpen (shownItems source) := by
      rw [← literalTexts_tidy_iff, ← filterMap_literal?_meanings, hsame, filterMap_literal?_meanings]
    exact ⟨(hprint hquotes).mp hsame, hquotes⟩
  · rintro ⟨hmerges, hquotes⟩
    exact (hprint hquotes).mpr hmerges

/-- The word before a keyword goes on into it: `static int x;` becomes `staticint x;`. -/
theorem meanings_tidy_ne_of_keyword :
    meanings (Document.tidy "static int x;".toList) ≠ meanings "static int x;".toList := by
  have hreads : Reads .all ("static int x;".toList ++ []) ("static int x;".toList.map .code ++ []) :=
    reads_code_append (by decide +kernel) (.done .all)
  have htidy : Document.tidy ("static int x;".toList ++ []) = "staticint x;".toList := by
    rw [tidy_eq_spell, shownRows, plainStream, atoms, hreads.segments_eq]
    decide +kernel
  rw [List.append_nil] at htidy
  rw [htidy]
  decide +kernel

end ChuckLayout
