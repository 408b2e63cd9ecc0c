import ChuckLayout.Editor
import ChuckLayout.Proofs.Layout.Places
import ChuckLayout.Proofs.Stability.Surround

/-!
# Applying edits

A position is reached by going past line feeds and then past UTF-16 units.  The range of an edit ends
at the end of the text, but for a carriage return there, and its new text is the formatted source.  So
the edited text is the formatted source, but for that carriage return.
-/

namespace ChuckLayout

/-! ## Going to a position -/

namespace Editor

open ChuckLayout.Units (utf16Length utf16Size)

/-- What follows the first `count` line feeds of a text, if it has as many. -/
def pastLines? : List Char → Nat → Option (List Char)
  | text, 0 => some text
  | [], _ + 1 => none
  | char :: rest, count + 1 => pastLines? rest (if char = '\n' then count else count + 1)

/-- What follows the first `count` UTF-16 units of a text, if a character ends there. -/
def pastUnits? : List Char → Nat → Option (List Char)
  | text, 0 => some text
  | [], _ + 1 => none
  | char :: rest, count + 1 =>
      if utf16Size char ≤ count + 1 then pastUnits? rest (count + 1 - utf16Size char) else none

def Position.after? (position : Position) (text : List Char) : Option (List Char) :=
  (pastLines? text position.line.toNat).bind fun line => pastUnits? line position.character.toNat

/-- The text with what stands in the range of the edit replaced by the new text. -/
def Edit.applyTo? (edit : Edit) (text : List Char) : Option (List Char) := do
  let inside ← edit.range.start.after? text
  let back ← edit.range.stop.after? text
  if back.length ≤ inside.length then
    some (text.take (text.length - inside.length) ++ edit.newText ++ back)
  else none

def applyEdits? (edits : List Edit) (text : List Char) : Option (List Char) :=
  edits.foldlM (fun text edit => edit.applyTo? text) text

/-! ## The end of a text -/

/-- A text is its whole lines and then its last line. -/
theorem exists_lines (text : List Char) : ∃ lines : List (List Char),
    text = (lines.flatMap fun line => line ++ ['\n']) ++ lastLine text ∧
      (∀ line ∈ lines, '\n' ∉ line) ∧ '\n' ∉ lastLine text := by
  obtain ⟨last, hlast⟩ := Option.isSome_iff_exists.mp
    (List.getLast?_isSome.mpr (Blank.split_ne_nil text))
  obtain ⟨lines, hlines⟩ := List.getLast?_eq_some_iff.mp hlast
  have hfeeds := Blank.lineFeed_not_mem_split text
  have hjoin : text = Line.join (Line.split text) := (Line.join_split text).symm
  rw [hlines] at hfeeds hjoin
  rw [Line.join_append_cons, List.flatMap_nil, List.append_nil] at hjoin
  have hlastLine : lastLine text = last := by rw [lastLine, hlast, Option.getD_some]
  rw [hlastLine]
  exact ⟨lines, hjoin, fun line hline => hfeeds line (List.mem_append_left _ hline),
    hfeeds last (by simp)⟩

theorem pastLines?_line {line : List Char} (hline : '\n' ∉ line) (rest : List Char) (count : Nat) :
    pastLines? (line ++ '\n' :: rest) (count + 1) = pastLines? rest count := by
  induction line with
  | nil => rfl
  | cons char line ih =>
      rw [List.mem_cons, not_or] at hline
      rw [List.cons_append, pastLines?, if_neg (Ne.symm hline.1), ih hline.2]

theorem pastLines?_lines {lines : List (List Char)} (hlines : ∀ line ∈ lines, '\n' ∉ line)
    (last : List Char) : pastLines? ((lines.flatMap fun line => line ++ ['\n']) ++ last)
      lines.length = some last := by
  induction lines with
  | nil => cases last <;> rfl
  | cons line lines ih =>
      obtain ⟨hline, hlater⟩ := List.forall_mem_cons.mp hlines
      rw [List.flatMap_cons, List.length_cons, List.append_assoc, List.append_assoc,
        List.singleton_append, pastLines?_line hline, ih hlater]

/-- Past all line feeds of a text its last line is left. -/
theorem pastLines?_count (text : List Char) :
    pastLines? text (text.count '\n') = some (lastLine text) := by
  obtain ⟨lines, htext, hlines, hlast⟩ := exists_lines text
  generalize lastLine text = last at htext hlast
  rw [htext, List.count_append, Line.count_lines hlines, List.count_eq_zero_of_not_mem hlast,
    Nat.add_zero, pastLines?_lines hlines]

theorem getLast?_lastLine_eq_return_iff (text : List Char) :
    (lastLine text).getLast? = some '\r' ↔ text.getLast? = some '\r' := by
  obtain ⟨lines, htext, -, -⟩ := exists_lines text
  by_cases hlast : lastLine text = []
  · rw [hlast, List.append_nil] at htext
    rw [hlast, htext]
    rcases List.eq_nil_or_concat lines with rfl | ⟨above, line, rfl⟩
    · rfl
    · simp
  · rw [htext, List.getLast?_append_of_ne_nil _ hlast, ← htext]

theorem utf16Length_append (front back : List Char) :
    utf16Length (front ++ back) = utf16Length front + utf16Length back := by
  induction front with
  | nil => simp [utf16Length]
  | cons char front ih => rw [List.cons_append, utf16Length, utf16Length, ih, Nat.add_assoc]

theorem pastUnits?_append (front back : List Char) :
    pastUnits? (front ++ back) (utf16Length front) = some back := by
  induction front with
  | nil => cases back <;> rfl
  | cons char front ih =>
      have hsize : 0 < utf16Size char := by
        rw [utf16Size]
        split <;> decide
      have hwhole : utf16Length (char :: front) = utf16Size char + utf16Length front := rfl
      obtain ⟨count, hcount⟩ : ∃ count, utf16Length (char :: front) = count + 1 :=
        Nat.exists_eq_succ_of_ne_zero (by omega)
      have hrest : count + 1 - utf16Size char = utf16Length front := by omega
      rw [hcount, List.cons_append, pastUnits?, if_pos (by omega), hrest, ih]

def finalReturn (text : List Char) : List Char :=
  if text.getLast? = some '\r' then ['\r'] else []

theorem dropReturn_append (line : List Char) : Line.dropReturn line ++ finalReturn line = line := by
  rw [Line.dropReturn, finalReturn]
  split
  · rename_i hreturn
    exact List.dropLast_append_getLast? _ hreturn
  · exact List.append_nil line

/-- The carriage return that the last line loses is the one at the end of the text. -/
theorem finalReturn_lastLine (text : List Char) : finalReturn (lastLine text) = finalReturn text := by
  simp only [finalReturn, getLast?_lastLine_eq_return_iff]

/-! ## Applying the edits -/

section

variable {text : List Char} (hlines : text.count '\n' < UInt32.size) (hunits : utf16Length text < UInt32.size)

include hlines hunits

/-- The range of a whole text ends before its last carriage return. -/
theorem after?_wholeRange_stop : (wholeRange text).stop.after? text = some (finalReturn text) := by
  have hline : (wholeRange text).stop.line.toNat = text.count '\n' := Nat.mod_eq_of_lt hlines
  obtain ⟨lines, htext, -, -⟩ := exists_lines text
  have hlength : utf16Length (Line.dropReturn (lastLine text)) ≤ utf16Length text := by
    have hwhole := congrArg utf16Length htext
    rw [← dropReturn_append (lastLine text), utf16Length_append, utf16Length_append] at hwhole
    omega
  have hcharacter : (wholeRange text).stop.character.toNat =
      utf16Length (Line.dropReturn (lastLine text)) := Nat.mod_eq_of_lt (Nat.lt_of_le_of_lt hlength hunits)
  have hunits : pastUnits? (lastLine text) (utf16Length (Line.dropReturn (lastLine text))) =
      some (finalReturn text) := by
    rw [← finalReturn_lastLine text]
    nth_rewrite 1 [← dropReturn_append (lastLine text)]
    exact pastUnits?_append _ _
  rw [Position.after?, hline, pastLines?_count, Option.bind_some, hcharacter, hunits]

/-- The range of a whole text leaves nothing of it but a carriage return at its end. -/
theorem applyTo?_whole (newText : List Char) :
    Edit.applyTo? { range := wholeRange text, newText } text = some (newText ++ finalReturn text) := by
  have hstart : (wholeRange text).start.after? text = some text := by
    cases text <;> rfl
  have hlength : (finalReturn text).length ≤ text.length := by
    rw [finalReturn]
    split
    · rename_i hreturn
      exact List.length_pos_of_mem (List.mem_of_getLast? hreturn)
    · exact Nat.zero_le _
  rw [Edit.applyTo?, hstart, after?_wholeRange_stop hlines hunits]
  simp [hlength]

/-- Applying the edits gives the formatted text and the last carriage return of the text. -/
theorem applyEdits?_edits :
    applyEdits? (edits text) text = some (Document.tidy text ++ finalReturn text) := by
  rw [edits]
  by_cases hsame : Document.tidy text = text
  · have hnone : finalReturn text = [] := by
      rw [finalReturn, if_neg]
      intro hreturn
      have hblank : Blank.isBlank '\r' = false :=
        not_isBlank_of_tidy (Or.inr (hsame.symm ▸ hreturn))
      exact absurd hblank (by decide)
    rw [if_pos hsame, hsame, hnone, List.append_nil]
    rfl
  · rw [if_neg hsame, applyEdits?, List.foldlM_cons, applyTo?_whole hlines hunits]
    rfl

end

theorem edits_eq_nil_iff (text : List Char) : edits text = [] ↔ Document.tidy text = text := by
  rw [edits]
  split
  · exact iff_of_true rfl ‹_›
  · exact iff_of_false (List.cons_ne_nil _ _) ‹_›

theorem length_edits_le_one (text : List Char) : (edits text).length ≤ 1 := by
  rw [edits]
  split
  · exact Nat.zero_le 1
  · exact Nat.le_refl 1

/-! ## Main statement -/

/-- There is at most one edit, and none just when the text is formatted.  Applied to the text it gives
the formatted text, unless the text ends in a carriage return, which then stays. -/
theorem edits_format {text : List Char} (hlines : text.count '\n' < UInt32.size)
    (hunits : utf16Length text < UInt32.size) :
    (edits text).length ≤ 1 ∧ (edits text = [] ↔ Document.tidy text = text) ∧
      (text.getLast? ≠ some '\r' → applyEdits? (edits text) text = some (Document.tidy text)) ∧
      (text.getLast? = some '\r' →
        applyEdits? (edits text) text = some (Document.tidy text ++ ['\r'])) := by
  have happlied := applyEdits?_edits hlines hunits
  refine ⟨length_edits_le_one text, edits_eq_nil_iff text, fun hother => ?_, fun hreturn => ?_⟩
  · rw [happlied, finalReturn, if_neg hother, List.append_nil]
  · rw [happlied, finalReturn, if_pos hreturn]

/-- The last line ends in a character of two units, and a carriage return may follow it. -/
theorem edits_format_surrogates :
    let text := "x ;\r\n y𝄞".toList
    let returned := text ++ ['\r']
    (text.count '\n' < UInt32.size ∧ utf16Length text < UInt32.size ∧
      returned.count '\n' < UInt32.size ∧ utf16Length returned < UInt32.size) ∧
      Document.tidy text ≠ text ∧
      ((edits text).length ≤ 1 ∧ (edits text = [] ↔ Document.tidy text = text) ∧
        applyEdits? (edits text) text = some (Document.tidy text)) ∧
      (edits returned).length ≤ 1 ∧ (edits returned = [] ↔ Document.tidy returned = returned) ∧
        applyEdits? (edits returned) returned = some (Document.tidy returned ++ ['\r']) := by
  intro text returned
  have hlines : text.count '\n' < UInt32.size := by decide
  have hunits : utf16Length text < UInt32.size := by decide
  have hlines' : returned.count '\n' < UInt32.size := by decide
  have hunits' : utf16Length returned < UInt32.size := by decide
  have huntidy : Document.tidy text ≠ text := by decide +kernel
  obtain ⟨hone, hnone, happlied, -⟩ := edits_format hlines hunits
  obtain ⟨hone', hnone', -, happlied'⟩ := edits_format hlines' hunits'
  exact ⟨⟨hlines, hunits, hlines', hunits'⟩, huntidy, ⟨hone, hnone, happlied (by decide)⟩, hone',
    hnone', happlied' List.getLast?_concat⟩

/-- The range of the only edit ends before the carriage return, which so stays in the edited text. -/
theorem applyEdits?_ne_of_return :
    let text := "x\r".toList
    (text.count '\n' < UInt32.size ∧ utf16Length text < UInt32.size) ∧
      Document.tidy text = "x".toList ∧
      edits text = [⟨⟨⟨0, 0⟩, ⟨0, 1⟩⟩, "x".toList⟩] ∧
      applyEdits? (edits text) text = some "x\r".toList ∧
      applyEdits? (edits text) text ≠ some (Document.tidy text) := by
  intro text
  have htidy : Document.tidy text = "x".toList := by decide +kernel
  have hedits : edits text = [⟨⟨⟨0, 0⟩, ⟨0, 1⟩⟩, "x".toList⟩] := by decide +kernel
  have happlied : applyEdits? (edits text) text = some "x\r".toList := by
    rw [hedits]
    decide +kernel
  refine ⟨⟨by decide, by decide⟩, htidy, hedits, happlied, ?_⟩
  rw [happlied, htidy]
  decide

end Editor

end ChuckLayout
