import ChuckLayout.Layout.Nesting
import ChuckLayout.Proofs.Text.Squeeze

/-!
# Indenting a text

Indenting keeps the lines of a text and what each of them shows, and it looks at nothing else.  So two
texts are indented alike just when their lines show the same, and a text that is indented already
stays as it is.  How deep a line is written can be told from the bare braces down to it, whether they
are balanced or not.
-/

namespace ChuckLayout.Nesting

open Blank (AllBlank trim)

def trimmedLines (text : List Char) : List (List Char) :=
  (Line.split text).map trim

/-- How deep a line is: as many steps as bare opening braces stand above it, less one for every bare
closing brace down to it.  A closing brace steps back on its own line already, and where more closes
than opens the depth is below zero. -/
def depthAt (lines : List (List Char)) (place : Nat) : Int :=
  (lines.take place).count ['\x7b'] - (lines.take (place + 1)).count ['\x7d']

/-! ## One line after another -/

theorem depthAt_cons_zero (depth : Int) (line : List Char) (rest : List (List Char)) :
    depth + depthAt (line :: rest) 0 = depthOf depth line := by
  by_cases hclose : line = ['\x7d'] <;> simp [depthAt, depthOf, hclose, Int.sub_eq_add_neg]

/-- What a line does to the depth of those below it. -/
theorem depthAt_cons_succ (depth : Int) (line : List Char) (rest : List (List Char)) (place : Nat) :
    depth + depthAt (line :: rest) (place + 1) = depthAfter depth line + depthAt rest place := by
  rw [depthAt, depthAt, depthAfter, List.take_succ_cons, List.take_succ_cons]
  by_cases hopen : line = ['\x7b']
  · rw [if_pos hopen, hopen, List.count_cons_self, List.count_cons_of_ne (by decide)]
    omega
  by_cases hclose : line = ['\x7d']
  · rw [if_neg hopen, if_pos hclose, hclose, List.count_cons_self, List.count_cons_of_ne (by decide)]
    omega
  · rw [if_neg hopen, if_neg hclose, List.count_cons_of_ne hopen, List.count_cons_of_ne hclose]

/-- Lines are indented by what they show, each by the depth of its place below lines that leave
`depth`. -/
theorem indentLines_eq_mapIdx (depth : Int) (lines : List (List Char)) :
    indentLines depth lines = (lines.map trim).mapIdx fun place line =>
      indentation (depth + depthAt (lines.map trim) place) ++ line := by
  induction lines generalizing depth with
  | nil => rfl
  | cons line rest ih =>
      -- The rest stands one place further down, below a line that has changed the depth.
      rw [indentLines, ih, List.map_cons, List.mapIdx_cons, depthAt_cons_zero]
      simp only [depthAt_cons_succ]

theorem length_indentLines (depth : Int) (lines : List (List Char)) :
    (indentLines depth lines).length = lines.length := by
  rw [indentLines_eq_mapIdx, List.length_mapIdx, List.length_map]

theorem allBlank_indentation (depth : Int) : AllBlank (indentation depth) :=
  Blank.allBlank_replicate Blank.isBlank_space _

/-- Indented lines show what they have shown before. -/
theorem map_trim_indentLines (depth : Int) (lines : List (List Char)) :
    (indentLines depth lines).map trim = lines.map trim := by
  induction lines generalizing depth with
  | nil => rfl
  | cons line rest ih =>
      rw [indentLines, List.map_cons, List.map_cons, ih,
        Blank.trim_of_blank_append (allBlank_indentation _), Blank.trim_trim]

theorem lineFeed_not_mem_indentLines {lines : List (List Char)}
    (hlines : ∀ line ∈ lines, '\n' ∉ line) (depth : Int) :
    ∀ line ∈ indentLines depth lines, '\n' ∉ line := by
  induction lines generalizing depth with
  | nil => exact List.forall_mem_nil _
  | cons line rest ih =>
      obtain ⟨hline, hrest⟩ := List.forall_mem_cons.mp hlines
      refine List.forall_mem_cons.mpr ⟨?_, ih hrest _⟩
      rw [List.mem_append, not_or]
      refine ⟨fun hfeed => ?_, fun hfeed => hline ((Blank.trim_isInfix line).subset hfeed)⟩
      exact absurd (List.eq_of_mem_replicate hfeed) (by decide)

/-! ## Whole texts -/

theorem split_indent (text : List Char) :
    Line.split (indent text) = indentLines 0 (Line.split text) := by
  apply Line.split_join
  · exact lineFeed_not_mem_indentLines (Blank.lineFeed_not_mem_split text) 0
  · rw [← List.length_pos_iff, length_indentLines, List.length_pos_iff]
    exact Blank.split_ne_nil text

theorem trimmedLines_indent (text : List Char) : trimmedLines (indent text) = trimmedLines text := by
  rw [trimmedLines, split_indent, map_trim_indentLines, trimmedLines]

/-- Nothing of a text matters to indenting but what its lines show. -/
theorem indent_eq_iff {text other : List Char} :
    indent text = indent other ↔ trimmedLines text = trimmedLines other := by
  constructor
  · intro hindent
    rw [← trimmedLines_indent text, hindent, trimmedLines_indent]
  · intro hlines
    rw [trimmedLines, trimmedLines] at hlines
    rw [indent, indent, indentLines_eq_mapIdx, hlines, ← indentLines_eq_mapIdx]

/-- Indenting a text keeps its lines, as many as there are, and what each of them shows.  A line is
indented by four spaces for every step that it is deep, and not at all when it is no step deep or less.
To indent once more changes nothing, for texts whose lines show the same are indented alike. -/
theorem indent_keeps_lines (text : List Char) :
    let lines := (Line.split text).map trim
    (Line.split (indent text)).length = (Line.split text).length ∧
      (Line.split (indent text)).map trim = lines ∧
      Line.split (indent text) = lines.mapIdx (fun place line =>
        List.replicate (4 * (depthAt lines place).toNat) ' ' ++ line) ∧
      indent (indent text) = indent text ∧
      ∀ other, indent other = indent text ↔ (Line.split other).map trim = lines := by
  intro lines
  refine ⟨?_, trimmedLines_indent text, ?_, ?_, fun other => indent_eq_iff⟩
  · rw [split_indent, length_indentLines]
  · rw [split_indent, indentLines_eq_mapIdx]
    simp only [Int.zero_add]
    rfl
  · exact indent_eq_iff.mpr (trimmedLines_indent text)

/-- A brace that closes nothing takes the lines after it one step back, and an empty line is given the
blanks of its depth. -/
example :
    indent "  \x7d\n\x7b\n\t\x7b\n\nx; \n".toList =
      "\x7d\n\x7b\n\x7b\n    \n    x;\n    ".toList := by
  decide +kernel

end ChuckLayout.Nesting
