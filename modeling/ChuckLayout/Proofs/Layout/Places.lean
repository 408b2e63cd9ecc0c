import ChuckLayout.Proofs.Conservation
import ChuckLayout.Proofs.Rereading.Printed

/-!
# Where lexemes stand in a layout

Every lexeme of a stream stands in a row, and the rows before it are told by the line breaks and
braces of the stream before it.  The solid text before a lexeme is that of the lexemes before it, which
fixes its place in the layout.
-/

namespace ChuckLayout

open Blank (IsTight solid trim)
open Spacing

/-- The solid text of lexemes, as they are written. -/
def solidCores (lexemes : List Lexeme) : List Char :=
  lexemes.flatMap fun lexeme => solid lexeme.core

/-- `line` is the one of `lines` that shows `lexeme`, and `above` are those before it: the lexemes
shown up to there are `before`. -/
structure IsLineOf (lines above : List (List Char)) (line : List Char) (before : List Lexeme)
    (lexeme : Lexeme) : Prop where
  stands : above ++ [line] <+: lines
  shows : ∃ left right, line = left ++ lexeme.core ++ right ∧
    solid (above.flatten ++ left) = solidCores before

namespace Spacing

def breaksBefore (previous : Option Token) (token : Token) : Nat :=
  if token.isBrace && previous != some token then 1 else 0

def breaksAfter (token : Token) : Nat :=
  if endsRow token then 1 else 0

/-- How often the line is broken along `tokens`, which stand between `previous` and `last`: after the
first and before the last of these, too. -/
def breaksAlong (previous : Option Token) (tokens : List Token) (last : Token) : Nat :=
  match tokens with
  | [] => breaksBefore previous last
  | token :: rest =>
      breaksBefore previous token + breaksAfter token + breaksAlong (some token) rest last

/-- How many braces more open than close. -/
def nesting (lexemes : List Lexeme) : Int :=
  lexemes.countP (·.token = .openBrace) - lexemes.countP (·.token = .closeBrace)

theorem breaksAlong_append_cons (previous : Option Token) (front : List Token) (token : Token)
    (back : List Token) (last : Token) :
    breaksAlong previous (front ++ token :: back) last =
      breaksAlong previous front token + breaksAfter token + breaksAlong (some token) back last := by
  induction front generalizing previous with
  | nil => rfl
  | cons first front ih =>
      rw [List.cons_append, breaksAlong, breaksAlong, ih]
      omega

theorem nesting_append (front back : List Lexeme) :
    nesting (front ++ back) = nesting front + nesting back := by
  rw [nesting, nesting, nesting, List.countP_append, List.countP_append]
  omega

theorem nesting_of_no_brace {lexemes : List Lexeme}
    (hlexemes : ∀ lexeme ∈ lexemes, lexeme.token.isBrace = false) : nesting lexemes = 0 := by
  have hnone : ∀ brace : Token, brace.isBrace → lexemes.countP (·.token = brace) = 0 := by
    intro brace hbrace
    rw [List.countP_eq_zero]
    intro lexeme hlexeme htoken
    rw [← of_decide_eq_true htoken, hlexemes lexeme hlexeme] at hbrace
    exact Bool.noConfusion hbrace
  rw [nesting, hnone .openBrace rfl, hnone .closeBrace rfl]
  rfl

/-- Line breaks do not count. -/
theorem nesting_filter (lexemes : List Lexeme) :
    nesting (lexemes.filter fun lexeme => lexeme.token != .newline) = nesting lexemes := by
  have hsame : ∀ brace : Token, brace.isBrace →
      (lexemes.filter fun lexeme => lexeme.token != .newline).countP (·.token = brace) =
        lexemes.countP (·.token = brace) := by
    intro brace hbrace
    rw [List.countP_filter]
    refine List.countP_congr fun lexeme _ => ?_
    simp only [Bool.and_eq_true, decide_eq_true_eq, bne_iff_ne, ne_eq, and_iff_left_iff_imp]
    rintro rfl htoken
    rw [htoken] at hbrace
    exact Bool.noConfusion hbrace
  rw [nesting, nesting, hsame .openBrace rfl, hsame .closeBrace rfl]

/-! ## The row of a lexeme -/

/-- A lexeme breaks the line before it, stands in a row, and breaks the line after it or leaves it to
what follows. -/
theorem rowsAfter_cons (previous : Option Token) (lexeme : Lexeme) (rest : List Lexeme) :
    rowsAfter previous (lexeme :: rest) =
      List.replicate (breaksBefore previous lexeme.token) [] ++
        if endsRow lexeme.token then
          [lexeme].filter (fun lexeme => lexeme.token != .newline) ::
            rowsAfter (some lexeme.token) rest
        else (rowsAfter (some lexeme.token) rest).modifyHead (lexeme :: ·) := by
  cases hends : endsRow lexeme.token with
  | false =>
      obtain ⟨-, hbrace⟩ := endsRow_eq_false_iff.mp hends
      simp [rowsAfter_other hends, breaksBefore, hbrace]
  | true =>
      by_cases htoken : lexeme.token = .newline
      · simp [rowsAfter_lineBreak htoken, breaksBefore, htoken, Token.isBrace]
      · have hbrace : lexeme.token.isBrace := by
          simpa [endsRow, htoken] using hends
        rw [rowsAfter_brace hbrace, if_pos rfl]
        by_cases hsame : previous = some lexeme.token
        · simp [breaksBefore, hsame, htoken]
        · simp [breaksBefore, hbrace, hsame, htoken]

/-- A lexeme stands in the row that the line breaks before it lead to. -/
theorem exists_rowsAfter_append_cons (previous : Option Token) (before : List Lexeme)
    {lexeme : Lexeme} (after : List Lexeme) (hlexeme : lexeme.token ≠ .newline) :
    ∃ above left right below,
      rowsAfter previous (before ++ lexeme :: after) = above ++ (left ++ lexeme :: right) :: below ∧
      above.flatten ++ left = before.filter (fun lexeme => lexeme.token != .newline) ∧
      above.length = breaksAlong previous (before.map Lexeme.token) lexeme.token ∧
      (endsRow lexeme.token = false → rowsAfter (some lexeme.token) after = right :: below) := by
  have hempty : ∀ count, (List.replicate count ([] : List Lexeme)).flatten = [] := by
    simp
  induction before generalizing previous with
  | nil =>
      rw [List.nil_append, rowsAfter_cons, List.map_nil, breaksAlong]
      generalize breaksBefore previous lexeme.token = count
      split
      · have hkeep : [lexeme].filter (fun lexeme => lexeme.token != .newline) = [lexeme] := by
          simp [hlexeme]
        rw [hkeep]
        refine ⟨List.replicate count [], [], [], _, rfl, ?_, List.length_replicate, fun hends => ?_⟩
        · simp [hempty]
        · simp_all
      · obtain ⟨row, later, hrows⟩ :=
          List.exists_cons_of_ne_nil (rowsAfter_ne_nil (some lexeme.token) after)
        refine ⟨List.replicate count [], [], row, later, by rw [hrows]; rfl, ?_, List.length_replicate,
          fun _ => hrows⟩
        simp [hempty]
  | cons first before ih =>
      obtain ⟨above, left, right, below, hrows, hfront, hlength, hrest⟩ := ih (some first.token)
      have hfilter := List.filter_append (p := fun lexeme => lexeme.token != .newline) [first] before
      rw [List.singleton_append, ← hfront] at hfilter
      rw [List.cons_append, rowsAfter_cons, hrows, List.map_cons, breaksAlong, ← hlength, breaksAfter, hfilter]
      generalize breaksBefore previous first.token = count
      split
      · refine ⟨List.replicate count [] ++
          [first].filter (fun lexeme => lexeme.token != .newline) :: above, left, right, below, by simp,
          ?_, ?_, hrest⟩
        · simp [hempty]
        · rw [List.length_append, List.length_replicate, List.length_cons]
          omega
      · rename_i hends
        have hkeep : [first].filter (fun lexeme => lexeme.token != .newline) = [first] := by
          have htoken := (endsRow_eq_false_iff.mp (Bool.not_eq_true _ ▸ hends)).1
          simp [htoken]
        rw [hkeep]
        cases above with
        | nil =>
            refine ⟨List.replicate count [], first :: left, right, below, by simp, ?_, by simp, hrest⟩
            simp [hempty]
        | cons row above =>
            refine ⟨List.replicate count [] ++ (first :: row) :: above, left, right, below, by simp, ?_,
              by simp, hrest⟩
            simp [hempty]

/-- Lexemes that end no row stand in one row when nothing else stands between them. -/
theorem exists_rowsAfter_append {run : List Lexeme} (hrun : ∀ lexeme ∈ run, endsRow lexeme.token = false)
    (previous : Option Token) (after : List Lexeme) :
    ∃ right below, rowsAfter previous (run ++ after) = (run ++ right) :: below := by
  induction run generalizing previous with
  | nil => exact List.exists_cons_of_ne_nil (rowsAfter_ne_nil previous after)
  | cons first run ih =>
      obtain ⟨hfirst, hrest⟩ := List.forall_mem_cons.mp hrun
      obtain ⟨right, below, hrows⟩ := ih hrest (some first.token)
      exact ⟨right, below, by rw [List.cons_append, rowsAfter_other hfirst, hrows]; rfl⟩

/-- A brace is all of its row. -/
theorem eq_nil_of_brace_mem {previous : Option Token} {lexemes left right : List Lexeme}
    {lexeme : Lexeme} (hrow : left ++ lexeme :: right ∈ rowsAfter previous lexemes)
    (hbrace : lexeme.token.isBrace) : left = [] ∧ right = [] := by
  rcases isBrace_of_mem_rowsAfter hrow with ⟨other, hsingle, -⟩ | hnone
  · cases left with
    | nil => exact ⟨rfl, (List.cons.inj hsingle).2⟩
    | cons first left => simp at hsingle
  · rw [hnone lexeme (by simp)] at hbrace
    exact Bool.noConfusion hbrace

theorem isBraceRow_of_no_brace {row : List Lexeme}
    (hrow : ∀ lexeme ∈ row, lexeme.token.isBrace = false) {brace : Token} (hbrace : brace.isBrace) :
    isBraceRow brace row = false := by
  rw [isBraceRow, decide_eq_false_iff_not]
  intro hmap
  obtain ⟨lexeme, rfl, rfl⟩ := List.map_eq_singleton_iff.mp hmap
  rw [hrow lexeme (List.mem_singleton_self lexeme)] at hbrace
  exact Bool.noConfusion hbrace

/-- A row is written one step out when the lexeme in it is a closing brace. -/
theorem rowDepth_of_mem {previous : Option Token} {lexemes row : List Lexeme} {lexeme : Lexeme}
    (hrow : row ∈ rowsAfter previous lexemes) (hlexeme : lexeme ∈ row) (depth : Int) :
    rowDepth depth row = if lexeme.token = .closeBrace then depth - 1 else depth := by
  rcases isBrace_of_mem_rowsAfter hrow with ⟨other, rfl, -⟩ | hnone
  · obtain rfl := List.mem_singleton.mp hlexeme
    simp [rowDepth, isBraceRow]
  · have hnot : lexeme.token ≠ .closeBrace := by
      intro htoken
      have hbrace := hnone lexeme hlexeme
      rw [htoken] at hbrace
      exact Bool.noConfusion hbrace
    rw [rowDepth, isBraceRow_of_no_brace hnone rfl, if_neg hnot, if_neg Bool.false_ne_true]

/-- No brace stands before a lexeme in its row. -/
theorem nesting_of_mem {previous : Option Token} {lexemes left right : List Lexeme}
    {lexeme : Lexeme} (hrow : left ++ lexeme :: right ∈ rowsAfter previous lexemes) :
    nesting left = 0 := by
  rcases isBrace_of_mem_rowsAfter hrow with ⟨other, hsingle, hbrace⟩ | hnone
  · cases left with
    | nil => rfl
    | cons first left => simp at hsingle
  · exact nesting_of_no_brace fun other hother => hnone other (List.mem_append_left _ hother)

/-- Rows change the depth as the braces in them do. -/
theorem foldl_depthAfterRow {found : List (List Lexeme)}
    (hfound : ∀ row ∈ found, (∃ lexeme, row = [lexeme] ∧ lexeme.token.isBrace) ∨
      ∀ lexeme ∈ row, lexeme.token.isBrace = false) (depth : Int) :
    found.foldl depthAfterRow depth = depth + nesting found.flatten := by
  induction found generalizing depth with
  | nil => exact (Int.add_zero depth).symm
  | cons row rest ih =>
      obtain ⟨hrow, hrest⟩ := List.forall_mem_cons.mp hfound
      have hstep : depthAfterRow depth row = depth + nesting row := by
        rcases hrow with ⟨lexeme, rfl, hbrace⟩ | hnone
        · rcases Token.isBrace_iff.mp hbrace with htoken | htoken
          · simp [depthAfterRow, isBraceRow, nesting, htoken]
          · simp [depthAfterRow, isBraceRow, nesting, htoken]
            omega
        · rw [depthAfterRow, isBraceRow_of_no_brace hnone rfl, isBraceRow_of_no_brace hnone rfl,
            nesting_of_no_brace hnone]
          simp
      rw [List.foldl_cons, ih hrest, hstep, List.flatten_cons, nesting_append]
      omega

end Spacing

/-! ## The line of a lexeme -/

theorem solidCores_append (front back : List Lexeme) :
    solidCores (front ++ back) = solidCores front ++ solidCores back :=
  List.flatMap_append

theorem solidCores_filter (lexemes : List Lexeme) :
    solidCores (lexemes.filter fun lexeme => lexeme.token != .newline) = solidCores lexemes := by
  induction lexemes with
  | nil => rfl
  | cons lexeme rest ih =>
      by_cases htoken : lexeme.token = .newline
      · have hcore : solid lexeme.core = [] := by
          rw [(Lexeme.core_of_isTableEntry (htoken ▸ rfl)).2, htoken]
          rfl
        rw [List.filter_cons_of_neg (by simp [htoken]), ih, solidCores, solidCores, List.flatMap_cons,
          hcore, List.nil_append]
      · rw [List.filter_cons_of_pos (by simp [htoken]), solidCores, solidCores, List.flatMap_cons,
          List.flatMap_cons, ← solidCores, ih, solidCores]

theorem solidCores_of_map_item {lexemes others : List Lexeme}
    (hitems : lexemes.map Lexeme.item = others.map Lexeme.item) :
    solidCores lexemes = solidCores others := by
  induction lexemes generalizing others with
  | nil => rw [List.map_eq_nil_iff.mp hitems.symm]
  | cons lexeme rest ih =>
      obtain ⟨other, later, rfl, hitem, hlater⟩ := List.map_eq_cons_iff.mp hitems.symm
      rw [solidCores, solidCores, List.flatMap_cons, List.flatMap_cons,
        Lexeme.core_eq_of_item hitem, ← solidCores, ← solidCores, ih hlater.symm]

variable {stream : List Lexeme}

theorem exists_rowText_cons (stream : List Lexeme) (previous : Option Lexeme) (lexeme : Lexeme)
    (right : List Lexeme) :
    ∃ back, rowText stream previous (lexeme :: right) = lexeme.core ++ back := by
  cases right with
  | nil => exact ⟨[], (List.append_nil _).symm⟩
  | cons second right => exact ⟨_, by rw [rowText, List.append_assoc]⟩

/-- The end of a row is written after the lexemes before it. -/
theorem exists_rowText_append (stream : List Lexeme) (previous : Option Lexeme) (left : List Lexeme)
    {right : List Lexeme} (hright : right ≠ []) :
    ∃ front last, rowText stream previous (left ++ right) = front ++ rowText stream last right ∧
      solid front = solidCores left := by
  induction left generalizing previous with
  | nil => exact ⟨[], previous, rfl, rfl⟩
  | cons first left ih =>
      obtain ⟨front, last, htext, hsolid⟩ := ih (some first)
      obtain ⟨second, rest, hrest⟩ : ∃ second rest, left ++ right = second :: rest :=
        List.exists_cons_of_ne_nil (by simp [hright])
      rw [hrest] at htext
      refine ⟨first.core ++
        Blank.padding (isGapped stream previous first second rest.head?) ++ front, last, ?_, ?_⟩
      · rw [List.cons_append, hrest, rowText, htext]
        simp only [List.append_assoc]
      · rw [Blank.solid_append, Blank.solid_append, solid_padding, List.append_nil, hsolid]
        rfl

/-- Lines that show rows up to blanks have the solid characters of the rows. -/
theorem solid_flatten_of_map_trim {lines : List (List Char)} {found : List (List Lexeme)}
    (hlines : lines.map trim = found.map (rowText stream none)) :
    solid lines.flatten = solidCores found.flatten := by
  induction found generalizing lines with
  | nil => rw [List.map_eq_nil_iff.mp hlines]; rfl
  | cons row found ih =>
      obtain ⟨line, later, rfl, hline, hlater⟩ := List.map_eq_cons_iff.mp hlines
      rw [List.flatten_cons, List.flatten_cons, Blank.solid_append, solidCores_append, ih hlater,
        ← Blank.solid_trim, hline, solid_rowText]
      rfl

/-- Lines that show the rows up to the one of a lexeme show the lexeme in the last of them. -/
theorem isLineOf_of_map_trim {lines above : List (List Char)} {line : List Char}
    {found : List (List Lexeme)} {left right before : List Lexeme} {lexeme : Lexeme}
    (hstands : above ++ [line] <+: lines)
    (habove : above.map trim = found.map (rowText stream none))
    (hline : trim line = rowText stream none (left ++ lexeme :: right))
    (hbefore : found.flatten ++ left = before.filter fun lexeme => lexeme.token != .newline) :
    IsLineOf lines above line before lexeme := by
  obtain ⟨lead, trail, hlead, -, htrim⟩ := Blank.exists_trim line
  obtain ⟨front, last, htext, hsolid⟩ :=
    exists_rowText_append stream none left (List.cons_ne_nil lexeme right)
  obtain ⟨back, hback⟩ := exists_rowText_cons stream last lexeme right
  rw [hline, htext, hback] at htrim
  refine ⟨hstands, lead ++ front, back ++ trail, by rw [htrim]; simp only [List.append_assoc], ?_⟩
  rw [Blank.solid_append, Blank.solid_append, hlead.solid_eq_nil, List.nil_append, hsolid,
    solid_flatten_of_map_trim habove, ← solidCores_append, hbefore, solidCores_filter]

/-! ## The lines of a layout -/

theorem lineFeed_not_mem_core {lexeme : Lexeme} (hneat : lexeme.IsNeat) : '\n' ∉ lexeme.core := by
  rw [← hneat.core]
  intro hfeed
  rcases Blank.mem_of_mem_squeeze hfeed with hspace | hfeed
  · exact absurd hspace (by decide)
  · exact hneat.feed hfeed

section

variable (hneat : ∀ lexeme ∈ stream, lexeme.token ≠ .newline → lexeme.IsNeat)

include hneat

/-- The lines of a rendered stream, trimmed, are its rows. -/
theorem map_trim_split_render :
    (Line.split (render stream)).map trim = (rows stream).map (rowText stream none) := by
  rw [render, Blank.split_squeeze, List.map_map]
  exact map_eq_of_forall₂ (split_flatten_writtenAfter hneat) fun _ _ hline => hline.content

omit hneat in
theorem length_printRows (depth : Int) (found : List (List Lexeme)) :
    (printRows stream depth found).length = found.length := by
  induction found generalizing depth with
  | nil => rfl
  | cons row rest ih => rw [printRows, List.length_cons, List.length_cons, ih]

omit hneat in
theorem map_trim_printRows {found : List (List Lexeme)}
    (htight : ∀ row ∈ found, ∀ lexeme ∈ row, IsTight lexeme.core) (depth : Int) :
    (printRows stream depth found).map trim = found.map (rowText stream none) := by
  induction found generalizing depth with
  | nil => rfl
  | cons row rest ih =>
      obtain ⟨hrow, hrest⟩ := List.forall_mem_cons.mp htight
      rw [printRows, List.map_cons, List.map_cons, ih hrest,
        Blank.trim_of_blank_append (Nesting.allBlank_indentation _)]
      cases row with
      | nil => rfl
      | cons first row => rw [Blank.trim_of_tight (isTight_rowText stream hrow (by simp) none)]

theorem split_layOut : Line.split (Document.layOut stream) = printRows stream 0 (rows stream) := by
  rw [Document.layOut, Nesting.split_indent, render, Blank.split_squeeze]
  exact indentLines_map_squeeze (split_flatten_writtenAfter hneat)
    (fun _ hrow => isNeat_of_mem_rows hneat hrow) 0

variable {before after : List Lexeme} {lexeme : Lexeme}

/-- A lexeme is shown on the line of its row. -/
theorem exists_isLineOf_render (hstream : stream = before ++ lexeme :: after)
    (hlexeme : lexeme.token ≠ .newline) :
    ∃ above line left right,
      IsLineOf (Line.split (render stream)) above line before lexeme ∧
      left ++ lexeme :: right ∈ rows stream ∧
      trim line = rowText stream none (left ++ lexeme :: right) := by
  obtain ⟨found, left, right, later, hrows, hbefore, -⟩ :=
    exists_rowsAfter_append_cons none before after hlexeme
  rw [← hstream, ← rows] at hrows
  have hlines := map_trim_split_render hneat
  rw [hrows, List.map_append, List.map_cons] at hlines
  obtain ⟨above, later', hsplit, habove, hlater⟩ := List.map_eq_append_iff.mp hlines
  obtain ⟨line, below, rfl, hline, -⟩ := List.map_eq_cons_iff.mp hlater
  refine ⟨above, line, left, right, ?_, by simp [hrows], hline⟩
  exact isLineOf_of_map_trim ⟨below, by rw [hsplit]; simp⟩ habove hline hbefore

/-- A lexeme is shown on the line of its row, indented by the braces before it. -/
theorem exists_isLineOf_layOut (hstream : stream = before ++ lexeme :: after)
    (hlexeme : lexeme.token ≠ .newline) :
    ∃ above text, above.length = breaksAlong none (before.map Lexeme.token) lexeme.token ∧ IsTight text ∧
      IsLineOf (Line.split (Document.layOut stream)) above
        (Nesting.indentation
          (if lexeme.token = .closeBrace then nesting before - 1 else nesting before) ++ text)
        before lexeme := by
  obtain ⟨found, left, right, later, hrows, hbefore, hlength, -⟩ :=
    exists_rowsAfter_append_cons none before after hlexeme
  rw [← hstream, ← rows] at hrows
  have hmem : left ++ lexeme :: right ∈ rows stream := by simp [hrows]
  have htight : ∀ row ∈ rows stream, ∀ lexeme ∈ row, IsTight lexeme.core :=
    fun _ hrow _ hlexeme => (isNeat_of_mem_rows hneat hrow _ hlexeme).isTight_core
  have hrow := isTight_rowText stream (htight _ hmem) (by simp) none
  have hnesting : nesting before = nesting found.flatten := by
    rw [← nesting_filter before, ← hbefore, nesting_append, nesting_of_mem hmem, Int.add_zero]
  have hdepth : found.foldl depthAfterRow 0 = nesting before := by
    rw [foldl_depthAfterRow, Int.zero_add, hnesting]
    intro row hrow
    have hmem : row ∈ rowsAfter none stream := by
      rw [← rows, hrows]
      exact List.mem_append_left _ hrow
    exact isBrace_of_mem_rowsAfter hmem
  have hrowDepth :=
    rowDepth_of_mem hmem (List.mem_append_right left List.mem_cons_self) (nesting before)
  have htrim : trim (Nesting.indentation
        (if lexeme.token = .closeBrace then nesting before - 1 else nesting before) ++
      rowText stream none (left ++ lexeme :: right)) = rowText stream none (left ++ lexeme :: right) := by
    rw [Blank.trim_of_blank_append (Nesting.allBlank_indentation _), Blank.trim_of_tight hrow]
  have hlines := split_layOut hneat
  rw [hrows, printRows_append, hdepth, printRows, hrowDepth] at hlines
  refine ⟨printRows stream 0 found, rowText stream none (left ++ lexeme :: right), ?_, hrow, ?_⟩
  · rw [length_printRows, hlength]
  refine isLineOf_of_map_trim
    ⟨printRows stream (depthAfterRow (nesting before) (left ++ lexeme :: right)) later, ?_⟩
    (map_trim_printRows ?_ 0) htrim hbefore
  · rw [hlines, List.append_assoc]
    rfl
  · exact fun row hrow => htight row (by rw [hrows]; exact List.mem_append_left _ hrow)

end

/-! ## The place of a lexeme -/

theorem Line.join_append_cons (above : List (List Char)) (line : List Char)
    (below : List (List Char)) :
    Line.join (above ++ line :: below) =
      (above.flatMap fun other => other ++ ['\n']) ++ line ++
        below.flatMap fun other => '\n' :: other := by
  induction above with
  | nil => exact Line.join_cons line below
  | cons first above ih =>
      obtain ⟨second, rest, hrest⟩ : ∃ second rest, above ++ line :: below = second :: rest :=
        List.exists_cons_of_ne_nil (by simp)
      rw [hrest] at ih
      rw [List.cons_append, hrest, Line.join_cons, List.flatMap_cons, List.cons_append,
        ← Line.join_cons, ih, List.flatMap_cons]
      simp

theorem Line.count_lines {lines : List (List Char)} (hlines : ∀ line ∈ lines, '\n' ∉ line) :
    (lines.flatMap fun line => line ++ ['\n']).count '\n' = lines.length := by
  induction lines with
  | nil => rfl
  | cons line lines ih =>
      obtain ⟨hline, hlater⟩ := List.forall_mem_cons.mp hlines
      rw [List.flatMap_cons, List.count_append, List.count_append, ih hlater,
        List.count_eq_zero_of_not_mem hline, List.length_cons, List.count_singleton_self]
      omega

theorem solid_flatMap_lineFeed (lines : List (List Char)) :
    solid (lines.flatMap fun line => line ++ ['\n']) = lines.flatMap solid := by
  rw [Blank.solid_flatMap]
  refine List.flatMap_congr fun line _ => ?_
  rw [Blank.solid_append, Blank.solid_cons_of_blank Blank.isBlank_lineFeed, Blank.solid_nil,
    List.append_nil]

/-- A lexeme on a line of a text stands in the text after as many line breaks as there are lines before
its own. -/
theorem IsLineOf.exists_text {text line : List Char} {above : List (List Char)}
    {before : List Lexeme} {lexeme : Lexeme}
    (hline : IsLineOf (Line.split text) above line before lexeme) :
    ∃ front back, text = front ++ lexeme.core ++ back ∧ solid front = solidCores before ∧
      front.count '\n' = above.length := by
  obtain ⟨⟨below, hsplit⟩, left, right, rfl, hsolid⟩ := hline
  rw [List.append_assoc, List.singleton_append] at hsplit
  have hfeed := Blank.lineFeed_not_mem_split text
  rw [← hsplit] at hfeed
  have hjoin : text = Line.join (Line.split text) := (Line.join_split text).symm
  rw [← hsplit, Line.join_append_cons] at hjoin
  refine ⟨(above.flatMap fun other => other ++ ['\n']) ++ left,
    right ++ below.flatMap fun other => '\n' :: other, ?_, ?_, ?_⟩
  · rw [hjoin]
    simp only [List.append_assoc]
  · have habove : solid (above.flatMap fun other => other ++ ['\n']) = solid above.flatten := by
      rw [solid_flatMap_lineFeed, ← List.flatMap_id, Blank.solid_flatMap]
      rfl
    rw [Blank.solid_append, habove, ← Blank.solid_append, hsolid]
  · have hleft : left.count '\n' = 0 := by
      refine List.count_eq_zero.mpr fun hmem => ?_
      exact hfeed (left ++ lexeme.core ++ right) (by simp) (by simp [hmem])
    rw [List.count_append, hleft, Nat.add_zero,
      Line.count_lines fun line hline => hfeed line (by simp [hline])]

/-- A lexeme stands in the layout after the lexemes before it and the line breaks along them. -/
theorem exists_place (hneat : ∀ lexeme ∈ stream, lexeme.token ≠ .newline → lexeme.IsNeat)
    {before after : List Lexeme} {lexeme : Lexeme} (hstream : stream = before ++ lexeme :: after)
    (hlexeme : lexeme.token ≠ .newline) :
    ∃ front back, Document.layOut stream = front ++ lexeme.core ++ back ∧
      solid front = solidCores before ∧
      front.count '\n' = breaksAlong none (before.map Lexeme.token) lexeme.token := by
  obtain ⟨above, text, hlength, -, hline⟩ := exists_isLineOf_layOut hneat hstream hlexeme
  rw [← hlength]
  exact hline.exists_text

/-! ## The place of lexemes in the formatted source -/

theorem solidCores_eq_solidOf {lexemes : List Lexeme}
    (hlexemes : ∀ lexeme ∈ lexemes, IsStreamItem (fun _ => True) lexeme.item) :
    solidCores lexemes = solidOf (lexemes.map Lexeme.item) := by
  rw [solidCores, solidOf, List.flatMap_map]
  exact List.flatMap_congr fun lexeme hlexeme => solid_core (hlexemes lexeme hlexeme)

/-- Lexemes of a stream that end no row are written in one piece, after the solid text of those before
them. -/
theorem exists_join_of_run {stream before run after : List Lexeme}
    (hstream : stream = before ++ (run ++ after)) (hne : run ≠ [])
    (hrun : ∀ lexeme ∈ run, endsRow lexeme.token = false) :
    ∃ front previous right back,
      Line.join (printRows stream 0 (rows stream)) =
        front ++ rowText stream previous (run ++ right) ++ back ∧
      solid front = solidCores before := by
  obtain ⟨first, rest, rfl⟩ := List.exists_cons_of_ne_nil hne
  obtain ⟨hfirst, hrest⟩ := List.forall_mem_cons.mp hrun
  obtain ⟨found, left, right, below, hrows, hbefore, -, hlater⟩ := exists_rowsAfter_append_cons none
    before (rest ++ after) (endsRow_eq_false_iff.mp hfirst).1
  obtain ⟨right', below', hafter⟩ := exists_rowsAfter_append hrest (some first.token) after
  obtain ⟨rfl, rfl⟩ := List.cons.inj ((hlater hfirst).symm.trans hafter)
  rw [← List.cons_append, ← hstream, ← rows] at hrows
  obtain ⟨lead, last, htext, hlead⟩ := exists_rowText_append stream none left
    (List.cons_ne_nil first (rest ++ right'))
  have hline : ∀ above line middle below : List Char,
      above ++ (line ++ (lead ++ middle)) ++ below = above ++ line ++ lead ++ middle ++ below := by
    simp only [List.append_assoc, implies_true]
  rw [hrows, printRows_append, printRows, Line.join_append_cons, htext]
  refine ⟨_, last, right', _, hline _ _ _ _, ?_⟩
  rw [Blank.solid_append, Blank.solid_append, solid_flatMap_lineFeed, solid_printRows,
    (Nesting.allBlank_indentation _).solid_eq_nil, List.append_nil, hlead, ← solidCores, ← solidCores_append,
    hbefore, solidCores_filter]

/-- Lexemes of the source that end no row are written in one piece, after the solid text of those before
them. -/
theorem exists_tidy_of_run {source : List Char} {before run after : List Lexeme}
    (hlexed : lexAtoms [] (atoms source) = before ++ (run ++ after)) (hne : run ≠ [])
    (hrun : ∀ lexeme ∈ run, endsRow lexeme.token = false) :
    ∃ front previous run' right back,
      Document.tidy source =
        trim (front ++ rowText (plainStream source) previous (run' ++ right) ++ back) ∧
      run'.map Lexeme.item = run.map Lexeme.item ∧
      solid front = solidOf (before.map Lexeme.item) := by
  have hitems : ∀ lexeme ∈ before ++ (run ++ after),
      IsStreamItem (fun _ => True) lexeme.item ∧ lexeme.IsFresh := by
    rw [← hlexed]
    exact fun lexeme hlexeme => isStreamItem_of_mem_lexAtoms _ (fun _ _ => trivial) hlexeme
  have hdropped : ∀ lexeme ∈ before ++ (run ++ after), lexeme.dropped = false := by
    intro lexeme hlexeme
    rw [(hitems lexeme hlexeme).2]
  obtain ⟨before', run', after', hstream, hrun', hbefore'⟩ := exists_applyAll_append hdropped hne
    fun lexeme hlexeme => (endsRow_eq_false_iff.mp (hrun lexeme hlexeme)).1
  rw [← hlexed, ← plainStream] at hstream
  have hne' : run' ≠ [] := by
    rintro rfl
    exact hne (List.map_eq_nil_iff.mp hrun'.symm)
  have hends : ∀ lexeme ∈ run', endsRow lexeme.token = false := by
    intro lexeme hlexeme
    have hmem := List.mem_map_of_mem (f := Lexeme.item) hlexeme
    rw [hrun'] at hmem
    obtain ⟨other, hother, hitem⟩ := List.mem_map.mp hmem
    have htoken : other.token = lexeme.token := congrArg Prod.fst hitem
    rw [← htoken]
    exact hrun other hother
  obtain ⟨front, previous, right, back, hjoin, hsolid⟩ := exists_join_of_run hstream hne' hends
  refine ⟨front, previous, run', right, back, by rw [tidy_eq_join_printRows, hjoin], hrun', ?_⟩
  have hplain : ∀ lexeme ∈ before', IsStreamItem (fun _ => True) lexeme.item := by
    intro lexeme hlexeme
    exact isStreamItem_of_mem_plainStream (hstream ▸ List.mem_append_left _ hlexeme)
  rw [hsolid, solidCores_eq_solidOf hplain, ← solidOf_filter, hbefore', solidOf_filter]
  · simpa using fun lexeme hlexeme => (hitems lexeme (List.mem_append_left _ hlexeme)).1
  · simpa using hplain

end ChuckLayout
