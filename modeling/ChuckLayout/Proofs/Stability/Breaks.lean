import ChuckLayout.Proofs.Relexing.Formatted

/-!
# Line breaks that come back

Rows with a line break after each of them have more line breaks than the stream that the rows were
found in: those next to braces.  These are the ones that are dropped again, so the rows are found
again, but for empty rows at either end.
-/

namespace ChuckLayout

open BraceBreaks (braceAhead filter_keptFrom keptFrom keptFrom_induction keptFrom_lineBreak
  keptFrom_other suppress)
open Lexeme (Corresponds)
open List (Forall₂)
open Spacing

def lineBreaks (count : Nat) : List Lexeme :=
  List.replicate count .lineBreak

/-! ## Line breaks at either end -/

theorem braceAhead_lineBreak_cons (rest : List Lexeme) :
    braceAhead (.lineBreak :: rest) = braceAhead rest := rfl

theorem braceAhead_append_lineBreaks (lexemes : List Lexeme) (count : Nat) :
    braceAhead (lexemes ++ lineBreaks count) = braceAhead lexemes := by
  induction lexemes with
  | nil =>
      induction count with
      | zero => rfl
      | succ count ih => exact ih
  | cons lexeme rest ih => rw [List.cons_append, braceAhead, braceAhead, ih]

theorem exists_keptFrom_lineBreaks_append (afterBrace : Bool) (count : Nat) (rest : List Lexeme) :
    ∃ kept, keptFrom afterBrace (lineBreaks count ++ rest) =
      lineBreaks kept ++ keptFrom afterBrace rest := by
  induction count with
  | zero => exact ⟨0, rfl⟩
  | succ count ih =>
      obtain ⟨kept, hkept⟩ := ih
      rw [lineBreaks, List.replicate_succ, List.cons_append, keptFrom_lineBreak rfl rfl, ← lineBreaks,
        hkept]
      split
      · exact ⟨kept, rfl⟩
      · exact ⟨kept + 1, rfl⟩

/-- Line breaks at the end are kept or dropped, and change nothing about the lexemes before them. -/
theorem exists_keptFrom_append_lineBreaks {lexemes : List Lexeme}
    (hlexemes : ∀ lexeme ∈ lexemes, lexeme.dropped = false) (afterBrace : Bool) (count : Nat) :
    ∃ kept, keptFrom afterBrace (lexemes ++ lineBreaks count) =
      keptFrom afterBrace lexemes ++ lineBreaks kept := by
  induction lexemes generalizing afterBrace with
  | nil =>
      obtain ⟨kept, hkept⟩ := exists_keptFrom_lineBreaks_append afterBrace count []
      rw [List.append_nil] at hkept
      exact ⟨kept, hkept.trans (List.append_nil _)⟩
  | cons lexeme rest ih =>
      obtain ⟨hdropped, hrest⟩ := List.forall_mem_cons.mp hlexemes
      rw [List.cons_append]
      by_cases htoken : lexeme.token = .newline
      · obtain ⟨kept, hkept⟩ := ih hrest afterBrace
        rw [keptFrom_lineBreak htoken hdropped, keptFrom_lineBreak htoken hdropped,
          braceAhead_append_lineBreaks, hkept]
        split <;> exact ⟨kept, rfl⟩
      · obtain ⟨kept, hkept⟩ := ih hrest lexeme.token.isBrace
        rw [keptFrom_other htoken hdropped, keptFrom_other htoken hdropped, hkept]
        exact ⟨kept, rfl⟩

theorem rowsAfter_congr {previous previous' : Option Token} (lexemes : List Lexeme)
    (hprevious : ∀ token : Token, token.isBrace → (previous = some token ↔ previous' = some token)) :
    rowsAfter previous lexemes = rowsAfter previous' lexemes := by
  cases lexemes with
  | nil => rfl
  | cons lexeme rest =>
      by_cases hbrace : lexeme.token.isBrace
      · rw [rowsAfter_brace hbrace, rowsAfter_brace hbrace]
        simp only [hprevious _ hbrace]
      · rw [rowsAfter, rowsAfter, if_neg hbrace, if_neg hbrace]

theorem rows_lineBreaks_append (count : Nat) (rest : List Lexeme) :
    rows (lineBreaks count ++ rest) = List.replicate count [] ++ rows rest := by
  induction count with
  | zero => rfl
  | succ count ih =>
      have hnone : rowsAfter (some .newline) (lineBreaks count ++ rest) =
          rowsAfter none (lineBreaks count ++ rest) := by
        apply rowsAfter_congr
        intro token hbrace
        constructor <;> intro hsome
        · obtain rfl := Option.some.inj hsome
          exact absurd hbrace (by decide)
        · exact absurd hsome.symm (Option.some_ne_none _)
      rw [rows] at ih
      rw [rows, lineBreaks, List.replicate_succ, List.cons_append, rowsAfter_lineBreak rfl,
        ← lineBreaks, show Lexeme.lineBreak.token = .newline from rfl, hnone, ih]
      rfl

theorem rowsAfter_append_lineBreaks (previous : Option Token) (lexemes : List Lexeme) (count : Nat) :
    rowsAfter previous (lexemes ++ lineBreaks count) =
      rowsAfter previous lexemes ++ List.replicate count [] := by
  induction lexemes generalizing previous with
  | nil =>
      induction count generalizing previous with
      | zero => rfl
      | succ count ih =>
          rw [lineBreaks, List.replicate_succ, List.nil_append, rowsAfter_lineBreak rfl, ← lineBreaks,
            ← List.nil_append (lineBreaks count), ih]
          rfl
  | cons lexeme rest ih =>
      rw [List.cons_append, rowsAfter, rowsAfter, ih]
      split
      · rfl
      split
      · split <;> rfl
      · obtain ⟨row, later, hrows⟩ :=
          List.exists_cons_of_ne_nil (rowsAfter_ne_nil (some lexeme.token) rest)
        rw [hrows]
        rfl

theorem trimRows_replicate_append (count : Nat) (found : List (List Lexeme)) :
    trimRows (List.replicate count [] ++ found) = trimRows found := by
  rw [trimRows, trimRows, List.dropWhile_append_of_pos]
  intro row hrow
  rw [List.eq_of_mem_replicate hrow]
  rfl

theorem trimRows_append_replicate (found : List (List Lexeme)) (count : Nat) :
    trimRows (found ++ List.replicate count []) = trimRows found := by
  have hone : ∀ found : List (List Lexeme), trimRows (found ++ [[]]) = trimRows found := by
    intro found
    induction found with
    | nil => rfl
    | cons row rest ih =>
        cases row with
        | nil => exact ih
        | cons lexeme row =>
            rw [trimRows, trimRows, List.cons_append, List.dropWhile_cons_of_neg (by simp),
              List.dropWhile_cons_of_neg (by simp), ← List.cons_append,
              List.rdropWhile_concat_pos _ _ _ rfl]
  induction count with
  | zero => rw [List.replicate_zero, List.append_nil]
  | succ count ih => rw [List.replicate_succ', ← List.append_assoc, hone, ih]

/-- Line breaks at either end bring in empty rows only. -/
theorem trimRows_rows_surround (before after : Nat) (lexemes : List Lexeme) :
    trimRows (rows (lineBreaks before ++ (lexemes ++ lineBreaks after))) =
      trimRows (rows lexemes) := by
  rw [rows_lineBreaks_append, trimRows_replicate_append, rows, rowsAfter_append_lineBreaks,
    trimRows_append_replicate, rows]

/-! ## Line breaks that are kept -/

/-- Every line break is one that is kept after a brace, or no brace. -/
def Kept (afterBrace : Bool) : List Lexeme → Prop
  | [] => True
  | lexeme :: rest =>
      (lexeme.token = .newline → afterBrace = false ∧ braceAhead rest = false) ∧
        Kept lexeme.token.isBrace rest

section

variable {lexemes : List Lexeme} (hlexemes : ∀ lexeme ∈ lexemes, lexeme.dropped = false)

include hlexemes

theorem braceAhead_keptFrom (afterBrace : Bool) :
    braceAhead (keptFrom afterBrace lexemes) = braceAhead lexemes := by
  induction hlexemes, afterBrace using keptFrom_induction with
  | nil => rfl
  | leave _ _ _ _ _ htoken _ hkept ih => rw [hkept, ih, braceAhead, if_pos htoken]
  | keep _ _ _ _ htoken _ hkept ih =>
      rw [hkept, braceAhead, braceAhead, if_pos htoken, if_pos htoken, ih]
  | other _ _ _ _ _ htoken hkept =>
      rw [hkept, braceAhead, braceAhead, if_neg htoken, if_neg htoken]

/-- No line break that is kept is next to a brace. -/
theorem kept_keptFrom (afterBrace : Bool) : Kept afterBrace (keptFrom afterBrace lexemes) := by
  induction hlexemes, afterBrace using keptFrom_induction with
  | nil => trivial
  | leave _ _ _ _ _ _ _ hkept ih =>
      rw [hkept]
      exact ih
  | keep _ _ _ hrest htoken hahead hkept ih =>
      rw [hkept]
      refine ⟨fun _ => ⟨rfl, by rw [braceAhead_keptFrom hrest, hahead]⟩, ?_⟩
      rw [htoken]
      exact ih
  | other _ _ _ _ _ htoken hkept ih =>
      rw [hkept]
      exact ⟨fun h => absurd h htoken, ih⟩

end

theorem brokenRows_append (front back : List (List Lexeme)) :
    brokenRows (front ++ back) = brokenRows front ++ brokenRows back :=
  List.flatMap_append

theorem brokenRows_replicate (count : Nat) :
    brokenRows (List.replicate count []) = lineBreaks count := by
  induction count with
  | zero => rfl
  | succ count ih => rw [List.replicate_succ, brokenRows_cons, ih]; rfl

theorem brokenRows_modifyHead (lexeme : Lexeme) {found : List (List Lexeme)} (hne : found ≠ []) :
    brokenRows (found.modifyHead (lexeme :: ·)) = lexeme :: brokenRows found := by
  obtain ⟨row, rest, rfl⟩ := List.exists_cons_of_ne_nil hne
  rw [List.modifyHead_cons, brokenRows_cons, brokenRows_cons, List.cons_append]

/-- Writing rows with a line break after each one brings no brace nearer or farther. -/
theorem braceAhead_brokenRows (previous : Option Token) (lexemes : List Lexeme) :
    braceAhead (brokenRows (rowsAfter previous lexemes)) = braceAhead lexemes := by
  induction lexemes generalizing previous with
  | nil => rfl
  | cons lexeme rest ih =>
      by_cases htoken : lexeme.token = .newline
      · rw [rowsAfter_lineBreak htoken, brokenRows_cons, List.nil_append, braceAhead_lineBreak_cons,
          ih, braceAhead, if_pos htoken]
      cases hbrace : lexeme.token.isBrace with
      | true =>
          rw [rowsAfter_brace hbrace, braceAhead, if_neg htoken]
          split
          · rw [List.nil_append, brokenRows_cons, List.cons_append, braceAhead, if_neg htoken]
          · rw [List.singleton_append, brokenRows_cons, brokenRows_cons, List.nil_append,
              braceAhead_lineBreak_cons, List.cons_append, braceAhead, if_neg htoken]
      | false =>
          rw [rowsAfter_other (endsRow_eq_false_iff.mpr ⟨htoken, hbrace⟩),
            brokenRows_modifyHead _ (rowsAfter_ne_nil _ _), braceAhead, braceAhead, if_neg htoken,
            if_neg htoken]

/-- The line breaks that rows bring in next to braces are the ones that are dropped, but for one at
the end. -/
theorem exists_keptFrom_brokenRows {lexemes : List Lexeme}
    (hlexemes : ∀ lexeme ∈ lexemes, lexeme.dropped = false ∧
      (lexeme.token = .newline → lexeme = .lineBreak))
    (previous : Option Token) (hkept : Kept (previous.any Token.isBrace) lexemes) :
    ∃ count, keptFrom (previous.any Token.isBrace) (brokenRows (rowsAfter previous lexemes)) =
      lexemes ++ lineBreaks count := by
  induction lexemes generalizing previous with
  | nil =>
      obtain ⟨count, hcount⟩ :=
        exists_keptFrom_lineBreaks_append (previous.any Token.isBrace) 1 []
      exact ⟨count, hcount.trans (List.append_nil _)⟩
  | cons lexeme rest ih =>
      obtain ⟨⟨hdropped, hbreak⟩, hrest⟩ := List.forall_mem_cons.mp hlexemes
      obtain ⟨hhead, hlater⟩ := hkept
      obtain ⟨count, hcount⟩ := ih hrest (some lexeme.token) hlater
      rw [Option.any_some] at hcount
      by_cases htoken : lexeme.token = .newline
      · obtain ⟨hafter, hahead⟩ := hhead htoken
        have hnewline : lexeme.token.isBrace = false := by
          rw [htoken]
          rfl
        rw [hnewline] at hcount
        refine ⟨count, ?_⟩
        rw [rowsAfter_lineBreak htoken, brokenRows_cons, List.nil_append, hafter,
          keptFrom_lineBreak rfl rfl, braceAhead_brokenRows, hahead, hcount, hbreak htoken]
        rfl
      cases hbrace : lexeme.token.isBrace with
      | true =>
          have hown : ∀ afterBrace, keptFrom afterBrace
              (lexeme :: .lineBreak :: brokenRows (rowsAfter (some lexeme.token) rest)) =
                lexeme :: rest ++ lineBreaks count := by
            intro afterBrace
            rw [hbrace] at hcount
            rw [keptFrom_other htoken hdropped, hbrace, keptFrom_lineBreak rfl rfl, Bool.true_or,
              if_pos rfl, hcount]
            rfl
          refine ⟨count, ?_⟩
          rw [rowsAfter_brace hbrace]
          split
          · rw [List.nil_append, brokenRows_cons]
            exact hown _
          · rw [List.singleton_append, brokenRows_cons, brokenRows_cons, List.nil_append,
              List.singleton_append, keptFrom_lineBreak rfl rfl, braceAhead, if_neg htoken, hbrace,
              Bool.or_true, if_pos rfl]
            exact hown _
      | false =>
          rw [hbrace] at hcount
          refine ⟨count, ?_⟩
          rw [rowsAfter_other (endsRow_eq_false_iff.mpr ⟨htoken, hbrace⟩),
            brokenRows_modifyHead _ (rowsAfter_ne_nil _ _), keptFrom_other htoken hdropped, hbrace,
            hcount]
          rfl

/-! ## Rows that are found again -/

def SameShape (first second : Token × List Char) : Prop :=
  Lexeme.shape { token := first.1, text := first.2 } =
    Lexeme.shape { token := second.1, text := second.2 }

theorem shape_eq_of_sameShape (first second : Lexeme) (hsame : SameShape first.item second.item) :
    first.shape = second.shape :=
  hsame

theorem exists_of_forall₂ {α β : Type} {relation : α → β → Prop} {items : List α} {others : List β}
    (hitems : Forall₂ relation items others) {item : α} (hitem : item ∈ items) :
    ∃ other ∈ others, relation item other := by
  induction hitems with
  | nil => exact absurd hitem List.not_mem_nil
  | cons hhead _ ih =>
      rcases List.mem_cons.mp hitem with rfl | hmem
      · exact ⟨_, List.mem_cons_self, hhead⟩
      · obtain ⟨other, hother, hrelated⟩ := ih hmem
        exact ⟨other, List.mem_cons_of_mem _ hother, hrelated⟩

theorem brokenRows_forall₂ {found others : List (List Lexeme)}
    (hfound : Forall₂ (Forall₂ (Corresponds SameShape)) found others) :
    Forall₂ (Corresponds SameShape) (brokenRows found) (brokenRows others) := by
  induction hfound with
  | nil => exact .nil
  | cons hrow _ ih =>
      rw [brokenRows_cons, brokenRows_cons]
      exact List.rel_append hrow (.cons ⟨rfl, rfl, rfl, rfl⟩ ih)

theorem dropped_of_mem_brokenRows {found : List (List Lexeme)}
    (hfound : ∀ row ∈ found, ∀ lexeme ∈ row, lexeme.dropped = false) :
    ∀ lexeme ∈ brokenRows found, lexeme.dropped = false := by
  intro lexeme hlexeme
  obtain ⟨row, hrow, hmem⟩ := List.mem_flatMap.mp hlexeme
  rcases List.mem_append.mp hmem with hmem | hmem
  · exact hfound row hrow lexeme hmem
  · rw [List.mem_singleton.mp hmem]
    rfl

theorem filter_brokenRows {found : List (List Lexeme)}
    (hfound : ∀ row ∈ found, ∀ lexeme ∈ row, lexeme.token ≠ .newline) :
    (brokenRows found).filter (fun lexeme => lexeme.token != .newline) = found.flatten := by
  induction found with
  | nil => rfl
  | cons row rest ih =>
      obtain ⟨hrow, hrest⟩ := List.forall_mem_cons.mp hfound
      have hself : row.filter (fun lexeme => lexeme.token != .newline) = row := by
        rw [List.filter_eq_self]
        intro lexeme hlexeme
        simp [hrow lexeme hlexeme]
      rw [brokenRows_cons, List.filter_append, hself, List.filter_cons_of_neg (by decide), ih hrest,
        List.flatten_cons]

section

variable {lexemes : List Lexeme} (hlexemes : ∀ lexeme ∈ lexemes, lexeme.dropped = false ∧
    (lexeme.token = .newline → lexeme = .lineBreak)) (hkept : Kept false lexemes)

include hlexemes hkept

/-- What is left of the rows and their line breaks is what the rows were found in, but for line breaks
at either end. -/
theorem exists_suppress_brokenRows :
    ∃ before after count, lexemes ++ lineBreaks count =
      lineBreaks before ++ (suppress (brokenRows (trimRows (rows lexemes))) ++ lineBreaks after) := by
  have hdropped : ∀ lexeme ∈ brokenRows (trimRows (rows lexemes)), lexeme.dropped = false := by
    apply dropped_of_mem_brokenRows
    intro row hrow lexeme hlexeme
    exact (hlexemes lexeme (mem_rowsAfter (trimRows_subset _ hrow) lexeme hlexeme).1).1
  obtain ⟨count, hcount⟩ := exists_keptFrom_brokenRows hlexemes none hkept
  obtain ⟨before, after, hrows⟩ := exists_trimRows (rows lexemes)
  rw [← rows, hrows, brokenRows_append, brokenRows_append, brokenRows_replicate,
    brokenRows_replicate, List.append_assoc] at hcount
  obtain ⟨keptBefore, hbefore⟩ := exists_keptFrom_lineBreaks_append false before
    (brokenRows (trimRows (rows lexemes)) ++ lineBreaks after)
  obtain ⟨keptAfter, hafter⟩ := exists_keptFrom_append_lineBreaks hdropped false after
  refine ⟨keptBefore, keptAfter, count, ?_⟩
  rw [← hcount, Option.any_none, hbefore, hafter]
  rfl

/-- The rows of a stream are found again when they are written line by line and read back. -/
theorem trimRows_rows_suppress_brokenRows :
    trimRows (rows (suppress (brokenRows (trimRows (rows lexemes))))) = trimRows (rows lexemes) := by
  obtain ⟨before, after, count, hsame⟩ := exists_suppress_brokenRows hlexemes hkept
  calc trimRows (rows (suppress (brokenRows (trimRows (rows lexemes)))))
      = trimRows (rows (lineBreaks before ++
          (suppress (brokenRows (trimRows (rows lexemes))) ++ lineBreaks after))) :=
        (trimRows_rows_surround before after _).symm
    _ = trimRows (rows (lineBreaks 0 ++ (lexemes ++ lineBreaks count))) := by
        rw [← hsame]
        rfl
    _ = trimRows (rows lexemes) := trimRows_rows_surround 0 count lexemes

/-- Rows of the same shape are found again in what is left of them and their line breaks. -/
theorem trimRows_rows_of_sameShape {found : List (List Lexeme)}
    (hfound : Forall₂ (Forall₂ (Corresponds SameShape)) found (trimRows (rows lexemes))) :
    trimRows (rows (suppress (brokenRows found))) = found := by
  have hagain := trimRows_forall₂ (rows_forall₂
    (fun first second (hsame : Corresponds SameShape first second) =>
      shape_eq_of_sameShape first second hsame.item)
    (BraceBreaks.suppress_corresponds shape_eq_of_sameShape (brokenRows_forall₂ hfound)))
  rw [trimRows_rows_suppress_brokenRows hlexemes hkept] at hagain
  have hfresh : ∀ row ∈ found, ∀ lexeme ∈ row,
      lexeme.dropped = false ∧ lexeme.token ≠ .newline := by
    intro row hrow lexeme hlexeme
    obtain ⟨row', hrow', hsame⟩ := exists_of_forall₂ hfound hrow
    obtain ⟨other, hother, hshape⟩ := exists_of_forall₂ hsame hlexeme
    obtain ⟨hmem, hnot⟩ := mem_rowsAfter (trimRows_subset _ hrow') other hother
    refine ⟨hshape.dropped.trans (hlexemes other hmem).1, fun htoken => hnot ?_⟩
    exact (Lexeme.token_eq_iff_of_shape hshape.item (Or.inl rfl)).mp htoken
  rw [List.eq_iff_flatten_eq]
  constructor
  · have hkeptFrom := filter_keptFrom
      (dropped_of_mem_brokenRows fun row hrow lexeme hmem => (hfresh row hrow lexeme hmem).1) false
    rw [flatten_trimRows, rows, flatten_rowsAfter, ← filter_brokenRows fun row hrow lexeme hmem =>
      (hfresh row hrow lexeme hmem).2, ← hkeptFrom]
    rfl
  · have hlength : ∀ {rows others : List (List Lexeme)},
        Forall₂ (Forall₂ (Corresponds SameShape)) rows others →
          rows.map List.length = others.map List.length :=
      fun hrows => map_eq_of_forall₂ hrows fun _ _ hrow => hrow.length_eq
    rw [hlength hagain, hlength hfound]

end

end ChuckLayout
