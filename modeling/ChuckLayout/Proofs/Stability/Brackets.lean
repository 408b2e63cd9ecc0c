import ChuckLayout.Proofs.Stability.Breaks

/-!
# Brackets of a stream between line breaks

Line breaks before a stream move the places of all its brackets, and line breaks after it are enclosed
by the opening brackets without a partner.  What a bracket and its partner enclose stays, and so do the
spaces along brackets.
-/

namespace ChuckLayout

open BracketPairs
open Lexeme (Corresponds)
open List (Forall₂)
open Spacing

/-- How many lexemes a bracket encloses together with its partner, if it has one. -/
def matchedCount (stream : List Lexeme) (lexeme : Lexeme) : Option Nat :=
  lexeme.partner.map fun _ =>
    if lexeme.token = .openSquare then lexeme.enclosedCount else enclosedByPartner stream lexeme

def rowCounts (stream : List Lexeme) : List (List (Option Nat)) :=
  (trimRows (rows stream)).map (List.map (matchedCount stream))

/-! ## Openings that move -/

namespace BracketPairs

def Opening.shift (count : Nat) (opening : Opening) : Opening where
  place := opening.place + count
  partner := opening.partner.map (· + count)

theorem openingsFrom_add (place count : Nat) (lexemes : List Lexeme) :
    openingsFrom (place + count) lexemes =
      (openingsFrom place lexemes).map (Opening.shift count) := by
  induction lexemes generalizing place with
  | nil => rfl
  | cons lexeme rest ih =>
      have hplace : place + count + 1 = place + 1 + count := by omega
      rw [openingsFrom, openingsFrom, hplace, ih]
      split
      · rw [List.map_cons, Opening.shift, Option.map_map]
        congr 3
        funext distance
        simp only [Function.comp_apply]
        omega
      · rfl

theorem distanceToCloser?_append_lineBreaks (depth : Nat) (lexemes : List Lexeme) (count : Nat) :
    distanceToCloser? depth (lexemes ++ lineBreaks count) = distanceToCloser? depth lexemes := by
  induction lexemes generalizing depth with
  | nil =>
      induction count with
      | zero => rfl
      | succ count ih =>
          rw [lineBreaks, List.replicate_succ, List.nil_append,
            distanceToCloser?_other _ _ Token.noConfusion Token.noConfusion, ← lineBreaks,
            ← List.nil_append (lineBreaks count), ih]
          rfl
  | cons lexeme rest ih =>
      rw [List.cons_append]
      by_cases hopen : lexeme.token = .openSquare
      · rw [distanceToCloser?_openSquare _ _ hopen, distanceToCloser?_openSquare _ _ hopen, ih]
      · by_cases hclose : lexeme.token = .closeSquare
        · rw [distanceToCloser?_closeSquare _ _ hclose, distanceToCloser?_closeSquare _ _ hclose, ih]
        · rw [distanceToCloser?_other _ _ hopen hclose, distanceToCloser?_other _ _ hopen hclose, ih]

theorem openingsFrom_append_lineBreaks (place : Nat) (lexemes : List Lexeme) (count : Nat) :
    openingsFrom place (lexemes ++ lineBreaks count) = openingsFrom place lexemes := by
  induction lexemes generalizing place with
  | nil =>
      induction count generalizing place with
      | zero => rfl
      | succ count ih => exact ih (place + 1)
  | cons lexeme rest ih =>
      rw [List.cons_append, openingsFrom, openingsFrom, ih, distanceToCloser?_append_lineBreaks]

theorem openingsFrom_lineBreaks_append (place count : Nat) (rest : List Lexeme) :
    openingsFrom place (lineBreaks count ++ rest) = openingsFrom (place + count) rest := by
  induction count generalizing place with
  | zero => rfl
  | succ count ih =>
      have hplace : place + 1 + count = place + (count + 1) := by omega
      have hrest := ih (place + 1)
      rw [hplace] at hrest
      exact hrest

/-- The openings of a stream between line breaks are those of the stream, moved. -/
theorem openings_surround (before after : Nat) (lexemes : List Lexeme) :
    openings (lineBreaks before ++ (lexemes ++ lineBreaks after)) =
      (openings lexemes).map (Opening.shift before) := by
  rw [openings, openingsFrom_lineBreaks_append, openingsFrom_append_lineBreaks, openingsFrom_add,
    openings]

theorem closerOf?_shift (openings : List Opening) (place count : Nat) :
    closerOf? (openings.map (Opening.shift count)) (place + count) =
      (closerOf? openings place).map (· + count) := by
  rw [closerOf?, closerOf?, List.find?_map]
  have hsame : ((fun opening : Opening => decide (opening.place = place + count)) ∘
      Opening.shift count) = fun opening => decide (opening.place = place) := by
    funext opening
    simp [Opening.shift]
  rw [hsame]
  cases openings.find? fun opening => opening.place = place <;> rfl

theorem openerOf?_shift (openings : List Opening) (place count : Nat) :
    openerOf? (openings.map (Opening.shift count)) (place + count) =
      (openerOf? openings place).map (· + count) := by
  rw [openerOf?, openerOf?, List.find?_map]
  have hsame : ((fun opening : Opening => decide (opening.partner = some (place + count))) ∘
      Opening.shift count) = fun opening => decide (opening.partner = some place) := by
    funext opening
    cases hpartner : opening.partner <;> simp [Opening.shift, hpartner]
  rw [hsame]
  cases openings.find? fun opening => opening.partner = some place <;> rfl

/-- An opening bracket stands at each opening, and the partner is found there. -/
theorem closerOf?_of_mem {place : Nat} {lexemes : List Lexeme} {opening : Opening}
    (hopening : opening ∈ openingsFrom place lexemes) :
    closerOf? (openingsFrom place lexemes) opening.place = opening.partner ∧
      ∃ index lexeme, opening.place = place + index ∧ lexemes[index]? = some lexeme ∧
        lexeme.token = .openSquare := by
  induction lexemes generalizing place with
  | nil => exact absurd hopening List.not_mem_nil
  | cons lexeme rest ih =>
      rw [openingsFrom] at hopening ⊢
      have hlater : opening ∈ openingsFrom (place + 1) rest → place ≠ opening.place ∧
          closerOf? (openingsFrom (place + 1) rest) opening.place = opening.partner ∧
          ∃ index other, opening.place = place + index ∧ (lexeme :: rest)[index]? = some other ∧
            other.token = .openSquare := by
        intro hmem
        obtain ⟨hcloser, index, other, hplace, hother, htoken⟩ := ih hmem
        exact ⟨by omega, hcloser, index + 1, other, by omega, hother, htoken⟩
      split at hopening
      · rename_i htoken
        rw [if_pos htoken]
        rcases List.mem_cons.mp hopening with rfl | hmem
        · exact ⟨by simp [closerOf?], 0, lexeme, rfl, rfl, htoken⟩
        · obtain ⟨hne, hcloser, hindex⟩ := hlater hmem
          refine ⟨?_, hindex⟩
          rw [closerOf?, List.find?_cons_of_neg (by simpa using hne), ← closerOf?, hcloser]
      · rename_i htoken
        rw [if_neg htoken]
        exact (hlater hopening).2

/-- A bracket that has been found from its closer finds it in turn. -/
theorem exists_of_openerOf? {lexemes : List Lexeme} {closer opener : Nat}
    (hopener : openerOf? (openings lexemes) closer = some opener) :
    closerOf? (openings lexemes) opener = some closer ∧
      ∃ lexeme, lexemes[opener]? = some lexeme ∧ lexeme.token = .openSquare := by
  obtain ⟨opening, hfound, rfl⟩ := Option.map_eq_some_iff.mp hopener
  have hpartner := List.find?_some hfound
  rw [decide_eq_true_eq] at hpartner
  obtain ⟨hcloser, index, lexeme, hplace, hlexeme, htoken⟩ :=
    closerOf?_of_mem (List.mem_of_find?_eq_some hfound)
  rw [Nat.zero_add] at hplace
  exact ⟨hcloser.trans hpartner, lexeme, hplace ▸ hlexeme, htoken⟩

def countAt (openings : List Opening) (place : Nat) (token : Token) : Option Nat :=
  if token = .openSquare then (closerOf? openings place).map fun closer => closer - (place + 1)
  else if token = .closeSquare then
    (openerOf? openings place).map fun opener => place - (opener + 1)
  else none

/-- What brackets enclose does not change when all places are moved. -/
theorem countAt_shift (openings : List Opening) (place count : Nat) (token : Token) :
    countAt (openings.map (Opening.shift count)) (place + count) token =
      countAt openings place token := by
  have hclose : ((fun closer => closer - (place + count + 1)) ∘ (· + count)) =
      fun closer => closer - (place + 1) := by
    funext closer
    simp only [Function.comp_apply]
    omega
  have hopen : ((fun opener => place + count - (opener + 1)) ∘ (· + count)) =
      fun opener => place - (opener + 1) := by
    funext opener
    simp only [Function.comp_apply]
    omega
  rw [countAt, countAt, closerOf?_shift, openerOf?_shift, Option.map_map, Option.map_map, hclose,
    hopen]

end BracketPairs

/-! ## Streams without links -/

/-- The lexeme has not been linked. -/
def Lexeme.IsUnlinked (lexeme : Lexeme) : Prop :=
  lexeme.partner = none ∧ lexeme.enclosed = none

section

variable {lexemes : List Lexeme} (hlexemes : ∀ lexeme ∈ lexemes, lexeme.IsUnlinked)

theorem getElem?_link (lexemes : List Lexeme) (place : Nat) :
    (link lexemes)[place]? =
      lexemes[place]?.map (linkAt (openings lexemes) lexemes.length place) :=
  List.getElem?_mapIdx

theorem token_linkAt (openings : List Opening) (size place : Nat) (lexeme : Lexeme) :
    (linkAt openings size place lexeme).token = lexeme.token :=
  congrArg Prod.fst (item_linkAt openings size place)

theorem enclosedCount_linkAt {lexeme : Lexeme} (htoken : lexeme.token = .openSquare)
    (openings : List Opening) (size place : Nat) :
    (linkAt openings size place lexeme).enclosedCount =
      (closerOf? openings place).getD size - (place + 1) := by
  rw [linkAt_openSquare _ _ _ htoken]
  rfl

include hlexemes in
/-- Linking tells a bracket how many lexemes lie between it and its partner. -/
theorem matchedCount_linkAt {place : Nat} {lexeme : Lexeme} (hplace : lexemes[place]? = some lexeme) :
    matchedCount (link lexemes) (linkAt (openings lexemes) lexemes.length place lexeme) =
      countAt (openings lexemes) place lexeme.token := by
  obtain ⟨hpartner, -⟩ := hlexemes lexeme (List.mem_of_getElem? hplace)
  rw [matchedCount, token_linkAt, countAt]
  by_cases hopen : lexeme.token = .openSquare
  · rw [if_pos hopen, if_pos hopen, enclosedCount_linkAt hopen, linkAt_openSquare _ _ _ hopen, hpartner,
      Option.or_none]
    cases closerOf? (openings lexemes) place <;> rfl
  · rw [if_neg hopen, if_neg hopen]
    by_cases hclose : lexeme.token = .closeSquare
    · rw [if_pos hclose, linkAt_closeSquare _ _ _ hclose, hpartner, Option.or_none]
      cases hopener : openerOf? (openings lexemes) place with
      | none => rfl
      | some opener =>
          obtain ⟨hcloser, other, hother, hisOpen⟩ := exists_of_openerOf? hopener
          rw [Option.map_some, Option.map_some, enclosedByPartner, Option.bind_some, getElem?_link,
            hother, Option.map_some, Option.map_some, Option.getD_some,
            enclosedCount_linkAt hisOpen, hcloser, Option.getD_some]
    · rw [if_neg hclose, linkAt_other _ _ _ hopen hclose, hpartner]
      rfl

theorem isUnlinked_of_mem_surround (before after : Nat) (hlexemes : ∀ lexeme ∈ lexemes, lexeme.IsUnlinked) :
    ∀ lexeme ∈ lineBreaks before ++ (lexemes ++ lineBreaks after), lexeme.IsUnlinked := by
  have hbreak : ∀ count, ∀ lexeme ∈ lineBreaks count, lexeme.IsUnlinked := by
    intro count lexeme hlexeme
    rw [List.eq_of_mem_replicate hlexeme]
    exact ⟨rfl, rfl⟩
  intro lexeme hlexeme
  rw [List.mem_append, List.mem_append] at hlexeme
  rcases hlexeme with hlexeme | hlexeme | hlexeme
  · exact hbreak before lexeme hlexeme
  · exact hlexemes lexeme hlexeme
  · exact hbreak after lexeme hlexeme

theorem mapIdx_lineBreaks (openings : List Opening) (size count : Nat) (place : Nat → Nat) :
    (lineBreaks count).mapIdx (fun index => linkAt openings size (place index)) =
      lineBreaks count := by
  apply List.ext_getElem
  · simp
  · intro index hindex hindex'
    rw [List.getElem_mapIdx, linkAt_other _ _ _ (by simp [lineBreaks, Lexeme.lineBreak])
      (by simp [lineBreaks, Lexeme.lineBreak])]

/-- Links within a stream stay when line breaks are put around it. -/
theorem exists_link_surround (hlexemes : ∀ lexeme ∈ lexemes, lexeme.IsUnlinked) (before after : Nat) :
    ∃ middle, link (lineBreaks before ++ (lexemes ++ lineBreaks after)) =
        lineBreaks before ++ (middle ++ lineBreaks after) ∧
      Forall₂ (fun first second => first.shape = second.shape ∧
        matchedCount (link (lineBreaks before ++ (lexemes ++ lineBreaks after))) first =
          matchedCount (link lexemes) second) middle (link lexemes) := by
  have hunlinked := isUnlinked_of_mem_surround before after hlexemes
  have hopenings := openings_surround before after lexemes
  have hlength : (lineBreaks before).length = before := List.length_replicate
  generalize hall : lineBreaks before ++ (lexemes ++ lineBreaks after) = all at hunlinked hopenings
  refine ⟨lexemes.mapIdx fun place => linkAt (openings all) all.length (place + before), ?_, ?_⟩
  · have hlink : link all = (lineBreaks before ++ (lexemes ++ lineBreaks after)).mapIdx
        fun place => linkAt (openings all) all.length place := by
      rw [hall]
      rfl
    rw [hlink, List.mapIdx_append, List.mapIdx_append, mapIdx_lineBreaks, mapIdx_lineBreaks, hlength]
  · rw [List.forall₂_iff_get]
    refine ⟨by simp [link], fun place hplace hplace' => ?_⟩
    rw [List.length_mapIdx] at hplace
    have hin : lexemes[place]? = some lexemes[place] := List.getElem?_eq_getElem hplace
    have hall' : all[place + before]? = some lexemes[place] := by
      rw [← hall, List.getElem?_append_right (by omega), hlength, Nat.add_sub_cancel,
        List.getElem?_append_left hplace, hin]
    have hget : (link lexemes).get ⟨place, hplace'⟩ =
        linkAt (openings lexemes) lexemes.length place lexemes[place] :=
      List.getElem_mapIdx
    have hmiddle : (lexemes.mapIdx fun place => linkAt (openings all) all.length (place + before)).get
        ⟨place, by simpa using hplace⟩ =
          linkAt (openings all) all.length (place + before) lexemes[place] :=
      List.getElem_mapIdx
    rw [hget, hmiddle]
    constructor
    · rw [Lexeme.shape, Lexeme.shape, token_linkAt, token_linkAt]
    · rw [matchedCount_linkAt hunlinked hall', matchedCount_linkAt hlexemes hin, hopenings,
        countAt_shift]

/-- An opening bracket without a partner that has a lexeme after it in its row encloses more than
that, for the stream ends with the end of a row. -/
theorem isChain_link (hlexemes : ∀ lexeme ∈ lexemes, lexeme.IsUnlinked)
    (hlast : ∀ last, lexemes.getLast? = some last → endsRow last.token) :
    (link lexemes).IsChain fun first second => first.token = .openSquare → first.partner = none →
      endsRow second.token = false → 1 < first.enclosedCount := by
  rw [List.isChain_iff_getElem]
  intro place hplace
  have hsecond : place + 1 < lexemes.length := by
    rwa [link, List.length_mapIdx] at hplace
  have hfirst : place < lexemes.length := by omega
  have hgetFirst : (link lexemes)[place] =
      linkAt (openings lexemes) lexemes.length place lexemes[place] := List.getElem_mapIdx
  have hgetSecond : (link lexemes)[place + 1] =
      linkAt (openings lexemes) lexemes.length (place + 1) lexemes[place + 1] :=
    List.getElem_mapIdx
  rw [hgetFirst, hgetSecond, token_linkAt, token_linkAt]
  intro hopen hpartner hends
  have hcloser : closerOf? (openings lexemes) place = none := by
    rwa [linkAt_openSquare _ _ _ hopen, (hlexemes _ (List.getElem_mem hfirst)).1, Option.or_none]
      at hpartner
  rw [enclosedCount_linkAt hopen, hcloser, Option.getD_none]
  -- The second lexeme ends no row, so it is not the last one.
  have hnotLast : place + 1 ≠ lexemes.length - 1 := by
    intro hplace
    have hgetLast : lexemes.getLast? = some lexemes[place + 1] := by
      rw [List.getLast?_eq_getElem?, ← hplace, List.getElem?_eq_getElem hsecond]
    rw [hlast _ hgetLast] at hends
    exact absurd hends Bool.noConfusion
  omega

/-! ## Rows -/

/-- What is seen of the lexemes of two streams is seen in their rows. -/
theorem map_rows_eq {α : Type} {see see' : Lexeme → α} {stream stream' : List Lexeme}
    (hstreams : Forall₂ (fun first second => first.shape = second.shape ∧
      see first = see' second) stream stream') :
    (trimRows (rows stream)).map (List.map see) = (trimRows (rows stream')).map (List.map see') := by
  have hrows := trimRows_forall₂ (rows_forall₂ (fun _ _ hsame => hsame.1) hstreams)
  exact map_eq_of_forall₂ hrows fun _ _ hrow => map_eq_of_forall₂ hrow fun _ _ hsame => hsame.2

theorem rowCounts_corresponds {stream stream' : List Lexeme}
    (hstreams : Forall₂ (Corresponds SameShape) stream stream') :
    rowCounts stream = rowCounts stream' := by
  apply map_rows_eq
  refine hstreams.imp fun first second hsame => ⟨hsame.item, ?_⟩
  have hopen : first.token = .openSquare ↔ second.token = .openSquare :=
    Lexeme.token_eq_iff_of_shape hsame.item (by simp)
  rw [matchedCount, matchedCount, hsame.partner, enclosedByPartner_eq hstreams hsame.partner,
    Lexeme.enclosedCount, Lexeme.enclosedCount, hsame.enclosed]
  simp only [hopen]

/-- Line breaks around a stream change nothing within brackets. -/
theorem rowCounts_link_surround (hlexemes : ∀ lexeme ∈ lexemes, lexeme.IsUnlinked)
    (before after : Nat) :
    rowCounts (link (lineBreaks before ++ (lexemes ++ lineBreaks after))) =
      rowCounts (link lexemes) := by
  obtain ⟨middle, hlink, hmiddle⟩ := exists_link_surround hlexemes before after
  rw [rowCounts, rowCounts, ← map_rows_eq hmiddle]
  congr 1
  rw [hlink, trimRows_rows_surround]

end

end ChuckLayout
