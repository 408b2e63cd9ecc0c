import ChuckLayout.Proofs.Lexing.Lines

/-!
# Literals that are never closed

A pass stops at the first string or block comment that is never closed, and tells of it when it is
one of those that the pass looks for.  The first in a source is either a string, which the pass for
strings comes upon, or a block comment, which is still there for the pass for block comments.
-/

namespace ChuckLayout

/-- A pass by this rule comes upon a region that is never closed. -/
def LeavesOpen (rule : RegionRule) (text : List Char) : Prop :=
  ∃ value, .openRegion value ∈ tiles rule text

variable {rule : RegionRule} {scope : Scope}

theorem leavesOpen_nil (rule : RegionRule) : ¬LeavesOpen rule [] := by
  simp [LeavesOpen, tiles_nil]

theorem leavesOpen_of_leading {tile : Tile} (hopen : ∀ value, tile ≠ .openRegion value)
    {text : List Char} (later : List Char)
    (htiles : tiles rule text = tile :: tiles rule later) :
    LeavesOpen rule text ↔ LeavesOpen rule later := by
  simp only [LeavesOpen, htiles, List.mem_cons]
  exact exists_congr fun value => or_iff_right (hopen value).symm

theorem leavesOpen_plain {char : Char} {rest : List Char}
    (hleading : Tile.leading rule char rest = .plain char) :
    LeavesOpen rule (char :: rest) ↔ LeavesOpen rule rest :=
  leavesOpen_of_leading (fun _ => Tile.noConfusion) rest (tiles_of_leading hleading rest rfl)

theorem leavesOpen_passedOver {char : Char} {rest text later : List Char}
    (hleading : Tile.leading rule char rest = .passedOver text)
    (htext : char :: rest = text ++ later) :
    LeavesOpen rule (char :: rest) ↔ LeavesOpen rule later :=
  leavesOpen_of_leading (fun _ => Tile.noConfusion) later (tiles_of_leading hleading later htext)

theorem leavesOpen_word (hseeks : Seeks rule scope) {name : List Char} (hname : Word.IsWord name)
    (rest : List Char) : LeavesOpen rule (name ++ rest) ↔ LeavesOpen rule rest := by
  induction name with
  | nil => rfl
  | cons char name ih =>
      have hplain := Mark.leading_of_wordChar hseeks (hname char List.mem_cons_self) (name ++ rest)
      exact (leavesOpen_plain hplain).trans
        (ih fun other hother => hname other (List.mem_cons_of_mem _ hother))

namespace Mark

def firstUnclosed? : List Mark → Option Literal.Kind
  | [] => none
  | unclosed kind _ :: _ => some kind
  | _ :: rest => firstUnclosed? rest

variable {marks : List Mark}

/-- A pass gets past every literal that is closed. -/
theorem leavesOpen_literal (hseeks : Seeks rule scope) {kind : Literal.Kind} {text rest : List Char}
    (hopens : ∃ char tail, text = char :: tail ∧
      scope.opening? char (tail ++ rest).head? = some kind)
    (hliteral : Segment.literalAt? (text ++ rest) kind = some text) :
    LeavesOpen rule (text ++ rest) ↔ LeavesOpen rule rest := by
  obtain ⟨char, tail, rfl, hopening⟩ := hopens
  rcases kind_cases hseeks hopening with rfl | rfl | ⟨rfl, rfl, rfl⟩
  · have hleading := Tile.leading_of_region hseeks hopening
    rw [← List.cons_append, hliteral] at hleading
    exact leavesOpen_of_leading (fun _ => Tile.noConfusion) rest (tiles_of_leading hleading rest rfl)
  · rcases tiles_lineComment hseeks hopening hliteral with ⟨rfl, htiles⟩ | ⟨later, hrest, htiles⟩
    · rw [LeavesOpen, htiles]
      simp [LeavesOpen, tiles_nil]
    · rw [LeavesOpen, LeavesOpen, htiles, hrest]
      simp
  · have hleading := Tile.leading_of_blockComment hopening
    rw [← List.cons_append, hliteral] at hleading
    exact leavesOpen_passedOver hleading rfl

/-- An opener without an end matters to the pass for its own kind alone. -/
theorem leavesOpen_unclosed (hseeks : Seeks rule scope) {kind : Literal.Kind} {char : Char}
    {rest : List Char} (hopening : scope.opening? char rest.head? = some kind)
    (hliteral : Segment.literalAt? (char :: rest) kind = none) :
    LeavesOpen rule (char :: rest) ↔ kind = rule.kind := by
  rcases kind_cases hseeks hopening with rfl | rfl | ⟨rfl, rfl, rfl⟩
  · have hleading := Tile.leading_of_region hseeks hopening
    rw [hliteral] at hleading
    have htiles := tiles_of_leading hleading [] (by simp [Tile.text])
    exact iff_of_true ⟨char :: rest, by simp [htiles]⟩ rfl
  · exact absurd rfl (ne_lineComment_of_none hliteral)
  · have hleading := Tile.leading_of_blockComment hopening
    rw [hliteral] at hleading
    have htiles := tiles_of_leading hleading [] (by simp [Tile.text])
    exact iff_of_false (by simp [LeavesOpen, htiles, tiles_nil]) (by decide)

/-- A pass comes upon what is never closed just when it looks for the first such literal. -/
theorem leavesOpen_showAll (hseeks : Seeks rule scope) (hreading : IsReading scope marks) :
    LeavesOpen rule (showAll marks) ↔ firstUnclosed? marks = some rule.kind := by
  induction marks with
  | nil => simp [leavesOpen_nil, firstUnclosed?]
  | cons mark rest ih =>
      cases mark with
      | code char =>
          exact (leavesOpen_plain (Tile.leading_of_code hseeks hreading.1)).trans (ih hreading.2)
      | hole name value =>
          exact (leavesOpen_word hseeks hreading.1 _).trans (ih hreading.2.2)
      | unclosed kind char =>
          exact (leavesOpen_unclosed hseeks hreading.1 hreading.2.1).trans Option.some_inj.symm
      | literal kind text =>
          exact (leavesOpen_literal hseeks hreading.1 hreading.2.1).trans (ih hreading.2.2)

theorem firstUnclosed?_eq_none_iff :
    firstUnclosed? marks = none ↔ ∀ kind char, unclosed kind char ∉ marks := by
  induction marks with
  | nil => simp [firstUnclosed?]
  | cons mark rest ih =>
      cases mark with
      | unclosed kind char =>
          exact iff_of_false (by simp [firstUnclosed?]) fun hnone => hnone _ _ List.mem_cons_self
      | _ => simp [firstUnclosed?, ih]

theorem IsReading.firstUnclosed?_ne (hreading : IsReading scope marks) :
    firstUnclosed? marks ≠ some .lineComment := by
  induction marks generalizing scope with
  | nil => exact fun hnone => nomatch hnone
  | cons mark rest ih =>
      cases mark with
      | code char => exact ih hreading.2
      | hole name value => exact ih hreading.2.2
      | literal kind text => exact ih hreading.2.2
      | unclosed kind char =>
          exact fun hkind => ne_lineComment_of_none hreading.2.1 (Option.some.inj hkind)

theorem firstUnclosed?_codes (text : List Char) (rest : List Mark) :
    firstUnclosed? (codes text ++ rest) = firstUnclosed? rest := by
  induction text with
  | nil => rfl
  | cons char text ih => exact ih

/-- A pass leaves the first literal that is never closed, unless it looks for it. -/
theorem firstUnclosed?_hide {kind : Literal.Kind} (before : Option Char) (offset : Nat)
    (table : LiteralTable) (hfirst : firstUnclosed? marks ≠ some kind) :
    firstUnclosed? (hide kind before offset table marks).1 = firstUnclosed? marks := by
  induction marks generalizing before offset table with
  | nil => rfl
  | cons mark rest ih =>
      cases mark with
      | code char => exact ih _ _ _ hfirst
      | hole name value => exact ih _ _ _ hfirst
      | unclosed found char =>
          have hfound : found ≠ kind := fun heq => hfirst (congrArg some heq)
          rw [hide, if_neg hfound]
          rfl
      | literal found text =>
          by_cases hfound : found = kind
          · subst hfound
            rw [hide_literal_self, firstUnclosed?_codes]
            exact (firstUnclosed?_codes _ _).trans (ih _ _ _ hfirst)
          · rw [hide, if_neg hfound]
            exact ih _ _ _ hfirst

end Mark

open Mark (firstUnclosed?)

theorem wellClosed_iff (source : List Char) :
    WellClosed source ↔ firstUnclosed? ((segments .all source).map Mark.ofSegment) = none := by
  rw [Mark.firstUnclosed?_eq_none_iff]
  refine forall₂_congr fun kind char => not_congr ?_
  constructor
  · exact fun hmem => List.mem_map.mpr ⟨_, hmem, rfl⟩
  · intro hmem
    obtain ⟨segment, hsegment, heq⟩ := List.mem_map.mp hmem
    cases segment <;> cases heq
    exact hsegment

/-- Some string or block comment is never closed just when one of the two passes comes upon it. -/
theorem not_wellClosed_iff (source : List Char) :
    ¬WellClosed source ↔
      LeavesOpen .string source ∨ LeavesOpen .blockComment (Document.maskStrings source).text := by
  have hreading := (Mark.isMasked_forSource source).reading
  have hstrings := Mark.leavesOpen_showAll .strings hreading
  have hcomments :=
    Mark.leavesOpen_showAll .blockComments (isMasked_hiddenStrings source).reading
  rw [Mark.showAll_ofSegment, (reads_segments .all source).flatMap_text] at hstrings
  rw [wellClosed_iff, maskStrings_eq, hstrings, hcomments]
  have hline := hreading.firstUnclosed?_ne
  by_cases hstring : firstUnclosed? ((segments .all source).map Mark.ofSegment) = some .string
  · exact iff_of_true (by simp [hstring]) (Or.inl hstring)
  · rw [hiddenStrings, Mark.firstUnclosed?_hide none 0 _ hstring]
    cases hfirst : firstUnclosed? ((segments .all source).map Mark.ofSegment) with
    | none => simp
    | some kind => cases kind <;> simp_all [RegionRule.blockComment]

end ChuckLayout
