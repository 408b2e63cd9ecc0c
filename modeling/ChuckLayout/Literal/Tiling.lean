import ChuckLayout.Literal
import ChuckLayout.Text.Cut

/-!
# Cutting a text into tiles

One pass looks for the regions of one kind, from left to right.  Tiles laid end to end give the
text back.  Only a closed region becomes a literal; a region that is never closed is the last
tile.  An escape is a byte, and what it hides is the byte after it, so an escape in front of a long
character hides only the first byte of that character.
-/

namespace ChuckLayout

/-- What the regions of one kind look like.  No opener and no closer is empty. -/
structure RegionRule where
  kind : Literal.Kind
  opener : List Char
  closer : List Char
  /-- The byte that hides the byte after it, inside a region. -/
  escape : Option UInt8
  /-- Openers and closers of what is passed over outside a region; the first that fits counts. -/
  passedOver : List (List Char × List Char)
  opener_ne_nil : opener ≠ [] := by decide
  closer_ne_nil : closer ≠ [] := by decide
  passedOver_ne_nil : ∀ pair ∈ passedOver, pair.1 ≠ [] ∧ pair.2 ≠ [] := by decide

namespace RegionRule

def string : RegionRule where
  kind := .string
  opener := "\"".toList
  closer := "\"".toList
  escape := some 0x5C
  passedOver := [("//".toList, "\n".toList), ("/*".toList, "*/".toList)]

def blockComment : RegionRule where
  kind := .blockComment
  opener := "/*".toList
  closer := "*/".toList
  escape := none
  passedOver := [("//".toList, "\n".toList)]

/-- The first pair to pass over whose opener stands at the front of `text`. -/
def passedOverAt? (rule : RegionRule) (text : List Char) : Option (List Char × List Char) :=
  rule.passedOver.find? fun pair => pair.1.isPrefixOf text

theorem passedOverAt?_front (rule : RegionRule) {text : List Char} {pair : List Char × List Char}
    (hpair : rule.passedOverAt? text = some pair) :
    pair ∈ rule.passedOver ∧ pair.1 <+: text := by
  unfold passedOverAt? at hpair
  have hopener := List.find?_some hpair
  exact ⟨List.mem_of_find?_eq_some hpair, List.isPrefixOf_iff_prefix.mp hopener⟩

end RegionRule

inductive Tile where
  | plain (char : Char)
  | passedOver (text : List Char)
  | region (text : List Char)
  /-- Opened to be passed over, and never closed. -/
  | openPassedOver (text : List Char)
  /-- Opened as a region, and never closed. -/
  | openRegion (text : List Char)
  deriving DecidableEq, Repr

namespace Tile

def text : Tile → List Char
  | plain char => [char]
  | passedOver text | region text | openPassedOver text | openRegion text => text

/-- The first byte of `char` is the escape. -/
def startsWithEscape (escape : Option UInt8) (char : Char) : Bool :=
  escape.any fun byte => (String.utf8EncodeChar char).head? == some byte

/-- Whether the byte after these is hidden, given whether the first of them is. -/
def hiddenAfter (escape : Option UInt8) (hidden : Bool) : List UInt8 → Bool
  | [] => hidden
  | byte :: rest => hiddenAfter escape (!hidden && escape == some byte) rest

/-- The front of a text through the first `closer`.  `hidden` says that the first byte of the text
is escaped. -/
def throughCloser? (closer : List Char) (escape : Option UInt8) (hidden : Bool) :
    List Char → Option (List Char)
  | [] => none
  | char :: rest =>
      if !hidden && !startsWithEscape escape char && closer.isPrefixOf (char :: rest) then
        some closer
      else
        (throughCloser? closer escape
          (hiddenAfter escape hidden (String.utf8EncodeChar char)) rest).map (char :: ·)

/-- The tile at the front of the text `char :: rest`. -/
def leading (rule : RegionRule) (char : Char) (rest : List Char) : Tile :=
  match rule.passedOverAt? (char :: rest) with
  | some (opener, closer) =>
      match throughCloser? closer none false ((char :: rest).drop opener.length) with
      | some inside => .passedOver (opener ++ inside)
      -- The end of the text closes what a line break closes.
      | none => if closer = ['\n'] then .passedOver (char :: rest) else .openPassedOver (char :: rest)
  | none =>
      if rule.opener.isPrefixOf (char :: rest) then
        match throughCloser? rule.closer rule.escape false
            ((char :: rest).drop rule.opener.length) with
        | some inside => .region (rule.opener ++ inside)
        | none => .openRegion (char :: rest)
      else .plain char

theorem isPrefix_of_throughCloser? {closer text inside : List Char} {escape : Option UInt8}
    {hidden : Bool} (hinside : throughCloser? closer escape hidden text = some inside) :
    inside <+: text := by
  fun_induction throughCloser? closer escape hidden text generalizing inside with
  | case1 => simp at hinside
  | case2 hidden char rest hcloses =>
      simp only [Bool.and_eq_true] at hcloses
      exact Option.some.inj hinside ▸ List.isPrefixOf_iff_prefix.mp hcloses.2
  | case3 hidden char rest _ ih =>
      obtain ⟨later, hlater, rfl⟩ := Option.map_eq_some_iff.mp hinside
      exact (List.prefix_cons_inj char).mpr (ih hlater)

/-- An opener and what follows it up to a closer are a front of the text. -/
theorem isPrefix_opener_append {opener text inside : List Char} (hopener : opener <+: text)
    (hinside : inside <+: text.drop opener.length) : opener ++ inside <+: text := by
  obtain ⟨later, rfl⟩ := hopener
  rw [List.drop_left] at hinside
  exact (List.prefix_append_right_inj opener).mpr hinside

theorem leading_isFront (rule : RegionRule) : Cut.IsFront (leading rule) text := by
  intro char rest
  unfold leading
  split
  · rename_i opener closer hpair
    obtain ⟨hmem, hopener⟩ := rule.passedOverAt?_front hpair
    split
    · rename_i inside hinside
      refine ⟨?_, isPrefix_opener_append hopener (isPrefix_of_throughCloser? hinside)⟩
      simp [text, (rule.passedOver_ne_nil _ hmem).1]
    · split <;> exact ⟨List.cons_ne_nil _ _, List.prefix_refl _⟩
  · split
    · rename_i hopens
      split
      · rename_i inside hinside
        refine ⟨by simp [text, rule.opener_ne_nil], ?_⟩
        exact isPrefix_opener_append (List.isPrefixOf_iff_prefix.mp hopens)
          (isPrefix_of_throughCloser? hinside)
      · exact ⟨List.cons_ne_nil _ _, List.prefix_refl _⟩
    · exact ⟨List.cons_ne_nil _ _, by simp [text]⟩

end Tile

/-- The tiles of a text, in order. -/
def tiles (rule : RegionRule) (text : List Char) : List Tile :=
  Cut.cut (Tile.leading rule) Tile.text text

theorem flatMap_tiles (rule : RegionRule) (text : List Char) :
    (tiles rule text).flatMap Tile.text = text :=
  Cut.flatMap_cut (Tile.leading_isFront rule) text

end ChuckLayout
