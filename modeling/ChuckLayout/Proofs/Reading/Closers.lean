import ChuckLayout.Literal.Tiling
import ChuckLayout.Proofs.Reading.Segment

/-!
# Tiles and segments

A pass that cuts a text into tiles looks for one kind of literal and passes over others.  Each of its
tiles is a segment of the text, read in the scope of the pass: closers are found byte by byte, and
no byte of a longer character is a backslash, so bytes and characters agree on what is hidden.
-/

namespace ChuckLayout

namespace Tile

open Segment (throughCommentEnd? throughQuote?)

/-! ## Closers -/

theorem eq_of_ofNat_eq_backslash {number : Nat} (hbyte : (92 : UInt8) = UInt8.ofNat number) :
    number % 256 = 92 := by
  have hnat := congrArg UInt8.toNat hbyte
  simpa [UInt8.toNat_ofNat', eq_comm] using hnat

/-- Only a backslash has the byte of one in it: every byte of a longer character is above it. -/
theorem backslash_not_mem_utf8EncodeChar {char : Char} (hchar : char ≠ '\\') :
    (92 : UInt8) ∉ String.utf8EncodeChar char := by
  have hval : char.val.toNat ≠ 92 := by
    intro hval
    exact hchar (Char.ext (UInt32.toNat_inj.mp hval))
  unfold String.utf8EncodeChar
  simp only
  split
  · rename_i hshort
    intro hmem
    have := eq_of_ofNat_eq_backslash (List.mem_singleton.mp hmem)
    omega
  split
  · simp only [List.mem_cons, List.not_mem_nil, or_false, not_or]
    constructor <;> intro hmem <;> have := eq_of_ofNat_eq_backslash hmem <;> omega
  split
  · simp only [List.mem_cons, List.not_mem_nil, or_false, not_or]
    refine ⟨?_, ?_, ?_⟩ <;> intro hmem <;> have := eq_of_ofNat_eq_backslash hmem <;> omega
  · simp only [List.mem_cons, List.not_mem_nil, or_false, not_or]
    refine ⟨?_, ?_, ?_, ?_⟩ <;> intro hmem <;> have := eq_of_ofNat_eq_backslash hmem <;> omega

theorem hiddenAfter_of_not_mem {escape : UInt8} {bytes : List UInt8} (hbytes : escape ∉ bytes)
    (hne : bytes ≠ []) (hidden : Bool) : hiddenAfter (some escape) hidden bytes = false := by
  induction bytes generalizing hidden with
  | nil => exact absurd rfl hne
  | cons byte rest ih =>
      rw [List.mem_cons, not_or] at hbytes
      have hstep : (!hidden && some escape == some byte) = false := by
        simp [hbytes.1]
      rw [hiddenAfter, hstep]
      cases rest with
      | nil => rfl
      | cons next later => exact ih hbytes.2 (List.cons_ne_nil _ _) false

theorem hiddenAfter_none (bytes : List UInt8) : hiddenAfter none false bytes = false := by
  induction bytes with
  | nil => rfl
  | cons byte rest ih => simpa [hiddenAfter] using ih

/-- After the bytes of a character the next byte is hidden exactly if the character is a backslash
that is not hidden itself. -/
theorem hiddenAfter_backslash (hidden : Bool) (char : Char) :
    hiddenAfter (some 92) hidden (String.utf8EncodeChar char) = (!hidden && char == '\\') := by
  by_cases hchar : char = '\\'
  · subst hchar
    cases hidden <;> decide
  · rw [hiddenAfter_of_not_mem (backslash_not_mem_utf8EncodeChar hchar) String.utf8EncodeChar_ne_nil]
    simp [hchar]

theorem startsWithEscape_backslash (char : Char) :
    startsWithEscape (some 92) char = (char == '\\') := by
  by_cases hchar : char = '\\'
  · subst hchar
    decide
  · have hhead : (String.utf8EncodeChar char).head? ≠ some 92 := by
      intro hhead
      exact backslash_not_mem_utf8EncodeChar hchar (List.mem_of_head? hhead)
    simp [startsWithEscape, hchar, hhead]

/-- Looking for the closer of a comment comes to the same as reading the text through the first
`*/`. -/
theorem throughCloser?_commentEnd (text : List Char) :
    throughCloser? "*/".toList none false text = throughCommentEnd? text := by
  induction text with
  | nil => rfl
  | cons char rest ih =>
      rw [throughCloser?, throughCommentEnd?, hiddenAfter_none, ih]
      cases rest <;> simp [startsWithEscape, @eq_comm _ '*' char, @eq_comm _ '/']

theorem throughCloser?_quote (hidden : Bool) (text : List Char) :
    throughCloser? "\"".toList (some 92) hidden text = throughQuote? hidden text := by
  induction text generalizing hidden with
  | nil => rfl
  | cons char rest ih =>
      rw [throughCloser?, throughQuote?, hiddenAfter_backslash, ih, startsWithEscape_backslash]
      by_cases hquote : char = '\"'
      · subst hquote
        cases hidden <;> simp
      · simp [hquote, Ne.symm hquote]

theorem throughCloser?_lineFeed (text : List Char) :
    throughCloser? "\n".toList none false text =
      if '\n' ∈ text then some (text.takeWhile (· != '\n') ++ ['\n']) else none := by
  induction text with
  | nil => rfl
  | cons char rest ih =>
      rw [throughCloser?, hiddenAfter_none, ih]
      by_cases hfeed : char = '\n'
      · simp [startsWithEscape, hfeed]
      · by_cases hmem : '\n' ∈ rest <;>
          simp [startsWithEscape, hfeed, Ne.symm hfeed, hmem]

end Tile

/-- The pass by this rule finds what a reading in this scope finds. -/
inductive Seeks : RegionRule → Scope → Prop where
  | strings : Seeks .string .all
  | blockComments : Seeks .blockComment .comments

namespace Tile

open Segment (literalAt?)

/-! ## The leading tile -/

theorem isPrefixOf_pair (first second char : Char) (rest : List Char) :
    [first, second].isPrefixOf (char :: rest) =
      decide (char = first ∧ rest.head? = some second) := by
  rw [Bool.eq_iff_iff]
  cases rest <;> simp [List.isPrefixOf, @eq_comm _ first, @eq_comm _ second]

variable {rule : RegionRule} {scope : Scope} {char : Char} {rest : List Char}

theorem passedOverAt?_string :
    RegionRule.string.passedOverAt? (char :: rest) =
      if char = '/' ∧ rest.head? = some '/' then some ("//".toList, "\n".toList)
      else if char = '/' ∧ rest.head? = some '*' then some ("/*".toList, "*/".toList)
      else none := by
  simp only [RegionRule.passedOverAt?, RegionRule.string, List.find?_cons, List.find?_nil,
    String.reduceToList, isPrefixOf_pair]
  by_cases hslash : char = '/' ∧ rest.head? = some '/'
  · rw [decide_eq_true hslash, if_pos hslash]
  · rw [decide_eq_false hslash, if_neg hslash]
    by_cases hstar : char = '/' ∧ rest.head? = some '*'
    · rw [decide_eq_true hstar, if_pos hstar]
    · rw [decide_eq_false hstar, if_neg hstar]

theorem passedOverAt?_blockComment :
    RegionRule.blockComment.passedOverAt? (char :: rest) =
      if char = '/' ∧ rest.head? = some '/' then some ("//".toList, "\n".toList) else none := by
  simp only [RegionRule.passedOverAt?, RegionRule.blockComment, List.find?_cons, List.find?_nil,
    String.reduceToList, isPrefixOf_pair]
  by_cases hslash : char = '/' ∧ rest.head? = some '/'
  · rw [decide_eq_true hslash, if_pos hslash]
  · rw [decide_eq_false hslash, if_neg hslash]

theorem leading_of_code (hseeks : Seeks rule scope)
    (hopening : scope.opening? char rest.head? = none) : leading rule char rest = .plain char := by
  obtain ⟨hline, hblock, hquote⟩ := Scope.opening?_eq_none_iff.mp hopening
  cases hseeks with
  | strings =>
      simp only [ne_eq, reduceCtorEq, not_false_eq_true, and_true] at hblock hquote
      rw [leading, passedOverAt?_string, if_neg hline, if_neg hblock]
      simp [RegionRule.string, Ne.symm hquote]
  | blockComments =>
      simp only [ne_eq, reduceCtorEq, not_false_eq_true, and_true] at hblock
      rw [leading, passedOverAt?_blockComment, if_neg hline]
      simp only [RegionRule.blockComment, String.reduceToList, isPrefixOf_pair, decide_eq_true_eq,
        if_neg hblock]

/-- A line comment is passed over together with the line break after it. -/
theorem leading_of_lineComment (hseeks : Seeks rule scope)
    (hopening : scope.opening? char rest.head? = some .lineComment) :
    leading rule char rest =
      .passedOver ((char :: rest).takeWhile (· != '\n') ++ if '\n' ∈ rest then ['\n'] else []) := by
  obtain ⟨rfl, hnext⟩ := Scope.opening?_eq_lineComment_iff.mp hopening
  obtain ⟨later, rfl⟩ := List.head?_eq_some_iff.mp hnext
  have hpair : rule.passedOverAt? ('/' :: '/' :: later) = some ("//".toList, "\n".toList) := by
    cases hseeks
    · rw [passedOverAt?_string, if_pos ⟨rfl, rfl⟩]
    · rw [passedOverAt?_blockComment, if_pos ⟨rfl, rfl⟩]
  rw [leading, hpair]
  simp only [String.reduceToList, List.length_cons, List.length_nil, List.drop_succ_cons,
    List.drop_zero]
  have hclose := throughCloser?_lineFeed later
  simp only [String.reduceToList] at hclose
  rw [hclose]
  by_cases hfeed : '\n' ∈ later
  · simp [hfeed]
  · have hwhole : later.takeWhile (· != '\n') = later := by
      rw [List.takeWhile_eq_self_iff]
      intro other hother
      have : other ≠ '\n' := fun heq => hfeed (heq ▸ hother)
      simpa using this
    simp [hfeed, hwhole]

/-- What a pass looks for, it finds where the reading finds it. -/
theorem leading_of_region (hseeks : Seeks rule scope)
    (hopening : scope.opening? char rest.head? = some rule.kind) :
    leading rule char rest =
      match literalAt? (char :: rest) rule.kind with
      | some text => .region text
      | none => .openRegion (char :: rest) := by
  cases hseeks with
  | strings =>
      obtain ⟨rfl, -⟩ := Scope.opening?_eq_string_iff.mp hopening
      rw [leading, passedOverAt?_string, if_neg (by simp), if_neg (by simp)]
      have hclose := throughCloser?_quote false rest
      simp only [String.reduceToList] at hclose
      simp only [RegionRule.string, String.reduceToList, literalAt?, List.length_cons,
        List.length_nil, List.drop_succ_cons, List.drop_zero, hclose]
      cases Segment.throughQuote? false rest <;> simp
  | blockComments =>
      obtain ⟨rfl, hstar, -⟩ := Scope.opening?_eq_blockComment_iff.mp hopening
      obtain ⟨later, rfl⟩ := List.head?_eq_some_iff.mp hstar
      rw [leading, passedOverAt?_blockComment, if_neg (by simp)]
      have hclose := throughCloser?_commentEnd later
      simp only [String.reduceToList] at hclose
      simp only [RegionRule.blockComment, String.reduceToList, literalAt?, List.length_cons,
        List.length_nil, List.drop_succ_cons, List.drop_zero, hclose]
      cases Segment.throughCommentEnd? later <;> simp

/-- The pass for strings passes over block comments. -/
theorem leading_of_blockComment
    (hopening : Scope.all.opening? char rest.head? = some .blockComment) :
    leading .string char rest =
      match literalAt? (char :: rest) .blockComment with
      | some text => .passedOver text
      | none => .openPassedOver (char :: rest) := by
  obtain ⟨rfl, hstar, -⟩ := Scope.opening?_eq_blockComment_iff.mp hopening
  obtain ⟨later, rfl⟩ := List.head?_eq_some_iff.mp hstar
  rw [leading, passedOverAt?_string, if_neg (by simp), if_pos ⟨rfl, rfl⟩]
  have hclose := throughCloser?_commentEnd later
  simp only [String.reduceToList] at hclose
  simp only [String.reduceToList, literalAt?, List.length_cons, List.length_nil,
    List.drop_succ_cons, List.drop_zero, hclose]
  cases Segment.throughCommentEnd? later <;> simp

end Tile

theorem tiles_nil (rule : RegionRule) : tiles rule [] = [] :=
  Cut.cut_nil

theorem tiles_of_leading {rule : RegionRule} {char : Char} {rest : List Char} {tile : Tile}
    (hleading : Tile.leading rule char rest = tile) (later : List Char)
    (htext : char :: rest = tile.text ++ later) :
    tiles rule (char :: rest) = tile :: tiles rule later := by
  obtain ⟨hne, -⟩ := Tile.leading_isFront rule char rest
  rw [hleading] at hne
  obtain ⟨first, tail, htile⟩ := List.exists_cons_of_ne_nil hne
  rw [tiles, Cut.cut_cons, hleading]
  rw [htile, List.cons_append, List.cons.injEq] at htext
  rw [htile, htext.2]
  simp [tiles]

theorem head?_tiles (rule : RegionRule) (text : List Char) :
    ((tiles rule text).head?.bind fun tile => tile.text.head?) = text.head? := by
  cases text with
  | nil => rw [tiles_nil]; rfl
  | cons char rest =>
      obtain ⟨hne, hfront⟩ := Tile.leading_isFront rule char rest
      obtain ⟨first, tail, htile⟩ := List.exists_cons_of_ne_nil hne
      rw [htile, List.cons_prefix_cons] at hfront
      rw [tiles, Cut.cut_cons]
      simp [htile, hfront.1]

end ChuckLayout
