/-!
# Searching in a text
-/

namespace ChuckLayout.Search

/-- The `pattern` stands somewhere in the text. -/
def occursIn (pattern : List Char) : List Char → Bool
  | [] => pattern.isEmpty
  | char :: rest => pattern.isPrefixOf (char :: rest) || occursIn pattern rest

theorem length_le_of_occursIn {pattern text : List Char} (hoccurs : occursIn pattern text) :
    pattern.length ≤ text.length := by
  induction text with
  | nil =>
      simp only [occursIn, List.isEmpty_iff] at hoccurs
      simp [hoccurs]
  | cons char rest ih =>
      rw [occursIn, Bool.or_eq_true] at hoccurs
      rcases hoccurs with hfront | hlater
      · exact (List.isPrefixOf_iff_prefix.mp hfront).length_le
      · exact Nat.le_trans (ih hlater) (Nat.le_succ _)

/-- Splits a text just before the first place where `pattern` stands. -/
def splitBefore? (pattern : List Char) : List Char → Option (List Char × List Char)
  | [] => none
  | char :: rest =>
      if pattern.isPrefixOf (char :: rest) then some ([], char :: rest)
      else (splitBefore? pattern rest).map fun (front, back) => (char :: front, back)

end ChuckLayout.Search
