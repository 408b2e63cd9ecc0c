import ChuckLayout.Proofs.Text.Squeeze

/-!
# Words

A text falls into words at the characters that separate them.  Where every blank separates, squeezing
and trimming change no word.
-/

namespace ChuckLayout.Blank

/-- The parts of a text between the characters that separate them, without the empty ones. -/
def wordsBy (separates : Char → Bool) (text : List Char) : List (List Char) :=
  (text.splitOnP separates).filter fun word => word != []

def words (text : List Char) : List (List Char) :=
  wordsBy isBlank text

variable {separates : Char → Bool}

@[simp]
theorem wordsBy_nil : wordsBy separates [] = [] := rfl

theorem wordsBy_append_cons {char : Char} (hchar : separates char) (front back : List Char) :
    wordsBy separates (front ++ char :: back) =
      wordsBy separates front ++ wordsBy separates back := by
  rw [wordsBy, List.splitOnP_append_cons front back hchar, List.filter_append, wordsBy, wordsBy]

theorem wordsBy_cons {char : Char} (hchar : separates char) (text : List Char) :
    wordsBy separates (char :: text) = wordsBy separates text :=
  wordsBy_append_cons hchar [] text

theorem wordsBy_of_none {word : List Char} (hword : ∀ char ∈ word, separates char = false)
    (hne : word ≠ []) : wordsBy separates word = [word] := by
  rw [wordsBy, List.splitOnP_eq_singleton hword]
  simp [hne]

/-- A word ends where a separating character follows it. -/
theorem wordsBy_word_append {word : List Char} (hword : ∀ char ∈ word, separates char = false)
    (hne : word ≠ []) {back : List Char} (hback : back.head?.all separates) :
    wordsBy separates (word ++ back) = word :: wordsBy separates back := by
  cases back with
  | nil => rw [List.append_nil, wordsBy_of_none hword hne, wordsBy_nil]
  | cons char rest =>
      have hchar : separates char := by simpa using hback
      rw [wordsBy_append_cons hchar, wordsBy_of_none hword hne, wordsBy_cons hchar,
        List.singleton_append]

theorem wordsBy_of_all {text : List Char} (htext : ∀ char ∈ text, separates char) :
    wordsBy separates text = [] := by
  induction text with
  | nil => rfl
  | cons char rest ih =>
      obtain ⟨hchar, hrest⟩ := List.forall_mem_cons.mp htext
      rw [wordsBy_cons hchar, ih hrest]

theorem wordsBy_append_of_all {lead : List Char} (hlead : ∀ char ∈ lead, separates char)
    (text : List Char) : wordsBy separates (lead ++ text) = wordsBy separates text := by
  induction lead with
  | nil => rfl
  | cons char rest ih =>
      obtain ⟨hchar, hrest⟩ := List.forall_mem_cons.mp hlead
      rw [List.cons_append, wordsBy_cons hchar, ih hrest]

theorem wordsBy_append_all {trail : List Char} (htrail : ∀ char ∈ trail, separates char)
    (text : List Char) : wordsBy separates (text ++ trail) = wordsBy separates text := by
  cases trail with
  | nil => rw [List.append_nil]
  | cons char rest =>
      obtain ⟨hchar, hrest⟩ := List.forall_mem_cons.mp htrail
      rw [wordsBy_append_cons hchar, wordsBy_of_all hrest, List.append_nil]

/-! ## Squeezed text -/

/-- What is seen alike whichever blank stands before the rest of a text is seen alike in the squeezed
text.  The front stands for a word that the squeezed text may go on with. -/
theorem see_squeezeFrom {α : Type} {see : List Char → α}
    (hcut : ∀ (front : List Char) {char other : Char} {back back' : List Char}, isBlank char →
      isBlank other → see back = see back' → see (front ++ char :: back) = see (front ++ other :: back'))
    (hlead : ∀ {char : Char} (back : List Char), isBlank char → see (char :: back) = see back)
    (front text : List Char) :
    see (front ++ squeezeFrom false text) = see (front ++ text) ∧
      see (squeezeFrom true text) = see text := by
  induction text generalizing front with
  | nil => exact ⟨rfl, rfl⟩
  | cons char rest ih =>
      rw [squeezeFrom, squeezeFrom]
      by_cases hhorizontal : isHorizontal char
      · have hchar := isBlank_of_isHorizontal hhorizontal
        rw [if_pos hhorizontal, if_pos hhorizontal, if_neg Bool.false_ne_true, if_pos rfl]
        exact ⟨hcut front isBlank_space hchar (ih []).2, (ih []).2.trans (hlead rest hchar).symm⟩
      · rw [if_neg hhorizontal, if_neg hhorizontal, List.append_cons front char rest,
          ← (ih (front ++ [char])).1, ← List.append_cons]
        exact ⟨rfl, (ih [char]).1⟩

section

variable (hblank : ∀ char, isBlank char → separates char)

include hblank

/-- Squeezing changes the blanks between words, and neither a word nor their order. -/
theorem wordsBy_squeeze (text : List Char) :
    wordsBy separates (squeeze text) = wordsBy separates text := by
  refine (see_squeezeFrom ?_ ?_ [] text).1
  · intro front char other back back' hchar hother hback
    rw [wordsBy_append_cons (hblank char hchar), wordsBy_append_cons (hblank other hother), hback]
  · exact fun back hchar => wordsBy_cons (hblank _ hchar) back

theorem wordsBy_trim (text : List Char) :
    wordsBy separates (trim text) = wordsBy separates text := by
  obtain ⟨lead, trail, hlead, htrail, htext⟩ := exists_trim text
  conv_rhs => rw [htext]
  rw [wordsBy_append_all fun char hchar => hblank char (htrail char hchar),
    wordsBy_append_of_all fun char hchar => hblank char (hlead char hchar)]

end

/-- The words of a text hold its solid characters. -/
theorem flatten_words (text : List Char) : (words text).flatten = solid text := by
  have hfront : ∀ front, (∀ char ∈ front, isBlank char = false) →
      (words (front ++ text)).flatten = front ++ solid text := by
    induction text with
    | nil =>
        intro front hfront
        rcases eq_or_ne front [] with rfl | hne
        · rfl
        · rw [List.append_nil, words, wordsBy_of_none hfront hne]
          simp
    | cons char rest ih =>
        intro front hfront
        cases hchar : isBlank char with
        | true =>
            have hrest := ih [] (by simp)
            rw [words, wordsBy_append_cons hchar, ← words, ← words, List.flatten_append,
              solid_cons_of_blank hchar]
            rcases eq_or_ne front [] with rfl | hne
            · exact hrest
            · rw [words, wordsBy_of_none hfront hne, ← List.nil_append rest, hrest]
              simp
        | false =>
            have hlonger : ∀ other ∈ front ++ [char], isBlank other = false := by
              simpa [or_imp, forall_and] using ⟨hfront, hchar⟩
            rw [List.append_cons, ih _ hlonger, solid_cons_of_not_blank hchar, List.append_assoc,
              List.singleton_append]
  exact hfront [] (by simp)

/-! ## The last word -/

theorem lastWord_append_cons {char : Char} (hchar : isBlank char) (front back : List Char) :
    lastWord (front ++ char :: back) = lastWord back := by
  rw [lastWord, lastWord, List.reverse_append, List.reverse_cons, List.append_assoc,
    List.takeWhile_append]
  split
  · rename_i hall
    rw [List.singleton_append, List.takeWhile_cons_of_neg (by simp [hchar]), List.append_nil,
      (List.takeWhile_prefix _).eq_of_length hall]
  · rfl

theorem lastWord_append_solid {word : List Char} (hword : ∀ char ∈ word, isBlank char = false)
    (front : List Char) : lastWord (front ++ word) = lastWord front ++ word := by
  rw [lastWord, lastWord, List.reverse_append, List.takeWhile_append_of_pos, List.reverse_append,
    List.reverse_reverse]
  simpa using hword

theorem lastWord_trimStart (text : List Char) : lastWord (trimStart text) = lastWord text := by
  induction text with
  | nil => rfl
  | cons char rest ih =>
      rw [trimStart, List.dropWhile_cons]
      split
      · rename_i hchar
        exact ih.trans (lastWord_append_cons hchar [] rest).symm
      · rfl

theorem lastWord_squeeze (text : List Char) : lastWord (squeeze text) = lastWord text := by
  refine (see_squeezeFrom ?_ ?_ [] text).1
  · intro front char other back back' hchar hother hback
    rw [lastWord_append_cons hchar, lastWord_append_cons hother, hback]
  · exact fun back hchar => lastWord_append_cons hchar [] back

end ChuckLayout.Blank
