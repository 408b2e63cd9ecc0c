import ChuckLayout.Text.Blank
import Mathlib.Data.List.Basic
import Mathlib.Data.List.Infix
import Mathlib.Data.List.TakeWhile
import Mathlib.Tactic.Common

/-!
# Solid text

A text is solid where it is not blank.  Trimming and squeezing touch blanks only, so the solid
characters of a text, in their order, are what every stage of a layout has to keep.
-/

namespace ChuckLayout.Blank

/-- The text without its blanks. -/
def solid (text : List Char) : List Char :=
  text.filter fun char => !isBlank char

def AllBlank (text : List Char) : Prop :=
  ∀ char ∈ text, isBlank char

/-- The text begins and ends with characters that are not blank. -/
def IsTight (text : List Char) : Prop :=
  (text.head?.any fun char => !isBlank char) ∧ (text.getLast?.any fun char => !isBlank char)

theorem isBlank_space : isBlank ' ' := by
  decide

theorem isBlank_lineFeed : isBlank '\n' := by
  decide

@[simp]
theorem solid_nil : solid [] = [] := rfl

@[simp]
theorem solid_append (front back : List Char) : solid (front ++ back) = solid front ++ solid back :=
  List.filter_append _ _

theorem solid_cons_of_blank {char : Char} (hblank : isBlank char) (rest : List Char) :
    solid (char :: rest) = solid rest := by
  simp [solid, hblank]

theorem solid_cons_of_not_blank {char : Char} (hsolid : isBlank char = false) (rest : List Char) :
    solid (char :: rest) = char :: solid rest := by
  simp [solid, hsolid]

theorem solid_eq_nil_iff {text : List Char} : solid text = [] ↔ AllBlank text := by
  simp [solid, AllBlank]

theorem AllBlank.solid_eq_nil {text : List Char} (hblank : AllBlank text) : solid text = [] :=
  solid_eq_nil_iff.mpr hblank

theorem solid_flatMap {A : Type} (show' : A → List Char) (items : List A) :
    solid (items.flatMap show') = items.flatMap fun item => solid (show' item) := by
  induction items with
  | nil => rfl
  | cons item items ih => simp [List.flatMap_cons, ih]

theorem not_isBlank_of_any {text : List Char} (htext : text.any isBlank = false) :
    ∀ char ∈ text, isBlank char = false := by
  simpa using htext

/-! ## Blank texts -/

theorem allBlank_nil : AllBlank [] := by
  simp [AllBlank]

theorem allBlank_append {front back : List Char} :
    AllBlank (front ++ back) ↔ AllBlank front ∧ AllBlank back := by
  simp [AllBlank, or_imp, forall_and]

theorem allBlank_cons {char : Char} {rest : List Char} :
    AllBlank (char :: rest) ↔ isBlank char ∧ AllBlank rest := by
  simp [AllBlank]

theorem allBlank_replicate {char : Char} (hblank : isBlank char) (count : Nat) :
    AllBlank (List.replicate count char) := by
  intro other hother
  exact (List.eq_of_mem_replicate hother) ▸ hblank

/-! ## Trimming -/

theorem trimStart_of_blank_append {lead : List Char} (hlead : AllBlank lead) (text : List Char) :
    trimStart (lead ++ text) = trimStart text := by
  rw [trimStart, List.dropWhile_append_of_pos hlead, trimStart]

theorem trimEnd_append_of_blank {trail : List Char} (htrail : AllBlank trail) (text : List Char) :
    trimEnd (text ++ trail) = trimEnd text := by
  rw [trimEnd, List.reverse_append, List.dropWhile_append_of_pos, trimEnd]
  intro char hchar
  exact htrail char (List.mem_reverse.mp hchar)

theorem trimStart_of_head {text : List Char} (hhead : text.head?.any fun char => !isBlank char) :
    trimStart text = text := by
  cases text with
  | nil => rfl
  | cons char rest =>
      simp only [List.head?_cons, Option.any_some, Bool.not_eq_true'] at hhead
      simp [trimStart, hhead]

theorem trimEnd_of_getLast {text : List Char}
    (hlast : text.getLast?.any fun char => !isBlank char) : trimEnd text = text := by
  rw [← List.head?_reverse] at hlast
  have hreverse := trimStart_of_head hlast
  rw [trimStart] at hreverse
  rw [trimEnd, hreverse, List.reverse_reverse]

theorem trim_of_tight {text : List Char} (htight : IsTight text) : trim text = text := by
  rw [trim, trimStart_of_head htight.1, trimEnd_of_getLast htight.2]

theorem exists_trimStart (text : List Char) :
    ∃ lead, AllBlank lead ∧ text = lead ++ trimStart text := by
  refine ⟨text.takeWhile isBlank, ?_, (List.takeWhile_append_dropWhile).symm⟩
  intro char hchar
  exact List.mem_takeWhile_imp hchar

theorem exists_trimEnd (text : List Char) :
    ∃ trail, AllBlank trail ∧ text = trimEnd text ++ trail := by
  obtain ⟨lead, hlead, hreverse⟩ := exists_trimStart text.reverse
  refine ⟨lead.reverse, fun char hchar => hlead char (List.mem_reverse.mp hchar), ?_⟩
  have htext := congrArg List.reverse hreverse
  simpa only [List.reverse_reverse, List.reverse_append, trimStart, trimEnd] using htext

/-- Trimming takes away blanks at the ends, and nothing else. -/
theorem exists_trim (text : List Char) :
    ∃ lead trail, AllBlank lead ∧ AllBlank trail ∧ text = lead ++ trim text ++ trail := by
  obtain ⟨lead, hlead, hstart⟩ := exists_trimStart text
  obtain ⟨trail, htrail, hend⟩ := exists_trimEnd (trimStart text)
  refine ⟨lead, trail, hlead, htrail, ?_⟩
  rw [trim, List.append_assoc, ← hend, ← hstart]

theorem trim_isInfix (text : List Char) : trim text <:+: text := by
  obtain ⟨lead, trail, -, -, htext⟩ := exists_trim text
  exact ⟨lead, trail, htext.symm⟩

theorem head?_trimStart (text : List Char) :
    ∀ char, (trimStart text).head? = some char → isBlank char = false := by
  intro char hhead
  have := List.head?_dropWhile_not isBlank text
  rw [trimStart] at hhead
  rw [hhead] at this
  simpa using this

theorem trim_eq_nil_iff {text : List Char} : trim text = [] ↔ AllBlank text := by
  constructor
  · intro htrim
    obtain ⟨lead, trail, hlead, htrail, htext⟩ := exists_trim text
    rw [htext, htrim, List.append_nil]
    exact allBlank_append.mpr ⟨hlead, htrail⟩
  · intro hblank
    rw [trim, ← List.append_nil text, trimStart_of_blank_append hblank]
    rfl

theorem trim_of_blank_append {lead : List Char} (hlead : AllBlank lead) (text : List Char) :
    trim (lead ++ text) = trim text := by
  rw [trim, trim, trimStart_of_blank_append hlead]

theorem trim_append_of_blank {trail : List Char} (htrail : AllBlank trail) (text : List Char) :
    trim (text ++ trail) = trim text := by
  by_cases htext : AllBlank text
  · rw [trim_eq_nil_iff.mpr htext]
    exact trim_eq_nil_iff.mpr (allBlank_append.mpr ⟨htext, htrail⟩)
  · obtain ⟨lead, hlead, hstart⟩ := exists_trimStart text
    have hne : trimStart text ≠ [] := by
      intro hnil
      rw [hstart, hnil, List.append_nil] at htext
      exact htext hlead
    have hhead : (trimStart text ++ trail).head?.any fun char => !isBlank char := by
      obtain ⟨char, rest, hcons⟩ := List.exists_cons_of_ne_nil hne
      have hsolid := head?_trimStart text char (by rw [hcons]; rfl)
      simp [hcons, hsolid]
    conv_lhs => rw [hstart, List.append_assoc]
    rw [trim, trim, trimStart_of_blank_append hlead, trimStart_of_head hhead,
      trimEnd_append_of_blank htrail]

theorem solid_trim (text : List Char) : solid (trim text) = solid text := by
  obtain ⟨lead, trail, hlead, htrail, htext⟩ := exists_trim text
  conv_rhs => rw [htext]
  simp [hlead.solid_eq_nil, htrail.solid_eq_nil]

theorem solid_trimStart (text : List Char) : solid (trimStart text) = solid text := by
  obtain ⟨lead, hlead, hstart⟩ := exists_trimStart text
  conv_rhs => rw [hstart]
  rw [solid_append, hlead.solid_eq_nil, List.nil_append]

theorem solid_trimEnd (text : List Char) : solid (trimEnd text) = solid text := by
  obtain ⟨trail, htrail, htext⟩ := exists_trimEnd text
  conv_rhs => rw [htext]
  simp [htrail.solid_eq_nil]

theorem getLast?_trimEnd (text : List Char) :
    ∀ char, (trimEnd text).getLast? = some char → isBlank char = false := by
  intro char hlast
  rw [trimEnd, List.getLast?_reverse] at hlast
  exact head?_trimStart text.reverse char hlast

/-! ## Fronts with the same solid text -/

/-- Two fronts of a text with the same solid text are apart by blanks only. -/
theorem exists_gap {front back front' back' : List Char} (htext : front ++ back = front' ++ back')
    (hlast : front.getLast?.any fun char => !isBlank char) (hsolid : solid front = solid front') :
    ∃ gap, front' = front ++ gap ∧ AllBlank gap := by
  rcases List.append_eq_append_iff.mp htext with ⟨gap, hgap, -⟩ | ⟨gap, hgap, -⟩
  · refine ⟨gap, hgap, ?_⟩
    rw [hgap, solid_append] at hsolid
    exact solid_eq_nil_iff.mp (List.append_right_eq_self.mp hsolid.symm)
  · rw [hgap, solid_append] at hsolid
    have hblank := solid_eq_nil_iff.mp (List.append_right_eq_self.mp hsolid)
    rcases gap.eq_nil_or_concat' with rfl | ⟨gap, last, rfl⟩
    · exact ⟨[], by rw [hgap, List.append_nil, List.append_nil], allBlank_nil⟩
    · rw [hgap, ← List.append_assoc, List.getLast?_concat, Option.any_some, hblank last (by simp)]
        at hlast
      exact Bool.noConfusion hlast

/-- Two places of a text right after a character that is not blank are one place when the same solid
characters stand before both. -/
theorem eq_of_solid_eq {front back front' back' : List Char} (htext : front ++ back = front' ++ back')
    (hlast : front.getLast?.any fun char => !isBlank char)
    (hlast' : front'.getLast?.any fun char => !isBlank char) (hsolid : solid front = solid front') :
    front = front' := by
  obtain ⟨gap, rfl, hgap⟩ := exists_gap htext hlast hsolid
  rcases gap.eq_nil_or_concat' with rfl | ⟨gap, last, rfl⟩
  · exact (List.append_nil front).symm
  · rw [← List.append_assoc, List.getLast?_concat, Option.any_some, hgap last (by simp)] at hlast'
    exact Bool.noConfusion hlast'

end ChuckLayout.Blank
