import ChuckLayout.Text.Cut
import Mathlib.Data.List.Basic
import Mathlib.Data.List.Infix
import Mathlib.Data.List.TakeWhile
import Mathlib.Tactic.Common

/-!
# Cutting a text in parts

A text may be cut in two parts on their own, as long as no leading piece of the first part depends
on the second.  Pieces that follow each other are what the text that they cover is cut into.
-/

namespace ChuckLayout

theorem takeWhile_append_of_stop {front back : List Char} {keeps : Char → Bool}
    (hstop : (∀ char ∈ front, keeps char) → ∀ first, back.head? = some first → keeps first = false) :
    (front ++ back).takeWhile keeps = front.takeWhile keeps := by
  rw [List.takeWhile_append]
  split
  · rename_i hall
    have hkeeps : ∀ char ∈ front, keeps char := by
      intro char hchar
      rw [← (List.takeWhile_prefix keeps).eq_of_length hall] at hchar
      exact List.mem_takeWhile_imp hchar
    cases back with
    | nil => simp [(List.takeWhile_prefix keeps).eq_of_length hall]
    | cons first back =>
        rw [List.takeWhile_cons_of_neg (by simp [hstop hkeeps first rfl]), List.append_nil,
          (List.takeWhile_prefix keeps).eq_of_length hall]
  · rfl

theorem all_head?_of_isPrefix {holds : Char → Bool} {front text : List Char} (hfront : front <+: text)
    (htext : text.head?.all holds) : front.head?.all holds := by
  obtain ⟨later, rfl⟩ := hfront
  cases front with
  | nil => rfl
  | cons first front => exact htext

theorem all_getLast?_of_isSuffix {holds : Char → Bool} {back text : List Char} (hback : back <:+ text)
    (htext : text.getLast?.all holds) : back.getLast?.all holds := by
  rw [← List.head?_reverse] at htext ⊢
  exact all_head?_of_isPrefix (List.reverse_prefix.mpr hback) htext

/-- Two characters next to each other are in one part of a text, or meet where its parts do. -/
theorem isInfix_pair_append {first second : Char} {front back : List Char}
    (hoccurs : [first, second] <:+: front ++ back) :
    [first, second] <:+: front ∨ [first, second] <:+: back ∨
      front.getLast? = some first ∧ back.head? = some second := by
  induction front with
  | nil => exact Or.inr (Or.inl hoccurs)
  | cons char front ih =>
      rw [List.cons_append, List.infix_cons_iff] at hoccurs
      rcases hoccurs with hstarts | hlater
      · obtain ⟨rfl, hnext⟩ := List.cons_prefix_cons.mp hstarts
        cases front with
        | nil =>
            right; right
            obtain ⟨later, hlater⟩ := hnext
            rw [List.nil_append] at hlater
            exact ⟨rfl, by rw [← hlater]; rfl⟩
        | cons next front =>
            left
            obtain ⟨rfl, -⟩ := List.cons_prefix_cons.mp hnext
            exact ⟨[], front, rfl⟩
      · rcases ih hlater with hfront | hback | ⟨hlast, hhead⟩
        · exact Or.inl (List.infix_cons hfront)
        · exact Or.inr (Or.inl hback)
        · refine Or.inr (Or.inr ⟨?_, hhead⟩)
          rw [List.getLast?_cons, hlast]
          rfl

/-- A run ends where it ended in a longer text that it has been read from. -/
theorem takeWhile_of_isPrefix {keeps : Char → Bool} {front text : List Char}
    (hrun : text.takeWhile keeps <+: front) (hfront : front <+: text) :
    front.takeWhile keeps = text.takeWhile keeps := by
  obtain ⟨more, rfl⟩ := hrun
  obtain ⟨later, hlater⟩ := hfront
  have hkeeps : ∀ char ∈ text.takeWhile keeps, keeps char :=
    fun char hchar => List.mem_takeWhile_imp hchar
  have hdrop : text.dropWhile keeps = more ++ later := by
    rw [← List.append_cancel_left_eq (text.takeWhile keeps), List.takeWhile_append_dropWhile,
      ← List.append_assoc, hlater]
  rw [List.takeWhile_append_of_pos hkeeps]
  cases more with
  | nil => exact List.append_nil _
  | cons char more =>
      have hchar : ¬keeps char := by
        have hhead := List.head?_dropWhile_not keeps text
        rw [hdrop] at hhead
        simpa using hhead
      rw [List.takeWhile_cons_of_neg hchar, List.append_nil]

namespace Cut

variable {Piece : Type} {leading : Char → List Char → Piece} {covered : Piece → List Char}

theorem exists_later (hfront : IsFront leading covered) (char : Char) (rest : List Char) :
    ∃ later, char :: rest = covered (leading char rest) ++ later ∧
      later.length < (char :: rest).length := by
  obtain ⟨hne, later, hlater⟩ := hfront char rest
  refine ⟨later, hlater.symm, ?_⟩
  rw [← hlater, List.length_append]
  have := List.length_pos_iff.mpr hne
  omega

theorem cut_of_leading (hfront : IsFront leading covered) {char : Char} {rest : List Char}
    {piece : Piece} (hleading : leading char rest = piece) (later : List Char)
    (htext : char :: rest = covered piece ++ later) :
    cut leading covered (char :: rest) = piece :: cut leading covered later := by
  obtain ⟨hne, -⟩ := hfront char rest
  rw [hleading] at hne
  obtain ⟨first, tail, hpiece⟩ := List.exists_cons_of_ne_nil hne
  rw [cut_cons, hleading]
  rw [hpiece, List.cons_append, List.cons.injEq] at htext
  rw [hpiece, htext.2]
  simp

/-- A text can be cut in two parts when no leading piece of the first one looks into the second. -/
theorem cut_append (hfront : IsFront leading covered) {front back : List Char}
    (hlocal : ∀ char rest, char :: rest <:+ front → leading char (rest ++ back) = leading char rest) :
    cut leading covered (front ++ back) =
      cut leading covered front ++ cut leading covered back := by
  induction hlength : front.length using Nat.strong_induction_on generalizing front with
  | _ length ih =>
      cases front with
      | nil => rw [cut_nil]; rfl
      | cons char rest =>
          obtain ⟨later, hlater, hshorter⟩ := exists_later hfront char rest
          have hleading := hlocal char rest List.suffix_rfl
          have hsuffix : later <:+ char :: rest := ⟨_, hlater.symm⟩
          have htext : char :: (rest ++ back) =
              covered (leading char rest) ++ (later ++ back) := by
            rw [← List.append_assoc, ← hlater, List.cons_append]
          rw [cut_of_leading hfront rfl _ hlater, List.cons_append,
            cut_of_leading hfront hleading _ htext,
            ih later.length (hlength ▸ hshorter)
              (fun char rest hrest => hlocal char rest (hrest.trans hsuffix)) rfl,
            List.cons_append]

/-- A piece is the leading piece of some end of the text. -/
theorem mem_cut (hfront : IsFront leading covered) {text : List Char} {piece : Piece}
    (hpiece : piece ∈ cut leading covered text) :
    ∃ char rest, char :: rest <:+ text ∧ piece = leading char rest := by
  induction hlength : text.length using Nat.strong_induction_on generalizing text with
  | _ length ih =>
      cases text with
      | nil => simp [cut_nil] at hpiece
      | cons char rest =>
          obtain ⟨later, hlater, hshorter⟩ := exists_later hfront char rest
          rw [cut_of_leading hfront rfl _ hlater] at hpiece
          rcases List.mem_cons.mp hpiece with rfl | hmem
          · exact ⟨char, rest, List.suffix_rfl, rfl⟩
          · obtain ⟨first, tail, hsuffix, heq⟩ := ih later.length (hlength ▸ hshorter) hmem rfl
            exact ⟨first, tail, hsuffix.trans ⟨_, hlater.symm⟩, heq⟩

/-- A leading piece is still the leading piece when the text ends somewhere after it. -/
def IsLocal (leading : Char → List Char → Piece) (covered : Piece → List Char) : Prop :=
  ∀ char rest front, covered (leading char rest) <+: char :: front → front <+: rest →
    leading char front = leading char rest

theorem cut_flatMap_of_back (hfront : IsFront leading covered) {text : List Char}
    {front back : List Piece} (hcut : cut leading covered text = front ++ back) :
    cut leading covered (back.flatMap covered) = back := by
  induction front generalizing text with
  | nil => rw [← List.nil_append back, ← hcut, flatMap_cut hfront]
  | cons piece front ih =>
      cases text with
      | nil => simp [cut_nil] at hcut
      | cons char rest =>
          obtain ⟨later, hlater, -⟩ := exists_later hfront char rest
          rw [cut_of_leading hfront rfl _ hlater, List.cons_append, List.cons.injEq] at hcut
          exact ih hcut.2

theorem cut_flatMap_of_front (hfront : IsFront leading covered) (hlocal : IsLocal leading covered)
    {text : List Char} {front back : List Piece}
    (hcut : cut leading covered text = front ++ back) :
    cut leading covered (front.flatMap covered) = front := by
  induction front generalizing text with
  | nil => exact cut_nil
  | cons piece front ih =>
      cases text with
      | nil => simp [cut_nil] at hcut
      | cons char rest =>
          obtain ⟨later, hlater, -⟩ := exists_later hfront char rest
          rw [cut_of_leading hfront rfl _ hlater, List.cons_append, List.cons.injEq] at hcut
          obtain ⟨rfl, hcut⟩ := hcut
          have hstarts : front.flatMap covered <+: later := by
            rw [← flatMap_cut hfront later, hcut, List.flatMap_append]
            exact List.prefix_append _ _
          obtain ⟨first, tail, hpiece⟩ := List.exists_cons_of_ne_nil (hfront char rest).1
          rw [hpiece, List.cons_append, List.cons.injEq] at hlater
          obtain ⟨rfl, rfl⟩ := hlater
          have hleading : leading char (tail ++ front.flatMap covered) =
              leading char (tail ++ later) := by
            apply hlocal
            · rw [hpiece]
              exact (List.prefix_cons_inj char).mpr (List.prefix_append _ _)
            · exact (List.prefix_append_right_inj tail).mpr hstarts
          rw [List.flatMap_cons, hpiece, List.cons_append,
            cut_of_leading hfront hleading (front.flatMap covered)
              (by rw [hpiece, List.cons_append]), ih hcut]

/-- Pieces that follow each other in the cut of a text are the cut of what they cover. -/
theorem cut_flatMap_of_isInfix (hfront : IsFront leading covered) (hlocal : IsLocal leading covered)
    {text : List Char} {part : List Piece} (hpart : part <:+: cut leading covered text) :
    cut leading covered (part.flatMap covered) = part := by
  obtain ⟨front, back, hcut⟩ := hpart
  rw [List.append_assoc] at hcut
  have hrest := cut_flatMap_of_back hfront hcut.symm
  exact cut_flatMap_of_front hfront hlocal hrest

end Cut

end ChuckLayout
