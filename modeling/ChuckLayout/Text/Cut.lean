/-!
# Cutting a text into pieces

A rule says what the leading piece of a text that is not empty is; a text is cut by applying the
rule again and again.  When every leading piece is a front of its text, and not empty, the pieces
laid end to end are the text: nothing is lost and nothing is added.
-/

namespace ChuckLayout.Cut

variable {Piece : Type}

/-- Cuts a text by the rule `leading`, where `covered` is the text that a piece stands for. -/
def cut (leading : Char → List Char → Piece) (covered : Piece → List Char) :
    List Char → List Piece
  | [] => []
  | char :: rest =>
      let piece := leading char rest
      piece :: cut leading covered (rest.drop ((covered piece).length - 1))
termination_by text => text.length
decreasing_by
  simp only [List.length_drop, List.length_cons]
  omega

/-- Every leading piece is a front of its text, and not empty. -/
def IsFront (leading : Char → List Char → Piece) (covered : Piece → List Char) : Prop :=
  ∀ char rest, covered (leading char rest) ≠ [] ∧ covered (leading char rest) <+: char :: rest

variable {leading : Char → List Char → Piece} {covered : Piece → List Char}

theorem cut_nil : cut leading covered [] = [] := by
  rw [cut]

theorem cut_cons (char : Char) (rest : List Char) :
    cut leading covered (char :: rest) =
      leading char rest ::
        cut leading covered (rest.drop ((covered (leading char rest)).length - 1)) := by
  rw [cut]

/-- What is left after a front is the text without it. -/
theorem front_append_drop {front rest : List Char} {char : Char}
    (hfront : front <+: char :: rest) (hne : front ≠ []) :
    front ++ rest.drop (front.length - 1) = char :: rest := by
  obtain ⟨head, tail, rfl⟩ := List.exists_cons_of_ne_nil hne
  obtain ⟨later, hlater⟩ := hfront
  rw [List.cons_append, List.cons.injEq] at hlater
  obtain ⟨rfl, rfl⟩ := hlater
  simp

theorem flatMap_cut (hfront : IsFront leading covered) (text : List Char) :
    (cut leading covered text).flatMap covered = text := by
  fun_induction cut leading covered text with
  | case1 => rfl
  | case2 char rest piece ih =>
      rw [List.flatMap_cons, ih]
      exact front_append_drop (hfront char rest).2 (hfront char rest).1

end ChuckLayout.Cut
