import ChuckLayout.Literal.Table
import Mathlib.Data.List.Basic
import Mathlib.Data.List.Infix
import Mathlib.Data.List.TakeWhile
import Mathlib.Tactic.Common

/-!
# Numbered placeholders

The placeholders of a table are numbered, so no two of its literals share one, and a placeholder
keeps its value when literals are added.  The salt is fresh: no placeholder of the table can be read
in the source that the table was made for.
-/

namespace ChuckLayout

def Word.IsWord (text : List Char) : Prop :=
  ∀ char ∈ text, Word.isWordChar char

namespace Placeholder

open Word (IsWord isWordChar)

def numbered (kind : Literal.Kind) (salt : List Char) (number : Nat) : List Char :=
  stem kind salt ++ Nat.toDigits 10 number

theorem isWordChar_of_isDigit {char : Char} (hdigit : char.isDigit) : isWordChar char := by
  simp [isWordChar, Char.isAlphanum, hdigit]

theorem isWord_append {front back : List Char} :
    IsWord (front ++ back) ↔ IsWord front ∧ IsWord back := by
  simp [IsWord, or_imp, forall_and]

theorem isWord_saltOfSize (size : Nat) : IsWord (saltOfSize size) := by
  cases size with
  | zero => simp [saltOfSize, IsWord]
  | succ size =>
      intro char hchar
      rw [saltOfSize, List.mem_cons] at hchar
      rcases hchar with rfl | hchar
      · decide
      · rw [List.eq_of_mem_replicate hchar]
        decide

theorem isWord_tag (kind : Literal.Kind) : IsWord (tag kind) := by
  cases kind <;> exact List.all_eq_true.mp (by decide)

theorem isWord_stem (kind : Literal.Kind) (size : Nat) : IsWord (stem kind (saltOfSize size)) := by
  refine isWord_append.mpr ⟨isWord_append.mpr ⟨isWord_tag kind, isWord_saltOfSize size⟩, ?_⟩
  exact List.all_eq_true.mp (by decide)

theorem isWord_numbered (kind : Literal.Kind) (size number : Nat) :
    IsWord (numbered kind (saltOfSize size) number) := by
  refine isWord_append.mpr ⟨isWord_stem kind size, ?_⟩
  intro char hchar
  exact isWordChar_of_isDigit (Nat.isDigit_of_mem_toDigits (by decide) (by decide) hchar)

theorem tag_ne_nil (kind : Literal.Kind) : tag kind ≠ [] := by
  cases kind <;> decide

theorem stem_ne_nil (kind : Literal.Kind) (salt : List Char) : stem kind salt ≠ [] := by
  simp [stem, tag_ne_nil]

theorem toDigits_injective {left right : Nat}
    (hdigits : Nat.toDigits 10 left = Nat.toDigits 10 right) : left = right := by
  have hnumber := congrArg (fun digits => Nat.ofDigitChars 10 digits 0) hdigits
  simpa only [Nat.ofDigitChars_ten_toDigits] using hnumber

theorem head?_tag_injective {kind other : Literal.Kind}
    (hhead : (tag kind).head? = (tag other).head?) : kind = other := by
  revert hhead
  cases kind <;> cases other <;> decide

theorem head?_stem (kind : Literal.Kind) (salt : List Char) :
    (stem kind salt).head? = (tag kind).head? := by
  cases kind <;> rfl

/-- A placeholder tells its kind and its number. -/
theorem numbered_injective {kind other : Literal.Kind} {salt : List Char} {left right : Nat}
    (heq : numbered kind salt left = numbered other salt right) : kind = other ∧ left = right := by
  have hkind : kind = other := by
    apply head?_tag_injective
    have hhead := congrArg List.head? heq
    rwa [numbered, numbered, List.head?_append_of_ne_nil _ (stem_ne_nil kind salt),
      List.head?_append_of_ne_nil _ (stem_ne_nil other salt), head?_stem, head?_stem] at hhead
  subst hkind
  exact ⟨rfl, toDigits_injective (List.append_cancel_left heq)⟩

/-! ## Numbered placeholders are names -/

theorem find?_tag (kind : Literal.Kind) (rest : List Char) :
    (Literal.Kind.all.find? fun other => (tag other).isPrefixOf (tag kind ++ rest)) = some kind := by
  cases kind <;> rfl

theorem leadingSalt_saltOfSize (size : Nat) (rest : List Char) :
    leadingSalt (saltOfSize size ++ ("_LITERAL_".toList ++ rest)) = saltOfSize size := by
  cases size with
  | zero => rfl
  | succ size =>
      simp only [saltOfSize, List.replicate_succ, List.cons_append, leadingSalt]
      rw [List.takeWhile_append_of_pos (by simp [List.mem_replicate])]
      simp

/-- A placeholder is read back in full where its word ends. -/
theorem leadingName?_numbered (kind : Literal.Kind) (size number : Nat) (rest : List Char)
    (hrest : rest.head?.all fun char => !isWordChar char) :
    leadingName? (numbered kind (saltOfSize size) number ++ rest) =
      some (numbered kind (saltOfSize size) number) := by
  have htext : numbered kind (saltOfSize size) number ++ rest =
      tag kind ++ (saltOfSize size ++
        ("_LITERAL_".toList ++ (Nat.toDigits 10 number ++ rest))) := by
    simp [numbered, stem]
  have hdigits : (Nat.toDigits 10 number ++ rest).takeWhile Char.isDigit =
      Nat.toDigits 10 number := by
    rw [List.takeWhile_append_of_pos
      fun char hchar => Nat.isDigit_of_mem_toDigits (by decide) (by decide) hchar]
    cases rest with
    | nil => simp
    | cons char rest =>
        have hdigit : char.isDigit = false := by
          by_contra hdigit
          simp only [Bool.not_eq_false] at hdigit
          simp [isWordChar_of_isDigit hdigit] at hrest
        simp [hdigit]
  have hfront : (numbered kind (saltOfSize size) number ++ rest).drop
      (stem kind (saltOfSize size)).length = Nat.toDigits 10 number ++ rest := by
    rw [numbered, List.append_assoc, List.drop_left]
  rw [leadingName?, htext, find?_tag, ← htext]
  have hsalt : leadingSalt ((numbered kind (saltOfSize size) number ++ rest).drop
      (tag kind).length) = saltOfSize size := by
    rw [htext, List.drop_left, leadingSalt_saltOfSize]
  simp only [hsalt, hfront, hdigits]
  have hstarts : (stem kind (saltOfSize size)).isPrefixOf
      (numbered kind (saltOfSize size) number ++ rest) := by
    rw [List.isPrefixOf_iff_prefix, numbered, List.append_assoc]
    exact List.prefix_append _ _
  rw [hstarts]
  simp [Nat.toDigits_ne_nil, numbered]

theorem isName_numbered (kind : Literal.Kind) (size number : Nat) :
    isName (numbered kind (saltOfSize size) number) := by
  have hname := leadingName?_numbered kind size number [] rfl
  rw [List.append_nil] at hname
  simp [isName, hname]

/-- No placeholder with this salt can be read in the text. -/
def IsUnused (salt text : List Char) : Prop :=
  ∀ kind, ¬stem kind salt <:+: text

theorem IsUnused.of_isInfix {salt text part : List Char} (hunused : IsUnused salt text)
    (hpart : part <:+: text) : IsUnused salt part :=
  fun kind hstem => hunused kind (hstem.trans hpart)

end Placeholder

theorem Search.occursIn_iff_isInfix {pattern text : List Char} :
    Search.occursIn pattern text ↔ pattern <:+: text := by
  induction text with
  | nil => simp [Search.occursIn]
  | cons char rest ih =>
      rw [Search.occursIn, Bool.or_eq_true, ih, List.isPrefixOf_iff_prefix, List.infix_cons_iff]

namespace LiteralTable

open Placeholder (numbered numbered_injective IsUnused)

/-! ## The salt -/

theorem not_clashes_freshSaltFrom (source : List Char) (size : Nat) :
    clashes source (freshSaltFrom source size) = false := by
  fun_induction freshSaltFrom source size with
  | case1 size _ ih => exact ih
  | case2 size hclear => simpa using hclear

theorem isUnused_forSource (source : List Char) :
    IsUnused (forSource source).salt source := by
  intro kind hstem
  have hclear := not_clashes_freshSaltFrom source 0
  rw [clashes, List.any_eq_false] at hclear
  exact hclear kind (Literal.Kind.mem_all kind) (Search.occursIn_iff_isInfix.mpr hstem)

/-! ## The literals -/

def IsNumbered (table : LiteralTable) : Prop :=
  ∀ literal ∈ table.literals, ∃ number ≤ table.count literal.kind,
    literal.placeholder = numbered literal.kind table.salt number

def Knows (table : LiteralTable) (name value : List Char) : Prop :=
  table.valueOf? name = some value

variable {table : LiteralTable} {name value : List Char}

theorem isNumbered_forSource (source : List Char) : (forSource source).IsNumbered := by
  simp [IsNumbered, forSource]

theorem count_add (kind other : Literal.Kind) (start : Nat) :
    (table.add kind start value).count other =
      table.count other + if kind = other then 1 else 0 := by
  simp only [count, add, List.countP_append, List.countP_singleton, decide_eq_true_eq]

/-- A literal that is added takes the next number of its kind. -/
theorem IsNumbered.add (hnumbered : table.IsNumbered) (kind : Literal.Kind) (start : Nat)
    (value : List Char) : (table.add kind start value).IsNumbered := by
  intro literal hliteral
  rw [count_add]
  rw [LiteralTable.add, List.mem_append, List.mem_singleton] at hliteral
  rcases hliteral with hliteral | rfl
  · obtain ⟨number, hnumber, hplaceholder⟩ := hnumbered literal hliteral
    exact ⟨number, by omega, hplaceholder⟩
  · exact ⟨table.count kind + 1, by simp, rfl⟩

/-- The table knows the numbers that it has counted, and no other names. -/
theorem IsNumbered.exists_of_knows (hnumbered : table.IsNumbered) (hknows : table.Knows name value) :
    ∃ kind number, number ≤ table.count kind ∧ name = numbered kind table.salt number := by
  obtain ⟨literal, hfound, -⟩ := Option.map_eq_some_iff.mp hknows
  obtain ⟨number, hnumber, hplaceholder⟩ := hnumbered literal (List.mem_of_find?_eq_some hfound)
  have hname := List.find?_some hfound
  rw [decide_eq_true_eq] at hname
  exact ⟨literal.kind, number, hnumber, by rw [← hplaceholder, hname]⟩

theorem Knows.add (hknows : table.Knows name value) (kind : Literal.Kind) (start : Nat)
    (added : List Char) : (table.add kind start added).Knows name value := by
  obtain ⟨literal, hfound, hvalue⟩ := Option.map_eq_some_iff.mp hknows
  rw [Knows, valueOf?, LiteralTable.add, List.find?_append, hfound]
  simp [hvalue]

/-- A literal that has been added is found behind its placeholder. -/
theorem IsNumbered.knows_nextPlaceholder (hnumbered : table.IsNumbered) (kind : Literal.Kind)
    (start : Nat) (value : List Char) :
    (table.add kind start value).Knows (table.nextPlaceholder kind) value := by
  cases hvalue : table.valueOf? (table.nextPlaceholder kind) with
  | some old =>
      obtain ⟨other, number, hnumber, hname⟩ := hnumbered.exists_of_knows hvalue
      obtain ⟨rfl, rfl⟩ := numbered_injective hname
      omega
  | none =>
      rw [valueOf?, Option.map_eq_none_iff] at hvalue
      rw [Knows, valueOf?, LiteralTable.add, List.find?_append, hvalue]
      simp

theorem isIssued_iff : table.isIssued name ↔ ∃ value, table.Knows name value :=
  Option.isSome_iff_exists

theorem IsNumbered.isIssued_eq_false (hnumbered : table.IsNumbered)
    (hunused : IsUnused table.salt name) : table.isIssued name = false := by
  rw [Bool.eq_false_iff, ne_eq, isIssued_iff]
  rintro ⟨value, hknows⟩
  obtain ⟨kind, number, -, rfl⟩ := hnumbered.exists_of_knows hknows
  exact hunused kind (List.prefix_append _ _).isInfix

end LiteralTable

end ChuckLayout
