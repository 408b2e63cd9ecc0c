import ChuckLayout.Proofs.Literals.Sessions
import Mathlib.Logic.Relation

/-!
# The salt of a source

A salt is lengthened for as long as some placeholder with it could be read in the source.  This ends,
for no placeholder is read in a text that is shorter than it, and it ends at the shortest salt that
will do.  A table keeps its salt, so no placeholder that it ever hands out can be read in the source.
-/

namespace ChuckLayout

open Placeholder (IsUnused numbered saltOfSize stem)

namespace Placeholder

/-- Nothing, or an underscore and one or more letters. -/
def IsSalt (salt : List Char) : Prop :=
  salt = [] ∨ ∃ count, salt = '_' :: List.replicate (count + 1) 'X'

/-- A salt with which a stem occurs in the source gives way to the next longer one. -/
def Lengthens (source salt longer : List Char) : Prop :=
  (∃ kind, stem kind salt <:+: source) ∧
    longer = (if salt = [] then ['_'] else salt) ++ ['X']

theorem isSalt_iff {salt : List Char} : IsSalt salt ↔ ∃ size, salt = saltOfSize size := by
  constructor
  · rintro (rfl | ⟨count, rfl⟩)
    · exact ⟨0, rfl⟩
    · exact ⟨count + 1, rfl⟩
  · rintro ⟨size, rfl⟩
    cases size with
    | zero => exact Or.inl rfl
    | succ count => exact Or.inr ⟨count, rfl⟩

/-- The sizes are the steps of lengthening. -/
theorem saltOfSize_succ (size : Nat) :
    saltOfSize (size + 1) = (if saltOfSize size = [] then ['_'] else saltOfSize size) ++ ['X'] := by
  cases size with
  | zero => rfl
  | succ size =>
      have hne : saltOfSize (size + 1) ≠ [] := List.cons_ne_nil _ _
      rw [if_neg hne, saltOfSize, saltOfSize, List.replicate_succ', List.cons_append]

theorem length_saltOfSize_mono {small large : Nat} (hsize : small ≤ large) :
    (saltOfSize small).length ≤ (saltOfSize large).length := by
  cases small with
  | zero => exact Nat.zero_le _
  | succ small =>
      cases large with
      | zero => omega
      | succ large => simpa [saltOfSize] using hsize

end Placeholder

namespace LiteralTable

open Placeholder (IsSalt Lengthens isSalt_iff saltOfSize_succ length_saltOfSize_mono)

/-- A salt clashes with a source when one of its stems occurs there. -/
theorem clashes_iff {source : List Char} {size : Nat} :
    clashes source size ↔ ∃ kind, stem kind (saltOfSize size) <:+: source := by
  rw [clashes, List.any_eq_true]
  constructor
  · rintro ⟨kind, -, hoccurs⟩
    exact ⟨kind, Search.occursIn_iff_isInfix.mp hoccurs⟩
  · rintro ⟨kind, hinfix⟩
    exact ⟨kind, Literal.Kind.mem_all kind, Search.occursIn_iff_isInfix.mpr hinfix⟩

/-- Lengthening leads from a size to the one that is found from there. -/
theorem reaches_freshSaltFrom (source : List Char) (size : Nat) :
    Relation.ReflTransGen (Lengthens source) (saltOfSize size)
      (saltOfSize (freshSaltFrom source size)) := by
  fun_induction freshSaltFrom source size with
  | case1 size hclash ih => exact ih.head ⟨clashes_iff.mp hclash, saltOfSize_succ size⟩
  | case2 size hclear => exact .refl

/-- Every size that is passed over clashes. -/
theorem clashes_of_lt_freshSaltFrom {source : List Char} {first size : Nat} (hfrom : first ≤ size)
    (hlt : size < freshSaltFrom source first) : clashes source size := by
  fun_induction freshSaltFrom source first with
  | case1 first hclash ih =>
      rcases Nat.eq_or_lt_of_le hfrom with rfl | hlater
      · exact hclash
      · exact ih hlater hlt
  | case2 first hclear => omega

/-- A salt that clashes is shorter than the source by a tag at least, so the next one still fits. -/
theorem length_salt_le_of_clashes {source : List Char} {size : Nat} (hclash : clashes source size) :
    (saltOfSize (size + 1)).length ≤ source.length := by
  obtain ⟨kind, hinfix⟩ := clashes_iff.mp hclash
  have hlength := hinfix.length_le
  have hnext : (saltOfSize (size + 1)).length ≤ (saltOfSize size).length + 2 := by
    rw [saltOfSize_succ]
    split <;> simp
  simp only [stem, List.length_append, String.reduceToList, List.length_cons, List.length_nil]
    at hlength
  omega

/-- The search for a salt ends within the length of the source. -/
theorem length_salt_forSource_le (source : List Char) :
    (forSource source).salt.length ≤ source.length := by
  rw [salt, forSource]
  cases hsize : freshSaltFrom source 0 with
  | zero => exact Nat.zero_le _
  | succ size =>
      exact length_salt_le_of_clashes (clashes_of_lt_freshSaltFrom (Nat.zero_le size) (by omega))

/-- No longer salt is taken than is needed. -/
theorem length_salt_forSource_le_of_isUnused {source salt : List Char} (hsalt : IsSalt salt)
    (hunused : IsUnused salt source) : (forSource source).salt.length ≤ salt.length := by
  obtain ⟨size, rfl⟩ := isSalt_iff.mp hsalt
  refine length_saltOfSize_mono (Nat.le_of_not_lt fun hlt => ?_)
  obtain ⟨kind, hinfix⟩ := clashes_iff.mp (clashes_of_lt_freshSaltFrom (Nat.zero_le size) hlt)
  exact hunused kind hinfix

/-- Lengthening the empty salt comes to an end within the length of the source, at the salt of the
table made for it: the shortest of all salts with which no stem occurs in the source.  Whatever a
session then does with the table, no placeholder that it has handed out, would hand out next or could
hand out at all occurs in the source. -/
theorem salt_forSource_fresh (source : List Char) :
    (Relation.ReflTransGen (Lengthens source) [] (forSource source).salt ∧
      (∀ longer, ¬Lengthens source (forSource source).salt longer) ∧
      (forSource source).salt.length ≤ source.length) ∧
    IsSalt (forSource source).salt ∧ (∀ kind, ¬stem kind (forSource source).salt <:+: source) ∧
    (∀ salt, IsSalt salt → (∀ kind, ¬stem kind salt <:+: source) →
      (forSource source).salt.length ≤ salt.length) ∧
    ∀ actions,
      let table := (forSource source).runSession actions
      (∀ literal ∈ table.literals, ¬literal.placeholder <:+: source) ∧
      (∀ kind, ¬table.nextPlaceholder kind <:+: source) ∧
      ∀ kind number, ¬numbered kind table.salt number <:+: source := by
  have hunused : IsUnused (forSource source).salt source := isUnused_forSource source
  refine ⟨⟨reaches_freshSaltFrom source 0, ?_, length_salt_forSource_le source⟩,
    isSalt_iff.mpr ⟨_, rfl⟩, hunused,
    fun _ => length_salt_forSource_le_of_isUnused, fun actions => ?_⟩
  · rintro longer ⟨⟨kind, hinfix⟩, -⟩
    exact hunused kind hinfix
  intro table
  have hnumber : ∀ kind number, ¬numbered kind table.salt number <:+: source := by
    intro kind number hinfix
    rw [(grows_runSession _ actions).salt_eq] at hinfix
    exact hunused kind ((List.prefix_append _ _).isInfix.trans hinfix)
  refine ⟨fun literal hliteral => ?_, fun kind => hnumber kind _, hnumber⟩
  obtain ⟨number, -, hplaceholder⟩ :=
    (isKept_runSession (some source) actions).distinct.numbered literal hliteral
  rw [hplaceholder]
  exact hnumber literal.kind number

end LiteralTable

end ChuckLayout
