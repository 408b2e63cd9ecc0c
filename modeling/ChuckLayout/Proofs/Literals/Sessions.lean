import ChuckLayout.Proofs.Literals.Placement
import Mathlib.Logic.Function.Basic

/-!
# Sessions on a table of literals

A session does any number of things with one table: it masks texts, adds literals and lexes.
Whatever it does comes down to adding literals, so what one addition keeps holds of the table at any
time.  Main statement: the placeholders of each kind are numbered from one on, and each leads to its
literal and to no other, also for a table that keeps counters and an index so as not to search its
literals.
-/

namespace ChuckLayout

open Placeholder (numbered stem)

namespace LiteralTable

/-- What can be done with a table.  Whatever is looked for in a text, what is found is added literal
by literal, so `add` also stands for masking by openers and closers that a rule does not allow. -/
inductive Action where
  | mask (rule : RegionRule) (text : List Char)
  | add (kind : Literal.Kind) (start : Nat) (value : List Char)
  | lexLine (line : List Char)
  | lex (masked : List Char)

def act (table : LiteralTable) : Action → LiteralTable
  | .mask rule text => (table.mask rule text).table
  | .add kind start value => table.add kind start value
  | .lexLine line => (Line.lexemes table line).table
  | .lex masked => (table.lex masked).table

/-- The table that a session leaves. -/
def runSession (table : LiteralTable) (actions : List Action) : LiteralTable :=
  actions.foldl act table

/-- The table that a session begins with, made for a source or for none. -/
def opened (source : Option (List Char)) : LiteralTable :=
  source.elim {} forSource

/-- The later table comes from the earlier one by adding literals, one after the other. -/
inductive Grows (earlier : LiteralTable) : LiteralTable → Prop where
  | refl : Grows earlier earlier
  | add {later : LiteralTable} (hgrows : Grows earlier later) (kind : Literal.Kind) (start : Nat)
      (value : List Char) : Grows earlier (later.add kind start value)

/-! ## Every action adds literals -/

theorem Grows.trans {first second third : LiteralTable} (hfirst : Grows first second)
    (hsecond : Grows second third) : Grows first third := by
  induction hsecond with
  | refl => exact hfirst
  | add _ kind start value ih => exact ih.add kind start value

theorem grows_maskTiles (kind : Literal.Kind) (before : Option Char) (offset : Nat)
    (table : LiteralTable) (found : List Tile) :
    Grows table (maskTiles kind before offset table found).table := by
  induction found generalizing before offset table with
  | nil => exact .refl
  | cons tile rest ih =>
      cases tile with
      | region value => exact (Grows.refl.add kind offset value).trans (ih _ _ _)
      | plain char => exact ih _ _ _
      | passedOver text => exact ih _ _ _
      | openPassedOver text => exact ih _ _ _
      | openRegion text => exact ih _ _ _

theorem grows_lexemes (table : LiteralTable) (line : List Char) :
    Grows table (Line.lexemes table line).table := by
  unfold Line.lexemes
  split
  split
  · exact .refl
  · exact Grows.refl.add _ _ _

theorem grows_lexLines (table : LiteralTable) (lines : List (List Char)) :
    Grows table (table.lexLines lines).table := by
  induction lines generalizing table with
  | nil => exact .refl
  | cons line rest ih => exact (grows_lexemes table line).trans (ih _)

/-- Whatever is done with a table, literals are added to it and nothing else. -/
theorem grows_act (table : LiteralTable) (action : Action) : Grows table (table.act action) := by
  cases action with
  | mask rule text => exact grows_maskTiles rule.kind none 0 table _
  | add kind start value => exact Grows.refl.add kind start value
  | lexLine line => exact grows_lexemes table line
  | lex masked => exact grows_lexLines table _

theorem grows_runSession (table : LiteralTable) (actions : List Action) :
    Grows table (table.runSession actions) := by
  induction actions generalizing table with
  | nil => exact .refl
  | cons action rest ih => exact (grows_act table action).trans (ih _)

/-- A session can be stopped and gone on with. -/
theorem runSession_append (table : LiteralTable) (earlier later : List Action) :
    table.runSession (earlier ++ later) = (table.runSession earlier).runSession later :=
  List.foldl_append

/-! ## What adding a literal keeps -/

variable {earlier later table : LiteralTable}

/-- What holds of a table and is kept by every addition holds of all it grows to. -/
theorem Grows.keeps (holds : LiteralTable → Prop)
    (hadd : ∀ table kind start value, holds table → holds (table.add kind start value))
    (hgrows : Grows earlier later) (hearlier : holds earlier) : holds later := by
  induction hgrows with
  | refl => exact hearlier
  | add _ kind start value ih => exact hadd _ kind start value ih

/-- Literals that are in the table stay in their places. -/
theorem Grows.literals_isPrefix (hgrows : Grows earlier later) :
    earlier.literals <+: later.literals :=
  hgrows.keeps (fun table => earlier.literals <+: table.literals)
    (fun _ _ _ _ hfront => hfront.trans (List.prefix_append _ _)) (List.prefix_refl _)

theorem Grows.saltSize_eq (hgrows : Grows earlier later) : later.saltSize = earlier.saltSize :=
  hgrows.keeps (fun table => table.saltSize = earlier.saltSize)
    (fun _ _ _ _ hsalt => hsalt) rfl

theorem Grows.salt_eq (hgrows : Grows earlier later) : later.salt = earlier.salt := by
  rw [salt, salt, hgrows.saltSize_eq]

/-- The placeholders of each kind are numbered from one on, in the order of the table. -/
def IsCounted (table : LiteralTable) : Prop :=
  ∀ kind, (table.literals.filter fun literal => literal.kind = kind).map Literal.placeholder =
    (List.range' 1 (table.count kind)).map (numbered kind table.salt)

theorem IsCounted.add (hcounted : table.IsCounted) (kind : Literal.Kind) (start : Nat)
    (value : List Char) : (table.add kind start value).IsCounted := by
  intro other
  have hsalt : (table.add kind start value).salt = table.salt := rfl
  rw [count_add, hsalt, LiteralTable.add, List.filter_append, List.map_append, hcounted other]
  by_cases hkind : kind = other
  · subst hkind
    rw [if_pos rfl, List.range'_concat, List.map_append]
    simp [nextPlaceholder, numbered, Nat.add_comm]
  · simp [hkind]

/-- The length of every literal is that of its value, in bytes. -/
def IsMeasured (table : LiteralTable) : Prop :=
  ∀ literal ∈ table.literals, literal.length = Units.utf8Length literal.value

theorem IsMeasured.add (hmeasured : table.IsMeasured) (kind : Literal.Kind) (start : Nat)
    (value : List Char) : (table.add kind start value).IsMeasured := by
  intro literal hliteral
  rcases List.mem_append.mp hliteral with hliteral | hliteral
  · exact hmeasured literal hliteral
  · rw [List.mem_singleton.mp hliteral]

/-- Looking up a placeholder finds the value of the one literal that has it. -/
theorem IsDistinct.valueOf?_eq_some_iff (hdistinct : table.IsDistinct) {name value : List Char} :
    table.valueOf? name = some value ↔
      ∃ literal ∈ table.literals, literal.placeholder = name ∧ literal.value = value := by
  constructor
  · intro hvalue
    obtain ⟨literal, hfound, hvalue⟩ := Option.map_eq_some_iff.mp hvalue
    have hname := List.find?_some hfound
    exact ⟨literal, List.mem_of_find?_eq_some hfound, of_decide_eq_true hname, hvalue⟩
  · rintro ⟨literal, hliteral, rfl, rfl⟩
    exact hdistinct.knows hliteral

/-- A placeholder that is added leads to its value, and every other name to where it led before. -/
theorem IsNumbered.valueOf?_add (hnumbered : table.IsNumbered) (kind : Literal.Kind) (start : Nat)
    (value name : List Char) :
    (table.add kind start value).valueOf? name =
      if name = table.nextPlaceholder kind then some value else table.valueOf? name := by
  by_cases hname : name = table.nextPlaceholder kind
  · rw [if_pos hname, hname]
    exact hnumbered.knows_nextPlaceholder kind start value
  · rw [if_neg hname, valueOf?, valueOf?, LiteralTable.add, List.find?_append,
      List.find?_cons_of_neg (by simpa using Ne.symm hname), List.find?_nil, Option.or_none]

/-! ## Counters and an index -/

/-- A table that keeps how many literals of each kind it has and where in the list the literal of a
placeholder stands. -/
structure Indexed where
  saltSize : Nat
  literals : List Literal := []
  counts : Literal.Kind → Nat := fun _ => 0
  places : List Char → Option Nat := fun _ => none

namespace Indexed

/-- Adds a literal under the next placeholder that the counters give. -/
def add (indexed : Indexed) (kind : Literal.Kind) (start : Nat) (value : List Char) : Indexed :=
  let number := indexed.counts kind + 1
  let placeholder := numbered kind (Placeholder.saltOfSize indexed.saltSize) number
  { indexed with
    counts := Function.update indexed.counts kind number
    places := Function.update indexed.places placeholder (some indexed.literals.length)
    literals := indexed.literals ++
      [{ kind, start, length := Units.utf8Length value, value, placeholder }] }

/-- The value of the literal at the place of a placeholder. -/
def valueOf? (indexed : Indexed) (name : List Char) : Option (List Char) :=
  (indexed.places name).bind fun place => indexed.literals[place]?.map Literal.value

end Indexed

/-- The literals of the table, added one by one to an empty table with an index. -/
def indexed (table : LiteralTable) : Indexed :=
  table.literals.foldl (fun indexed literal => indexed.add literal.kind literal.start literal.value)
    { saltSize := table.saltSize }

/-- Counters and index tell of the literals what the table tells. -/
structure Indexed.Mirrors (indexed : Indexed) (table : LiteralTable) : Prop where
  saltSize : indexed.saltSize = table.saltSize
  literals : indexed.literals = table.literals
  counts : ∀ kind, indexed.counts kind = table.count kind
  places : ∀ name place, indexed.places name = some place → place < indexed.literals.length
  values : ∀ name, indexed.valueOf? name = table.valueOf? name

/-- The index can be kept while literals are added. -/
theorem indexed_add (kind : Literal.Kind) (start : Nat) (value : List Char) :
    (table.add kind start value).indexed = table.indexed.add kind start value := by
  rw [indexed, LiteralTable.add, List.foldl_append]
  rfl

theorem Indexed.valueOf?_add {indexed : Indexed}
    (hplaces : ∀ name place, indexed.places name = some place → place < indexed.literals.length)
    (kind : Literal.Kind) (start : Nat) (value name : List Char) :
    (indexed.add kind start value).valueOf? name =
      if name = numbered kind (Placeholder.saltOfSize indexed.saltSize) (indexed.counts kind + 1)
      then some value else indexed.valueOf? name := by
  rw [valueOf?, Indexed.add]
  dsimp only
  split
  · rename_i hname
    rw [hname, Function.update_self]
    simp
  · rename_i hname
    rw [Function.update_of_ne hname, valueOf?]
    cases hplace : indexed.places name with
    | none => rfl
    | some place =>
        rw [Option.bind_some, Option.bind_some, List.getElem?_append_left (hplaces name place hplace)]

/-- Keeping the counters and the index leads to the same answers as searching the list anew. -/
theorem Indexed.Mirrors.add {indexed : Indexed} (hmirrors : indexed.Mirrors table)
    (hnumbered : table.IsNumbered) (kind : Literal.Kind) (start : Nat) (value : List Char) :
    (indexed.add kind start value).Mirrors (table.add kind start value) := by
  have hname : numbered kind (Placeholder.saltOfSize indexed.saltSize) (indexed.counts kind + 1) =
      table.nextPlaceholder kind := by
    rw [hmirrors.saltSize, hmirrors.counts]
    rfl
  constructor
  · exact hmirrors.saltSize
  · rw [Indexed.add, LiteralTable.add, hname, hmirrors.literals]
  · intro other
    rw [count_add, Indexed.add, ← hmirrors.counts]
    by_cases hkind : other = kind
    · rw [hkind, if_pos rfl]
      exact Function.update_self ..
    · rw [if_neg (Ne.symm hkind)]
      exact Function.update_of_ne hkind ..
  · intro name place hplace
    have hlength : (indexed.add kind start value).literals.length = indexed.literals.length + 1 :=
      List.length_append
    rw [hlength]
    simp only [Indexed.add, Function.update_apply] at hplace
    split at hplace
    · have := Option.some.inj hplace
      omega
    · have := hmirrors.places name place hplace
      omega
  · intro name
    rw [Indexed.valueOf?_add hmirrors.places, hname, hnumbered.valueOf?_add, hmirrors.values]

/-! ## A session -/

/-- What holds of a table at any time of a session. -/
structure IsKept (table : LiteralTable) : Prop where
  distinct : table.IsDistinct
  counted : table.IsCounted
  measured : table.IsMeasured
  mirrored : table.indexed.Mirrors table

theorem IsKept.add (hkept : table.IsKept) (kind : Literal.Kind) (start : Nat) (value : List Char) :
    (table.add kind start value).IsKept where
  distinct := hkept.distinct.add kind start value
  counted := hkept.counted.add kind start value
  measured := hkept.measured.add kind start value
  mirrored := by
    rw [indexed_add]
    exact hkept.mirrored.add hkept.distinct.numbered kind start value

/-- A table without literals has nothing to keep. -/
theorem isKept_of_literals_eq_nil (hliterals : table.literals = []) : table.IsKept where
  distinct := ⟨by simp [IsNumbered, hliterals], by simp [names, hliterals]⟩
  counted := by simp [IsCounted, count, hliterals]
  measured := by simp [IsMeasured, hliterals]
  mirrored := by
    refine ⟨?_, ?_, ?_, ?_, ?_⟩ <;>
      simp [indexed, hliterals, count, Indexed.valueOf?, valueOf?]

theorem literals_opened (source : Option (List Char)) : (opened source).literals = [] := by
  cases source <;> rfl

/-- The invariant holds at the start and is kept by every addition, so it holds after every
session. -/
theorem isKept_runSession (source : Option (List Char)) (actions : List Action) :
    ((opened source).runSession actions).IsKept :=
  (grows_runSession _ actions).keeps IsKept
    (fun _ kind start value hkept => hkept.add kind start value)
    (isKept_of_literals_eq_nil (literals_opened source))

/-- At any time of a session literals have only been appended to those of any earlier time, under one
salt; those of a kind have the numbers from one on, no two literals share a placeholder, lengths are
those of the values, and a name leads to a value just when it is the placeholder of a literal with
that value.  Counters and an index that are kept along with the literals say the same. -/
theorem session_keeps_table (source : Option (List Char)) (earlier later : List Action) :
    let table := (opened source).runSession (earlier ++ later)
    ((opened source).runSession earlier).literals <+: table.literals ∧
    table.salt = (opened source).salt ∧
    (∀ kind, (table.literals.filter fun literal => literal.kind = kind).map Literal.placeholder =
      (List.range' 1 (table.count kind)).map fun number =>
        stem kind table.salt ++ Nat.toDigits 10 number) ∧
    (table.literals.map Literal.placeholder).Nodup ∧
    (∀ literal ∈ table.literals, literal.length = Units.utf8Length literal.value) ∧
    (∀ name value, table.valueOf? name = some value ↔
      ∃ literal ∈ table.literals, literal.placeholder = name ∧ literal.value = value) ∧
    table.indexed.literals = table.literals ∧
    (∀ kind, table.indexed.counts kind = table.count kind) ∧
    ∀ name, table.indexed.valueOf? name = table.valueOf? name := by
  intro table
  have hkept : table.IsKept := isKept_runSession source (earlier ++ later)
  have hgrows : Grows ((opened source).runSession earlier) table := by
    rw [show table = ((opened source).runSession earlier).runSession later from
      runSession_append _ earlier later]
    exact grows_runSession _ later
  exact ⟨hgrows.literals_isPrefix, (grows_runSession _ _).salt_eq, hkept.counted,
    hkept.distinct.nodup, hkept.measured, fun _ _ => hkept.distinct.valueOf?_eq_some_iff,
    hkept.mirrored.literals, hkept.mirrored.counts, hkept.mirrored.values⟩

end LiteralTable

end ChuckLayout
