import ChuckLayout.Literal.Placeholder
import ChuckLayout.Text.Search
import ChuckLayout.Text.Units

/-!
# The table of literals of one document

Literals are numbered per kind in the order in which they are found.  A table made for a source
has the smallest salt under which no placeholder of the table can occur in that source, so a
placeholder of the table in a masked text always stands for a literal.
-/

namespace ChuckLayout

structure LiteralTable where
  saltSize : Nat := 0
  literals : List Literal := []
  deriving DecidableEq, Repr

namespace LiteralTable

open Placeholder (saltOfSize stem)

/-- A placeholder with a salt of this size could be mistaken for a part of `source`. -/
def clashes (source : List Char) (size : Nat) : Bool :=
  Literal.Kind.all.any fun kind => Search.occursIn (stem kind (saltOfSize size)) source

theorem le_length_of_clashes {source : List Char} {size : Nat} (hclash : clashes source size) :
    size ≤ source.length := by
  obtain ⟨kind, -, hoccurs⟩ := List.any_eq_true.mp hclash
  have hlength := Search.length_le_of_occursIn hoccurs
  have hsalt : size ≤ (saltOfSize size).length := by
    cases size <;> simp [saltOfSize]
  simp only [stem, List.length_append] at hlength
  omega

/-- The smallest size from `size` on that does not clash with `source`. -/
def freshSaltFrom (source : List Char) (size : Nat) : Nat :=
  if hclash : clashes source size then freshSaltFrom source (size + 1) else size
termination_by source.length + 1 - size
decreasing_by
  have := le_length_of_clashes hclash
  omega

def forSource (source : List Char) : LiteralTable where
  saltSize := freshSaltFrom source 0

def salt (table : LiteralTable) : List Char :=
  saltOfSize table.saltSize

def count (table : LiteralTable) (kind : Literal.Kind) : Nat :=
  table.literals.countP fun literal => literal.kind = kind

/-- The placeholder that the next literal of `kind` will get. -/
def nextPlaceholder (table : LiteralTable) (kind : Literal.Kind) : List Char :=
  stem kind table.salt ++ Nat.toDigits 10 (table.count kind + 1)

/-- Adds a literal under `table.nextPlaceholder kind`. -/
def add (table : LiteralTable) (kind : Literal.Kind) (start : Nat) (value : List Char) :
    LiteralTable :=
  { table with
    literals := table.literals ++
      [{ kind, start, length := Units.utf8Length value, value,
         placeholder := table.nextPlaceholder kind }] }

/-- The value behind a placeholder of this table. -/
def valueOf? (table : LiteralTable) (placeholder : List Char) : Option (List Char) :=
  (table.literals.find? fun literal => literal.placeholder = placeholder).map Literal.value

/-- The table has handed out this placeholder. -/
def isIssued (table : LiteralTable) (placeholder : List Char) : Bool :=
  (table.valueOf? placeholder).isSome

end LiteralTable

end ChuckLayout
