/-!
# Literals

String literals and comments are set aside while the code around them is laid out, and put back
as they were.
-/

namespace ChuckLayout

inductive Literal.Kind where
  | string
  | blockComment
  | lineComment
  deriving DecidableEq, Repr

/-- A region cut out of a text.  `start` and `length` count UTF-8 bytes, and `start` is relative
to the text that the region was cut from. -/
structure Literal where
  kind : Literal.Kind
  start : Nat
  length : Nat
  value : List Char
  placeholder : List Char
  deriving DecidableEq, Repr

namespace Literal.Kind

def all : List Literal.Kind :=
  [string, blockComment, lineComment]

theorem mem_all (kind : Literal.Kind) : kind ∈ all := by
  cases kind <;> decide

/-- The name under which a kind is shown. -/
def name : Literal.Kind → String
  | string => "String"
  | blockComment => "BlockComment"
  | lineComment => "LineComment"

end Literal.Kind

end ChuckLayout
