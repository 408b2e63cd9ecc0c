import ChuckLayout.Literal.Table
import ChuckLayout.Text.Blank

/-!
# Revealing literals

Every placeholder-shaped name in a text is looked up as it stands there, and what is put in its
place is not looked at again.  Names that the table does not know stay.
-/

namespace ChuckLayout.LiteralTable

open Placeholder (Chunk chunks)

def revealChunk (table : LiteralTable) : Chunk → List Char
  | .plain char => [char]
  | .named name => (table.valueOf? name).getD name

def substitute (table : LiteralTable) (text : List Char) : List Char :=
  (chunks text).flatMap table.revealChunk

/-- The text with its literals put back, trimmed. -/
def reveal (table : LiteralTable) (text : List Char) : List Char :=
  Blank.trim (table.substitute text)

end ChuckLayout.LiteralTable
