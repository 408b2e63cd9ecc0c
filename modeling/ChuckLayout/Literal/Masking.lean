import ChuckLayout.Literal.Table
import ChuckLayout.Literal.Tiling

/-!
# Masking

Each closed region of a text gives way to a fresh placeholder, and its text goes into the table.
A space keeps the placeholder apart from a word character on either side, the last digit of the
placeholder before it included.
-/

namespace ChuckLayout

/-- A text with placeholders, and the table that knows them. -/
structure Masked where
  text : List Char
  table : LiteralTable
  deriving DecidableEq, Repr

namespace LiteralTable

/-- Masks the regions among some tiles.  `before` is the last character written so far and `offset`
the number of bytes before the first tile. -/
def maskTiles (kind : Literal.Kind) (before : Option Char) (offset : Nat) :
    LiteralTable → List Tile → Masked
  | table, [] => ⟨[], table⟩
  | table, .region value :: rest =>
      let following := rest.head?.bind fun tile => tile.text.head?
      let shown := Word.separator before ++ table.nextPlaceholder kind ++ Word.separator following
      let masked := maskTiles kind shown.getLast? (offset + Units.utf8Length value)
        (table.add kind offset value) rest
      ⟨shown ++ masked.text, masked.table⟩
  | table, tile :: rest =>
      let masked := maskTiles kind (tile.text.getLast?.or before)
        (offset + Units.utf8Length tile.text) table rest
      ⟨tile.text ++ masked.text, masked.table⟩

def mask (table : LiteralTable) (rule : RegionRule) (text : List Char) : Masked :=
  table.maskTiles rule.kind none 0 (tiles rule text)

end LiteralTable

end ChuckLayout
