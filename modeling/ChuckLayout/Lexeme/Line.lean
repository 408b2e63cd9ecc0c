import ChuckLayout.Lexeme
import ChuckLayout.Literal.Table
import ChuckLayout.Text.Blank
import ChuckLayout.Text.Line
import ChuckLayout.Token.Scan

/-!
# The lexemes of a line

A line is its code, then perhaps a line comment, which goes into the table of literals.  Words,
stray characters and placeholders that the table never issued are raw text: what stands between two
other tokens becomes one lexeme, with the gaps inside it kept and those around it trimmed.  Every
line ends in a line break lexeme, so the stream carries the blank lines of the document.
-/

namespace ChuckLayout

/-- The lexemes read so far, and the table with the comments met on the way. -/
structure Lexed where
  lexemes : List Lexeme
  table : LiteralTable
  deriving DecidableEq, Repr

namespace Line

/-- Raw text as a lexeme, if anything is left of it once it is trimmed. -/
def fragment (raw : List Char) : List Lexeme :=
  if Blank.trim raw = [] then [] else [{ token := .text, text := Blank.trim raw }]

/-- The piece is a token of its own rather than a part of raw text. -/
def standsAlone (table : LiteralTable) : Piece → Bool
  | .item .text _ => false
  | .item .placeholder name => table.isIssued name
  | .item _ _ => true
  | .gap _ | .stray _ => false

/-- The lexemes of `pieces`, where `raw` is the raw text pending before them. -/
def codeLexemes (table : LiteralTable) (raw : List Char) : List Piece → List Lexeme
  | [] => fragment raw
  | .item token text :: rest =>
      if standsAlone table (.item token text) then
        fragment raw ++ { token, text } :: codeLexemes table [] rest
      else codeLexemes table (raw ++ text) rest
  | piece :: rest => codeLexemes table (raw ++ piece.text) rest

/-- The code of a line and its line comment, if it has one.  The comment ends before the blanks at
the end of the line. -/
def splitComment (line : List Char) : List Char × Option (List Char) :=
  match Search.splitBefore? "//".toList line with
  | some (code, comment) => (code, some (Blank.trimEnd comment))
  | none => (line, none)

def lexemes (table : LiteralTable) (line : List Char) : Lexed :=
  let (code, comment) := splitComment line
  let read := codeLexemes table [] (scan code)
  match comment with
  | none => ⟨read ++ [.lineBreak], table⟩
  | some comment =>
      let placeholder : Lexeme :=
        { token := .placeholder, text := table.nextPlaceholder .lineComment }
      ⟨read ++ [placeholder, .lineBreak], table.add .lineComment (Units.utf8Length code) comment⟩

end Line

namespace LiteralTable

def lexLines (table : LiteralTable) : List (List Char) → Lexed
  | [] => ⟨[], table⟩
  | line :: rest =>
      let first := Line.lexemes table line
      let later := first.table.lexLines rest
      ⟨first.lexemes ++ later.lexemes, later.table⟩

/-- The lexemes of every line of a masked text. -/
def lex (table : LiteralTable) (masked : List Char) : Lexed :=
  table.lexLines ((Line.split masked).map Line.dropReturn)

end LiteralTable

end ChuckLayout
