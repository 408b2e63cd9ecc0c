import ChuckLayout.Layout.Spacing
import ChuckLayout.Lexeme.Line
import ChuckLayout.Literal.Reveal
import ChuckLayout.Notice

/-!
# Documents

A document is laid out in stages.  Strings are masked before block comments, so a comment mark in a
string opens nothing; line comments are masked line by line.  The stream of lexemes is written with
new spacing, indented, and its literals are revealed.  The user's tokens, and the blank lines that
touch no brace, stay as they are.
-/

namespace ChuckLayout.Document

/-- The source with its strings masked. -/
def maskStrings (source : List Char) : Masked :=
  (LiteralTable.forSource source).mask .string source

/-- The source with its strings and block comments masked. -/
def mask (source : List Char) : Masked :=
  let strings := maskStrings source
  strings.table.mask .blockComment strings.text

/-- The lexemes of the source before any pass, with the table of all its literals. -/
def lex (source : List Char) : Lexed :=
  let masked := mask source
  masked.table.lex masked.text

/-- The lexemes of the source after every pass. -/
def stream (source : List Char) : List Lexeme :=
  Pass.applyAll (lex source).lexemes

/-- The text of a stream, spaced and indented. -/
def layOut (stream : List Lexeme) : List Char :=
  Nesting.indent (Spacing.render stream)

/-- The formatted source. -/
def tidy (source : List Char) : List Char :=
  let lexed := lex source
  lexed.table.reveal (layOut (Pass.applyAll lexed.lexemes))

/-- Formatting would change the source. -/
def isUntidy (source : List Char) : Bool :=
  tidy source != source

/-- The notices of formatting the source, in the order of the stages. -/
def notices (source : List Char) : List Notice :=
  let lexed := lex source
  Notice.ofMasking .string source ++
    Notice.ofMasking .blockComment (maskStrings source).text ++
    [.lexed lexed.lexemes.length lexed.table.literals.length] ++
    Notice.ofPasses lexed.lexemes Pass.all ++
    Notice.ofIndenting (Spacing.render (Pass.applyAll lexed.lexemes))

end ChuckLayout.Document
