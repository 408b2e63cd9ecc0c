import ChuckLayout.Token

/-!
# Lexemes

A lexeme is a token of the stream of a whole document with the text it was written as.  Square
brackets also know the place of their partner in the stream, and an opening one the places of the
lexemes it encloses.
-/

namespace ChuckLayout

/-- The places from `start` up to, but not including, `stop`. -/
structure Enclosure where
  start : Nat
  stop : Nat
  deriving DecidableEq, Repr

/-- Empty when it stops before it starts. -/
def Enclosure.size (enclosure : Enclosure) : Nat :=
  enclosure.stop - enclosure.start

structure Lexeme where
  token : Token
  text : List Char
  /-- The place of the matching bracket. -/
  partner : Option Nat := none
  enclosed : Option Enclosure := none
  /-- Marked to be left out of the stream. -/
  dropped : Bool := false
  deriving DecidableEq, Repr

namespace Lexeme

def lineBreak : Lexeme where
  token := .newline
  text := ['\n']

/-- How many lexemes the bracket encloses; none for any other lexeme. -/
def enclosedCount (lexeme : Lexeme) : Nat :=
  (lexeme.enclosed.map Enclosure.size).getD 0

end Lexeme

end ChuckLayout
