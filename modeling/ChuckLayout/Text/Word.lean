/-!
# Word characters

ASCII letters, digits and the underscore make up identifiers, keywords, numbers and placeholders.
-/

namespace ChuckLayout.Word

def isWordChar (char : Char) : Bool :=
  char.isAlphanum || char == '_'

/-- One space when `char` is there and belongs to a word, so that what is written next to it stays
a word of its own. -/
def separator (char : Option Char) : List Char :=
  if char.any isWordChar then [' '] else []

end ChuckLayout.Word
