import ChuckLayout.Document

/-!
# Edits for an editor

An editor counts lines from zero and columns in UTF-16 units, both in 32-bit words.  It gets one
edit that replaces the whole document, or none when there is nothing to change.
-/

namespace ChuckLayout.Editor

structure Position where
  line : UInt32
  character : UInt32
  deriving DecidableEq, Repr

structure Range where
  start : Position
  stop : Position
  deriving DecidableEq, Repr

structure Edit where
  range : Range
  newText : List Char
  deriving DecidableEq, Repr

/-- What follows the last line break of a text. -/
def lastLine (text : List Char) : List Char :=
  (Line.split text).getLast?.getD []

/-- From the first line to the end of the last, a carriage return at that end left out. -/
def wholeRange (text : List Char) : Range where
  start := ⟨0, 0⟩
  stop :=
    { line := (text.count '\n').toUInt32
      character := (Units.utf16Length (Line.dropReturn (lastLine text))).toUInt32 }

def edits (text : List Char) : List Edit :=
  let tidied := Document.tidy text
  if tidied = text then [] else [{ range := wholeRange text, newText := tidied }]

end ChuckLayout.Editor
