import ChuckLayout.Text.Blank
import ChuckLayout.Text.Line

/-!
# Indentation by nesting

A line that is just a brace changes the depth: an opening one for the lines after it, a closing one
from itself on.  Other lines are written at the depth they are at.  The depth may fall below zero
in a text with too many closing braces, and such lines are not indented.
-/

namespace ChuckLayout.Nesting

/-- The blanks before a line at `depth`. -/
def indentation (depth : Int) : List Char :=
  List.replicate (4 * depth.toNat) ' '

/-- The depth at which a trimmed line is written, when the lines before it leave `depth`. -/
def depthOf (depth : Int) (line : List Char) : Int :=
  if line = ['\x7d'] then depth - 1 else depth

/-- The depth that a trimmed line leaves for the next. -/
def depthAfter (depth : Int) (line : List Char) : Int :=
  if line = ['\x7b'] then depth + 1 else if line = ['\x7d'] then depth - 1 else depth

def indentLines (depth : Int) : List (List Char) → List (List Char)
  | [] => []
  | line :: rest =>
      let content := Blank.trim line
      (indentation (depthOf depth content) ++ content) ::
        indentLines (depthAfter depth content) rest

def indent (text : List Char) : List Char :=
  Line.join (indentLines 0 (Line.split text))

/-- The depth after the last line; zero when the braces of the text are balanced in number. -/
def finalDepth (text : List Char) : Int :=
  ((Line.split text).map Blank.trim).foldl depthAfter 0

end ChuckLayout.Nesting
