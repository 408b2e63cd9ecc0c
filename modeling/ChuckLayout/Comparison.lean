import ChuckLayout.Text.Line

/-!
# Comparing texts line by line

Formatted texts differ mostly in blanks, so a report shows every space and tab by a visible
character.
-/

namespace ChuckLayout.Comparison

def visibleChar (char : Char) : Char :=
  if char = ' ' then '·' else if char = '\t' then '→' else char

def visible (text : List Char) : List Char :=
  text.map visibleChar

/-- How the lines with one number differ.  Numbers start at one. -/
inductive Difference where
  | changed (number : Nat) (expected actual : List Char)
  | missing (number : Nat) (expected : List Char)
  | extra (number : Nat) (actual : List Char)
  deriving DecidableEq, Repr

/-- The differences between two lists of lines that start at line `number`. -/
def differencesFrom (number : Nat) : List (List Char) → List (List Char) → List Difference
  | [], [] => []
  | expected :: expectedRest, [] =>
      .missing number expected :: differencesFrom (number + 1) expectedRest []
  | [], actual :: actualRest => .extra number actual :: differencesFrom (number + 1) [] actualRest
  | expected :: expectedRest, actual :: actualRest =>
      let later := differencesFrom (number + 1) expectedRest actualRest
      if expected = actual then later else .changed number expected actual :: later

def differences (expected actual : List Char) : List Difference :=
  differencesFrom 1 (Line.split expected) (Line.split actual)

namespace Difference

def heading (number : Nat) (note : String) : List Char :=
  "line ".toList ++ Nat.toDigits 10 number ++ ":".toList ++ note.toList

def expectedLine (line : List Char) : List Char :=
  "  - ".toList ++ visible line

def actualLine (line : List Char) : List Char :=
  "  + ".toList ++ visible line

def report : Difference → List (List Char)
  | changed number expected actual =>
      [heading number "", expectedLine expected, actualLine actual]
  | missing number expected => [heading number " missing", expectedLine expected]
  | extra number actual => [heading number " extra", actualLine actual]

end Difference

/-- The report on two texts, or nothing when they are equal. -/
def report? (expected actual : List Char) : Option (List Char) :=
  if expected = actual then none
  else some (Line.join ((differences expected actual).flatMap Difference.report))

/-- What a failed comparison says. -/
structure Mismatch where
  expectedLines : Nat
  actualLines : Nat
  report : List Char
  deriving DecidableEq, Repr

def Mismatch.message (mismatch : Mismatch) : String :=
  s!"\n\nformatted text differs ({mismatch.expectedLines} expected lines, " ++
    s!"{mismatch.actualLines} actual):\n" ++ String.ofList mismatch.report ++ "\n"

/-- Holds two texts to be equal. -/
def requireEqual (expected actual : List Char) : Except Mismatch Unit :=
  match report? expected actual with
  | none => .ok ()
  | some report =>
      .error
        { expectedLines := (Line.split expected).length
          actualLines := (Line.split actual).length
          report }

end ChuckLayout.Comparison
