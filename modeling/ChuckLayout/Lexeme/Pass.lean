import ChuckLayout.Lexeme.BraceBreaks
import ChuckLayout.Lexeme.BracketPairs

/-!
# Passes over the stream

Places of brackets are places in the final stream, so brackets are paired after the line breaks
next to braces are gone.
-/

namespace ChuckLayout

inductive Pass where
  | braceBreaks
  | bracketPairs
  deriving DecidableEq, Repr

namespace Pass

def name : Pass → String
  | braceBreaks => "suppress_brace_blank_lines"
  | bracketPairs => "pair_brackets"

/-- What the pass does, in words.  Like its name, it is part of what a pass tells of itself. -/
def description : Pass → String
  | braceBreaks => "Drop every Newline run immediately before or after a brace"
  | bracketPairs => "Link each [ to its matching ] and record the enclosed token range"

def apply : Pass → List Lexeme → List Lexeme
  | braceBreaks => BraceBreaks.suppress
  | bracketPairs => BracketPairs.link

/-- The passes in the order in which they run. -/
def all : List Pass :=
  [braceBreaks, bracketPairs]

/-- Runs every pass. -/
def applyAll (lexemes : List Lexeme) : List Lexeme :=
  all.foldl (fun stream pass => pass.apply stream) lexemes

end Pass

end ChuckLayout
