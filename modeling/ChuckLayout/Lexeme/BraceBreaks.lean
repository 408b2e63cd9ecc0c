import ChuckLayout.Lexeme

/-!
# Line breaks next to braces

A brace always gets a line of its own, so the line breaks that a user wrote next to one carry no
information.  A run of line breaks is marked when a brace stands at either end of it, and marked
lexemes are then left out.
-/

namespace ChuckLayout.BraceBreaks

/-- A brace is the first lexeme that is no line break. -/
def braceAhead : List Lexeme → Bool
  | [] => false
  | lexeme :: rest =>
      if lexeme.token = .newline then braceAhead rest else lexeme.token.isBrace

/-- Marks the line breaks of every run that touches a brace.  `afterBrace` says that the last
lexeme before these that is no line break is a brace. -/
def markFrom (afterBrace : Bool) : List Lexeme → List Lexeme
  | [] => []
  | lexeme :: rest =>
      if lexeme.token = .newline then
        { lexeme with dropped := lexeme.dropped || afterBrace || braceAhead rest } ::
          markFrom afterBrace rest
      else lexeme :: markFrom lexeme.token.isBrace rest

def mark (lexemes : List Lexeme) : List Lexeme :=
  markFrom false lexemes

/-- Leaves out the line breaks next to braces, and whatever was marked before. -/
def suppress (lexemes : List Lexeme) : List Lexeme :=
  (mark lexemes).filter fun lexeme => !lexeme.dropped

end ChuckLayout.BraceBreaks
