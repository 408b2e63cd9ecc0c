import ChuckLayout.Lexeme
import ChuckLayout.Text.Blank

/-!
# Spacing

Every lexeme is written with the blanks that its kind and its neighbours call for.  The rules never
look at what has been written already: runs of blanks are squeezed at the end.
-/

namespace ChuckLayout.Spacing

/-- The sign between `previous` and `next` belongs to the exponent of a number such as `1.5e-3`,
which the scanner cuts at the sign. -/
def isExponentSign (previous next : Option Lexeme) : Bool :=
  match previous, next with
  | some previous, some next =>
      previous.token == .text && next.token == .text &&
        (let mantissa := Blank.lastWord previous.text
         mantissa.head?.any Char.isDigit &&
           mantissa.getLast?.any (fun char => char == 'e' || char == 'E')) &&
        next.text.head?.any Char.isDigit
  | _, _ => false

/-- A sign is written tight against its operand.  It stands off from what comes before, unless that
opens a parenthesis, and from a table entry that comes after. -/
def sign (symbol : List Char) (previous next : Option Lexeme) : List Char :=
  let before := if previous.any (·.token == .openParen) then [] else [' ']
  let after := if next.any (·.token.isTableEntry) then [' '] else []
  if isExponentSign previous next then symbol else before ++ symbol ++ after

/-- More than one lexeme within brackets is set off from them. -/
def bracketPadding (enclosedCount : Nat) : List Char :=
  if 1 < enclosedCount then [' '] else []

/-- How many lexemes the partner of a closing bracket encloses, going by the whole `stream`. -/
def enclosedByPartner (stream : List Lexeme) (closer : Lexeme) : Nat :=
  ((closer.partner.bind fun place => stream[place]?).map Lexeme.enclosedCount).getD 0

/-- A lexeme of `stream` as it is written between `previous` and `next`. -/
def written (stream : List Lexeme) (previous : Option Lexeme) (lexeme : Lexeme)
    (next : Option Lexeme) : List Char :=
  let symbol := lexeme.token.spelling
  match lexeme.token with
  | .openSquare => symbol ++ bracketPadding lexeme.enclosedCount
  | .closeSquare => bracketPadding (enclosedByPartner stream lexeme) ++ symbol
  | .increment | .decrement => symbol
  | .plus | .minus => sign symbol previous next
  -- Braces of one kind that follow each other share the break between them.
  | .openBrace | .closeBrace =>
      (if previous.map Lexeme.token = some lexeme.token then [] else ['\n']) ++ symbol ++ ['\n']
  | .comma | .semicolon | .openPrint | .commentOpen | .commentClose => symbol ++ [' ']
  | .closePrint => ' ' :: symbol
  | .placeholder => ' ' :: lexeme.text ++ [' ']
  | .text => lexeme.text
  | token =>
      if token.isKeyword then symbol ++ [' ']
      else if token.isOperator then ' ' :: symbol ++ [' ']
      else symbol

/-- What is written for each of the lexemes that follow `previous` in `stream`. -/
def writtenAfter (stream : List Lexeme) (previous : Option Lexeme) :
    List Lexeme → List (List Char)
  | [] => []
  | lexeme :: rest =>
      written stream previous lexeme rest.head? :: writtenAfter stream (some lexeme) rest

/-- The text of a stream, with its line breaks and without indentation. -/
def render (stream : List Lexeme) : List Char :=
  Blank.squeeze (writtenAfter stream none stream).flatten

end ChuckLayout.Spacing
