/-!
# Tokens

The closed table of ChucK punctuation, keywords and operators, and the two open-ended kinds: raw
text, and placeholders that stand for literals.
-/

namespace ChuckLayout

inductive Token where
  | colonColon | period | comma | semicolon
  | openSquare | closeSquare | openBrace | closeBrace | openParen | closeParen
  | intWord | floatWord | stringWord | voidWord | funWord
  | whileWord | untilWord | repeatWord | doWord | ifWord | elseWord | forWord | returnWord
  | openPrint | closePrint
  | increment | decrement
  | equal | notEqual | lessOrEqual | greaterOrEqual | and | or
  | bitXor | bitAnd | bitOr | bitXorEqual | bitOrEqual | bitAndEqual
  | shiftRight | shiftLeft | shiftRightEqual | shiftLeftEqual
  | chuck | atChuck | tildeChuck | unchuck
  | addChuck | subtractChuck | divideChuck | multiplyChuck | moduloChuck
  | bitAndChuck | bitOrChuck | bitXorChuck
  | plus | minus
  /-- A sign that swallowed the space or tab after it. -/
  | plusSpaced | minusSpaced
  | multiply | divide | modulo | assign | not | lessThan | greaterThan
  /-- Comment marks reach the token stream only from a comment that is never closed. -/
  | commentOpen | commentClose
  | newline
  | text
  | placeholder
  deriving DecidableEq, Repr

namespace Token

/-- The spelling of a table entry; raw text and placeholders have none.  A sign that swallowed a
blank is spelled as the bare sign. -/
def spelling? : Token → Option (List Char)
  | colonColon => some "::".toList
  | period => some ".".toList
  | comma => some ",".toList
  | semicolon => some ";".toList
  | openSquare => some "[".toList
  | closeSquare => some "]".toList
  | openBrace => some "\x7b".toList
  | closeBrace => some "\x7d".toList
  | openParen => some "(".toList
  | closeParen => some ")".toList
  | intWord => some "int".toList
  | floatWord => some "float".toList
  | stringWord => some "string".toList
  | voidWord => some "void".toList
  | funWord => some "fun".toList
  | whileWord => some "while".toList
  | untilWord => some "until".toList
  | repeatWord => some "repeat".toList
  | doWord => some "do".toList
  | ifWord => some "if".toList
  | elseWord => some "else".toList
  | forWord => some "for".toList
  | returnWord => some "return".toList
  | openPrint => some "<<<".toList
  | closePrint => some ">>>".toList
  | increment => some "++".toList
  | decrement => some "--".toList
  | equal => some "==".toList
  | notEqual => some "!=".toList
  | lessOrEqual => some "<=".toList
  | greaterOrEqual => some ">=".toList
  | and => some "&&".toList
  | or => some "||".toList
  | bitXor => some "^".toList
  | bitAnd => some "&".toList
  | bitOr => some "|".toList
  | bitXorEqual => some "=^".toList
  | bitOrEqual => some "=|".toList
  | bitAndEqual => some "=&".toList
  | shiftRight => some ">>".toList
  | shiftLeft => some "<<".toList
  | shiftRightEqual => some "=>>".toList
  | shiftLeftEqual => some "=<<".toList
  | chuck => some "=>".toList
  | atChuck => some "@=>".toList
  | tildeChuck => some "~>".toList
  | unchuck => some "=<".toList
  | addChuck => some "+=>".toList
  | subtractChuck => some "-=>".toList
  | divideChuck => some "/=>".toList
  | multiplyChuck => some "*=>".toList
  | moduloChuck => some "%=>".toList
  | bitAndChuck => some "&=>".toList
  | bitOrChuck => some "|=>".toList
  | bitXorChuck => some "^=>".toList
  | plus | plusSpaced => some "+".toList
  | minus | minusSpaced => some "-".toList
  | multiply => some "*".toList
  | divide => some "/".toList
  | modulo => some "%".toList
  | assign => some "=".toList
  | not => some "!".toList
  | lessThan => some "<".toList
  | greaterThan => some ">".toList
  | commentOpen => some "/*".toList
  | commentClose => some "*/".toList
  | newline => some "\n".toList
  | text | placeholder => none

/-- The spelling, or nothing for the open-ended kinds. -/
def spelling (token : Token) : List Char :=
  token.spelling?.getD []

/-- The token is an entry of the table, punctuation included. -/
def isTableEntry (token : Token) : Bool :=
  token.spelling?.isSome

def isKeyword : Token → Bool
  | intWord | floatWord | stringWord | voidWord | funWord
  | whileWord | untilWord | repeatWord | doWord | ifWord | elseWord | forWord | returnWord => true
  | _ => false

/-- Assignment, comparison, arithmetic, chuck, logical and bitwise operators. -/
def isOperator : Token → Bool
  | increment | decrement
  | equal | notEqual | lessOrEqual | greaterOrEqual | and | or
  | bitXor | bitAnd | bitOr | bitXorEqual | bitOrEqual | bitAndEqual
  | shiftRight | shiftLeft | shiftRightEqual | shiftLeftEqual
  | chuck | atChuck | tildeChuck | unchuck
  | addChuck | subtractChuck | divideChuck | multiplyChuck | moduloChuck
  | bitAndChuck | bitOrChuck | bitXorChuck
  | plus | minus | plusSpaced | minusSpaced
  | multiply | divide | modulo | assign | not | lessThan | greaterThan => true
  | _ => false

def isBrace : Token → Bool
  | openBrace | closeBrace => true
  | _ => false

/-- The name under which a token is listed. -/
def name : Token → String
  | colonColon => "ColonColon"
  | period => "Period"
  | comma => "Comma"
  | semicolon => "Semicolon"
  | openSquare => "OpenSquare"
  | closeSquare => "CloseSquare"
  | openBrace => "OpenBrace"
  | closeBrace => "CloseBrace"
  | openParen => "OpenParen"
  | closeParen => "CloseParen"
  | intWord => "Int"
  | floatWord => "Float"
  | stringWord => "Str"
  | voidWord => "Void"
  | funWord => "Fun"
  | whileWord => "While"
  | untilWord => "Until"
  | repeatWord => "Repeat"
  | doWord => "Do"
  | ifWord => "If"
  | elseWord => "Else"
  | forWord => "For"
  | returnWord => "Return"
  | openPrint => "OpenTripleAngle"
  | closePrint => "CloseTripleAngle"
  | increment => "Increment"
  | decrement => "Decrement"
  | equal => "Equal"
  | notEqual => "NotEqual"
  | lessOrEqual => "LessOrEqual"
  | greaterOrEqual => "GreaterOrEqual"
  | and => "And"
  | or => "Or"
  | bitXor => "BitXor"
  | bitAnd => "BitAnd"
  | bitOr => "BitOr"
  | bitXorEqual => "BitXorEqual"
  | bitOrEqual => "BitOrEqual"
  | bitAndEqual => "BitAndEqual"
  | shiftRight => "ShiftRight"
  | shiftLeft => "ShiftLeft"
  | shiftRightEqual => "ShiftRightEqual"
  | shiftLeftEqual => "ShiftLeftEqual"
  | chuck => "Chuck"
  | atChuck => "AtChuck"
  | tildeChuck => "TildeChuck"
  | unchuck => "Unchuck"
  | addChuck => "AddChuck"
  | subtractChuck => "SubtractChuck"
  | divideChuck => "DivideChuck"
  | multiplyChuck => "MultiplyChuck"
  | moduloChuck => "ModuloChuck"
  | bitAndChuck => "BitAndChuck"
  | bitOrChuck => "BitOrChuck"
  | bitXorChuck => "BitXorChuck"
  | plus => "Plus"
  | minus => "Minus"
  | plusSpaced => "PlusSpaced"
  | minusSpaced => "MinusSpaced"
  | multiply => "Multiply"
  | divide => "Divide"
  | modulo => "Modulo"
  | assign => "Assign"
  | not => "Not"
  | lessThan => "LessThan"
  | greaterThan => "GreaterThan"
  | commentOpen => "BlockCommentOpen"
  | commentClose => "BlockCommentClose"
  | newline => "Newline"
  | text => "Text"
  | placeholder => "Placeholder"

/-- Every token, in table order. -/
def all : List Token :=
  [colonColon, period, comma, semicolon,
   openSquare, closeSquare, openBrace, closeBrace, openParen, closeParen,
   intWord, floatWord, stringWord, voidWord, funWord,
   whileWord, untilWord, repeatWord, doWord, ifWord, elseWord, forWord, returnWord,
   openPrint, closePrint,
   increment, decrement,
   equal, notEqual, lessOrEqual, greaterOrEqual, and, or,
   bitXor, bitAnd, bitOr, bitXorEqual, bitOrEqual, bitAndEqual,
   shiftRight, shiftLeft, shiftRightEqual, shiftLeftEqual,
   chuck, atChuck, tildeChuck, unchuck,
   addChuck, subtractChuck, divideChuck, multiplyChuck, moduloChuck,
   bitAndChuck, bitOrChuck, bitXorChuck,
   plus, minus, plusSpaced, minusSpaced,
   multiply, divide, modulo, assign, not, lessThan, greaterThan,
   commentOpen, commentClose, newline, text, placeholder]

theorem mem_all (token : Token) : token ∈ all := by
  cases token <;> decide

end Token

end ChuckLayout
