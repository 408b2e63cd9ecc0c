import ChuckLayout.Lexeme

/-!
# Listing lexemes as JSON

A stream is listed as an array of records, indented by two spaces.  A field that has nothing to say
is left out: a lexeme without a partner has no `pair`.
-/

namespace ChuckLayout.Listing

/-- A control character by its code. -/
def unicodeEscape (char : Char) : List Char :=
  let digits := Nat.toDigits 16 char.toNat
  "\\u".toList ++ List.replicate (4 - digits.length) '0' ++ digits

/-- A character as it stands in a JSON string. -/
def escaped (char : Char) : List Char :=
  if char = '\"' then "\\\"".toList
  else if char = '\\' then "\\\\".toList
  else if char = '\n' then "\\n".toList
  else if char = '\r' then "\\r".toList
  else if char = '\t' then "\\t".toList
  else if char = '\x08' then "\\b".toList
  else if char = '\x0c' then "\\f".toList
  else if char.toNat < 0x20 then unicodeEscape char
  else [char]

def quoted (text : List Char) : List Char :=
  '\"' :: text.flatMap escaped ++ ['\"']

/-- What stands between `opener` and `closer`, one item a line, at `indentation`. -/
def block (indentation : Nat) (opener closer : Char) (items : List (List Char)) : List Char :=
  if items = [] then [opener, closer]
  else
    let inner := '\n' :: List.replicate (indentation + 2) ' '
    opener :: inner ++ (',' :: inner).intercalate items ++
      '\n' :: List.replicate indentation ' ' ++ [closer]

def field (key : String) (value : List Char) : List Char :=
  quoted key.toList ++ ": ".toList ++ value

def number (value : Nat) : List Char :=
  Nat.toDigits 10 value

def enclosure (indentation : Nat) (enclosed : Enclosure) : List Char :=
  block indentation '\x7b' '\x7d'
    [field "start" (number enclosed.start), field "end" (number enclosed.stop)]

/-- The fields of the record of a lexeme, which is at `indentation`. -/
def fields (indentation : Nat) (lexeme : Lexeme) : List (List Char) :=
  [field "token" (quoted lexeme.token.name.toList), field "text" (quoted lexeme.text)] ++
    (lexeme.partner.map fun place => field "pair" (number place)).toList ++
    (lexeme.enclosed.map fun enclosed =>
      field "body" (enclosure (indentation + 2) enclosed)).toList ++
    (if lexeme.dropped then [field "suppressed" "true".toList] else [])

def render (stream : List Lexeme) : List Char :=
  block 0 '[' ']' (stream.map fun lexeme => block 2 '\x7b' '\x7d' (fields 2 lexeme))

end ChuckLayout.Listing
