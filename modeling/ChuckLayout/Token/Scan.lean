import ChuckLayout.Literal.Placeholder
import ChuckLayout.Token

/-!
# Scanning

A text is cut into tokens, gaps between them and stray characters that begin no token.  Nothing is
dropped: the pieces laid end to end are the text.  At each place the longest token wins.
-/

namespace ChuckLayout

inductive Piece where
  /-- A run of spaces, tabs, carriage returns and form feeds. -/
  | gap (text : List Char)
  | item (token : Token) (text : List Char)
  | stray (char : Char)
  deriving DecidableEq, Repr

namespace Piece

def text : Piece → List Char
  | gap text => text
  | item _ text => text
  | stray char => [char]

def isGap (char : Char) : Bool :=
  char == ' ' || char == '\t' || char == '\r' || char == '\x0c'

def keywords : List Token :=
  Token.all.filter Token.isKeyword

/-- Table entries that are not made of word characters, with the ways to write them.  Longer
spellings come first, so the first that fits is the longest that fits. -/
def marks : List (Token × List Char) :=
  [(.openPrint, "<<<".toList), (.closePrint, ">>>".toList),
   (.shiftRightEqual, "=>>".toList), (.shiftLeftEqual, "=<<".toList),
   (.atChuck, "@=>".toList), (.addChuck, "+=>".toList), (.subtractChuck, "-=>".toList),
   (.divideChuck, "/=>".toList), (.multiplyChuck, "*=>".toList), (.moduloChuck, "%=>".toList),
   (.bitAndChuck, "&=>".toList), (.bitOrChuck, "|=>".toList), (.bitXorChuck, "^=>".toList),
   (.colonColon, "::".toList), (.increment, "++".toList), (.decrement, "--".toList),
   (.equal, "==".toList), (.notEqual, "!=".toList),
   (.lessOrEqual, "<=".toList), (.greaterOrEqual, ">=".toList),
   (.and, "&&".toList), (.or, "||".toList),
   (.bitXorEqual, "=^".toList), (.bitOrEqual, "=|".toList), (.bitAndEqual, "=&".toList),
   (.shiftRight, ">>".toList), (.shiftLeft, "<<".toList),
   (.chuck, "=>".toList), (.tildeChuck, "~>".toList), (.unchuck, "=<".toList),
   (.plusSpaced, "+ ".toList), (.plusSpaced, "+\t".toList),
   (.minusSpaced, "- ".toList), (.minusSpaced, "-\t".toList),
   (.commentOpen, "/*".toList), (.commentClose, "*/".toList),
   (.period, ".".toList), (.comma, ",".toList), (.semicolon, ";".toList),
   (.openSquare, "[".toList), (.closeSquare, "]".toList),
   (.openBrace, "\x7b".toList), (.closeBrace, "\x7d".toList),
   (.openParen, "(".toList), (.closeParen, ")".toList),
   (.bitXor, "^".toList), (.bitAnd, "&".toList), (.bitOr, "|".toList),
   (.plus, "+".toList), (.minus, "-".toList),
   (.multiply, "*".toList), (.divide, "/".toList), (.modulo, "%".toList),
   (.assign, "=".toList), (.not, "!".toList),
   (.lessThan, "<".toList), (.greaterThan, ">".toList),
   (.newline, "\n".toList)]

/-- The token that a whole word is: a keyword, a placeholder, or raw text. -/
def ofWord (word : List Char) : Token :=
  match keywords.find? fun keyword => keyword.spelling = word with
  | some keyword => keyword
  | none => if Placeholder.isName word then .placeholder else .text

/-- The piece at the front of the text `char :: rest`. -/
def leading (char : Char) (rest : List Char) : Piece :=
  if isGap char then .gap (char :: rest.takeWhile isGap)
  else if Word.isWordChar char then
    let word := char :: rest.takeWhile Word.isWordChar
    .item (ofWord word) word
  else
    match marks.find? fun mark => mark.2.isPrefixOf (char :: rest) with
    | some (token, spelling) => .item token spelling
    | none => .stray char

theorem ne_nil_of_mem_marks {mark : Token × List Char} (hmark : mark ∈ marks) : mark.2 ≠ [] := by
  revert mark
  decide

theorem leading_isFront : Cut.IsFront leading text := by
  intro char rest
  unfold leading
  split
  · exact ⟨List.cons_ne_nil _ _, (List.prefix_cons_inj char).mpr (List.takeWhile_prefix _)⟩
  split
  · exact ⟨List.cons_ne_nil _ _, (List.prefix_cons_inj char).mpr (List.takeWhile_prefix _)⟩
  split
  · rename_i hfound
    have hfits := List.find?_some hfound
    exact ⟨ne_nil_of_mem_marks (List.mem_of_find?_eq_some hfound),
      List.isPrefixOf_iff_prefix.mp hfits⟩
  · exact ⟨List.cons_ne_nil _ _, by simp [text]⟩

end Piece

/-- The pieces of a text, in order. -/
def scan (text : List Char) : List Piece :=
  Cut.cut Piece.leading Piece.text text

theorem flatMap_scan (text : List Char) : (scan text).flatMap Piece.text = text :=
  Cut.flatMap_cut Piece.leading_isFront text

end ChuckLayout
