/-!
# Blank characters

A character is blank when Unicode gives it the property `White_Space`.  Trimming, word splitting
and the squeezing of blank runs all use this one class.  Texts are lists of characters.
-/

namespace ChuckLayout.Blank

/-- The code points with the property `White_Space`, as closed ranges in ascending order. -/
def ranges : List (Nat × Nat) :=
  [(0x09, 0x0D), (0x20, 0x20), (0x85, 0x85), (0xA0, 0xA0), (0x1680, 0x1680), (0x2000, 0x200A),
   (0x2028, 0x2029), (0x202F, 0x202F), (0x205F, 0x205F), (0x3000, 0x3000)]

def isBlank (char : Char) : Bool :=
  ranges.any fun range => range.1 ≤ char.toNat && char.toNat ≤ range.2

/-- Blank, and not the line break. -/
def isHorizontal (char : Char) : Bool :=
  isBlank char && char != '\n'

def trimStart (text : List Char) : List Char :=
  text.dropWhile isBlank

def trimEnd (text : List Char) : List Char :=
  (text.reverse.dropWhile isBlank).reverse

def trim (text : List Char) : List Char :=
  trimEnd (trimStart text)

/-- What follows the last blank of `text`: all of it when there is none. -/
def lastWord (text : List Char) : List Char :=
  (text.reverse.takeWhile fun char => !isBlank char).reverse

/-- Writes every run of horizontal blanks as one space.  `afterBlank` says that the run at the
front of the text has been written already. -/
def squeezeFrom (afterBlank : Bool) : List Char → List Char
  | [] => []
  | char :: rest =>
      if isHorizontal char then
        if afterBlank then squeezeFrom true rest else ' ' :: squeezeFrom true rest
      else char :: squeezeFrom false rest

def squeeze (text : List Char) : List Char :=
  squeezeFrom false text

end ChuckLayout.Blank
