import ChuckLayout.Lexeme

/-!
# Bracket pairs

An opening square bracket belongs with the first closing one at which as many have closed as have
opened since.  Both learn the place of the other; an opening bracket without a partner encloses the
rest of the stream, and a closing one without a partner is left as it is.
-/

namespace ChuckLayout.BracketPairs

/-- How many lexemes stand before the bracket that closes the innermost open one, with `depth` more
open within it. -/
def distanceToCloser? (depth : Nat) : List Lexeme → Option Nat
  | [] => none
  | lexeme :: rest =>
      match lexeme.token, depth with
      | .closeSquare, 0 => some 0
      | .closeSquare, outer + 1 => (distanceToCloser? outer rest).map (· + 1)
      | .openSquare, depth => (distanceToCloser? (depth + 1) rest).map (· + 1)
      | _, depth => (distanceToCloser? depth rest).map (· + 1)

/-- An opening bracket at a place, with the place of its partner. -/
structure Opening where
  place : Nat
  partner : Option Nat
  deriving DecidableEq, Repr

/-- The opening brackets of a stream whose first lexeme is at `place`. -/
def openingsFrom (place : Nat) : List Lexeme → List Opening
  | [] => []
  | lexeme :: rest =>
      if lexeme.token = .openSquare then
        { place, partner := (distanceToCloser? 0 rest).map (place + 1 + ·) } ::
          openingsFrom (place + 1) rest
      else openingsFrom (place + 1) rest

def openings (lexemes : List Lexeme) : List Opening :=
  openingsFrom 0 lexemes

/-- The partner of an opening bracket at `place`. -/
def closerOf? (openings : List Opening) (place : Nat) : Option Nat :=
  (openings.find? fun opening => opening.place = place).bind Opening.partner

/-- The partner of a closing bracket at `place`. -/
def openerOf? (openings : List Opening) (place : Nat) : Option Nat :=
  (openings.find? fun opening => opening.partner = some place).map Opening.place

/-- Gives the lexeme at `place` of a stream of `size` lexemes its partner and what it encloses. -/
def linkAt (openings : List Opening) (size place : Nat) (lexeme : Lexeme) : Lexeme :=
  match lexeme.token with
  | .openSquare =>
      match closerOf? openings place with
      | some closer =>
          { lexeme with partner := some closer, enclosed := some ⟨place + 1, closer⟩ }
      | none => { lexeme with enclosed := some ⟨place + 1, size⟩ }
  | .closeSquare =>
      match openerOf? openings place with
      | some opener => { lexeme with partner := some opener }
      | none => lexeme
  | _ => lexeme

def link (lexemes : List Lexeme) : List Lexeme :=
  lexemes.mapIdx (linkAt (openings lexemes) lexemes.length)

/-- The places of the opening brackets without a partner, in order. -/
def unmatched (lexemes : List Lexeme) : List Nat :=
  ((openings lexemes).filter fun opening => opening.partner.isNone).map Opening.place

end ChuckLayout.BracketPairs
