import ChuckLayout.Layout.Nesting
import ChuckLayout.Lexeme.Pass
import ChuckLayout.Literal.Masking

/-!
# Notices

What there is to say about a document besides its formatted text.  Formatting never fails: a
malformed document is laid out as far as it goes, and a notice tells of each fault.
-/

namespace ChuckLayout

inductive Severity where
  | trace
  | debug
  | warning
  deriving DecidableEq, Repr

inductive Notice where
  /-- A region of `kind` opens at the byte `start` and is never closed. -/
  | unterminated (kind : Literal.Kind) (start : Nat)
  /-- What opens at the byte `start` is never closed, and the search for regions of `kind` passed
  over the rest of the text with it. -/
  | stopped (kind : Literal.Kind) (start : Nat)
  | lexed (lexemes literals : Nat)
  | applying (pass : Pass)
  | unmatchedBracket (place : Nat)
  | unbalancedBraces (depth : Int)
  deriving DecidableEq, Repr

namespace Notice

def severity : Notice → Severity
  | unterminated _ _ => .warning
  | applying _ => .trace
  | stopped _ _ | lexed _ _ | unmatchedBracket _ | unbalancedBraces _ => .debug

def message : Notice → String
  | unterminated .blockComment start =>
      s!"unterminated block comment starting at byte {start}, " ++
        "left unprotected along with every string after it"
  | unterminated kind start =>
      s!"unterminated {kind.name} starting at byte {start}, left unprotected"
  | stopped kind start =>
      s!"{kind.name} pass stopped at unterminated comment at byte {start}"
  | lexed lexemes literals => s!"lexed {lexemes} tokens, {literals} literals in vault"
  | applying pass => s!"applying {pass.name}"
  | unmatchedBracket place => s!"unmatched [ at token {place}"
  | unbalancedBraces depth => s!"unbalanced braces, final depth {depth}"

/-- The notices about tiles that are never closed, the first of which starts at `offset`. -/
def ofTiles (kind : Literal.Kind) (offset : Nat) : List Tile → List Notice
  | [] => []
  | tile :: rest =>
      let later := ofTiles kind (offset + Units.utf8Length tile.text) rest
      match tile with
      | .openRegion _ => .unterminated kind offset :: later
      | .openPassedOver _ => .stopped kind offset :: later
      | _ => later

def ofMasking (rule : RegionRule) (text : List Char) : List Notice :=
  ofTiles rule.kind 0 (tiles rule text)

def ofPass (lexemes : List Lexeme) : Pass → List Notice
  | .braceBreaks => []
  | .bracketPairs => (BracketPairs.unmatched lexemes).map unmatchedBracket

/-- The notices of running `passes` in turn. -/
def ofPasses (lexemes : List Lexeme) : List Pass → List Notice
  | [] => []
  | pass :: rest => applying pass :: ofPass lexemes pass ++ ofPasses (pass.apply lexemes) rest

def ofIndenting (text : List Char) : List Notice :=
  let depth := Nesting.finalDepth text
  if depth = 0 then [] else [unbalancedBraces depth]

end Notice

end ChuckLayout
