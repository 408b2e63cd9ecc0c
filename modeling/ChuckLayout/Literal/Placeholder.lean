import ChuckLayout.Literal
import ChuckLayout.Text.Cut
import ChuckLayout.Text.Word

/-!
# Placeholders

A placeholder is made of the tag of its kind, a salt, a fixed middle and a decimal ordinal.  Salts
are sized: size zero is the empty salt, size `n` an underscore and `n` letters.  All of it are word
characters, so a placeholder that stands apart from other words is one word.
-/

namespace ChuckLayout.Placeholder

def tag : Literal.Kind → List Char
  | .string => "STRING".toList
  | .blockComment => "ML_COMMENT".toList
  | .lineComment => "EOL_COMMENT".toList

/-- Everything before the ordinal. -/
def stem (kind : Literal.Kind) (salt : List Char) : List Char :=
  tag kind ++ salt ++ "_LITERAL_".toList

def saltOfSize : Nat → List Char
  | 0 => []
  | size + 1 => '_' :: List.replicate (size + 1) 'X'

/-- The salt at the front of a text, as long as it can be. -/
def leadingSalt : List Char → List Char
  | '_' :: 'X' :: rest => '_' :: 'X' :: rest.takeWhile (· = 'X')
  | _ => []

/-- The placeholder-shaped name at the front of `text`: a tag, any salt and at least one digit,
each as long as it can be. -/
def leadingName? (text : List Char) : Option (List Char) :=
  match Literal.Kind.all.find? fun kind => (tag kind).isPrefixOf text with
  | none => none
  | some kind =>
      let front := stem kind (leadingSalt (text.drop (tag kind).length))
      let digits := (text.drop front.length).takeWhile Char.isDigit
      if front.isPrefixOf text && !digits.isEmpty then some (front ++ digits) else none

/-- The whole of `word` is shaped like a placeholder. -/
def isName (word : List Char) : Bool :=
  leadingName? word == some word

theorem leadingName?_front {text name : List Char} (hname : leadingName? text = some name) :
    name ≠ [] ∧ name <+: text := by
  unfold leadingName? at hname
  split at hname
  · simp at hname
  · rename_i kind _
    generalize stem kind (leadingSalt (text.drop (tag kind).length)) = front at hname
    simp only [Option.ite_none_right_eq_some, Option.some.injEq, Bool.and_eq_true,
      List.isPrefixOf_iff_prefix, Bool.not_eq_true', List.isEmpty_eq_false_iff] at hname
    obtain ⟨⟨⟨later, rfl⟩, hdigits⟩, rfl⟩ := hname
    rw [List.drop_left] at hdigits ⊢
    exact ⟨by simp [hdigits], (List.prefix_append_right_inj front).mpr (List.takeWhile_prefix _)⟩

/-- A part of a text that is cut at its placeholder-shaped names. -/
inductive Chunk where
  | plain (char : Char)
  | named (name : List Char)
  deriving DecidableEq, Repr

def Chunk.text : Chunk → List Char
  | plain char => [char]
  | named name => name

/-- The chunk at the front of the text `char :: rest`. -/
def Chunk.leading (char : Char) (rest : List Char) : Chunk :=
  match leadingName? (char :: rest) with
  | some name => .named name
  | none => .plain char

theorem Chunk.leading_isFront : Cut.IsFront Chunk.leading Chunk.text := by
  intro char rest
  unfold Chunk.leading
  split
  · exact leadingName?_front ‹_›
  · exact ⟨List.cons_ne_nil _ _, by simp [Chunk.text]⟩

/-- The chunks of a text: names are found from left to right and do not overlap. -/
def chunks (text : List Char) : List Chunk :=
  Cut.cut Chunk.leading Chunk.text text

theorem flatMap_chunks (text : List Char) : (chunks text).flatMap Chunk.text = text :=
  Cut.flatMap_cut Chunk.leading_isFront text

end ChuckLayout.Placeholder
