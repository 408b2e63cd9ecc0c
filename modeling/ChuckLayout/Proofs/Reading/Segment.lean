import ChuckLayout.Literal
import ChuckLayout.Proofs.Text.Solid

/-!
# Reading a text in one pass

A text is read from left to right, and each literal is found where the literals before it have been
left behind.  A string or block comment that is never closed is read as code, and from then on
fewer kinds of literals are looked for.  The formatter never reads a text this way; what its stages
find is stated against this reading.
-/

namespace ChuckLayout

/-- The literals that are still looked for. -/
inductive Scope where
  | all
  | comments
  | lineComments
  deriving DecidableEq, Repr

inductive Segment where
  | code (char : Char)
  | literal (kind : Literal.Kind) (text : List Char)
  /-- The first character of an opener whose literal is never closed. -/
  | unclosed (kind : Literal.Kind) (char : Char)
  deriving DecidableEq, Repr

/-- What is looked for once a literal of `kind` turned out to have no end. -/
def Scope.without (scope : Scope) : Literal.Kind → Scope
  | .string => if scope = .all then .comments else scope
  | .blockComment => .lineComments
  | .lineComment => scope

def Scope.opening? (scope : Scope) (char : Char) (next : Option Char) : Option Literal.Kind :=
  if char = '/' ∧ next = some '/' then some .lineComment
  else if char = '/' ∧ next = some '*' ∧ scope ≠ .lineComments then some .blockComment
  else if char = '\"' ∧ scope = .all then some .string
  else none

namespace Segment

def text : Segment → List Char
  | code char | unclosed _ char => [char]
  | literal _ text => text

/-- The front of a text through the first `*/`. -/
def throughCommentEnd? : List Char → Option (List Char)
  | [] => none
  | char :: rest =>
      if char = '*' ∧ rest.head? = some '/' then some ['*', '/']
      else (throughCommentEnd? rest).map (char :: ·)

/-- The front of a text through the first quote that no backslash hides.  `hidden` says that the
first character of the text is hidden. -/
def throughQuote? (hidden : Bool) : List Char → Option (List Char)
  | [] => none
  | char :: rest =>
      if hidden = false ∧ char = '\"' then some ['\"']
      else (throughQuote? (!hidden && char == '\\') rest).map (char :: ·)

/-- The literal of `kind` at the front of a text that begins with its opener. -/
def literalAt? (text : List Char) : Literal.Kind → Option (List Char)
  | .lineComment => some (text.takeWhile (· != '\n'))
  | .blockComment => (throughCommentEnd? (text.drop 2)).map ("/*".toList ++ ·)
  | .string => (throughQuote? false (text.drop 1)).map ('\"' :: ·)

def leading (scope : Scope) (char : Char) (rest : List Char) : Segment :=
  match scope.opening? char rest.head? with
  | none => .code char
  | some kind =>
      match literalAt? (char :: rest) kind with
      | some text => .literal kind text
      | none => .unclosed kind char

end Segment

def Scope.after (scope : Scope) : Segment → Scope
  | .unclosed kind _ => scope.without kind
  | _ => scope

/-- The segments of a text, in order. -/
def segments (scope : Scope) : List Char → List Segment
  | [] => []
  | char :: rest =>
      let segment := Segment.leading scope char rest
      segment :: segments (scope.after segment) (rest.drop (segment.text.length - 1))
termination_by text => text.length
decreasing_by
  simp only [List.length_drop, List.length_cons]
  omega

/-- Every string and block comment of the text is closed. -/
def WellClosed (text : List Char) : Prop :=
  ∀ kind char, .unclosed kind char ∉ segments .all text

/-- The literals of a text with their kinds, line comments without the blanks at their end. -/
def literalsOf (text : List Char) : List (Literal.Kind × List Char) :=
  (segments .all text).filterMap fun
    | .literal .lineComment text => some (.lineComment, Blank.trimEnd text)
    | .literal kind text => some (kind, text)
    | _ => none

/-- `Reads scope text found` says that reading `text` finds the segments `found`. -/
inductive Reads : Scope → List Char → List Segment → Prop where
  | done (scope : Scope) : Reads scope [] []
  | code {scope : Scope} {char : Char} {rest : List Char} {found : List Segment}
      (hopening : scope.opening? char rest.head? = none) (hrest : Reads scope rest found) :
      Reads scope (char :: rest) (.code char :: found)
  | literal {scope : Scope} {kind : Literal.Kind} {char : Char} {tail rest : List Char}
      {found : List Segment}
      (hopening : scope.opening? char (tail ++ rest).head? = some kind)
      (hliteral : Segment.literalAt? (char :: tail ++ rest) kind = some (char :: tail))
      (hrest : Reads scope rest found) :
      Reads scope (char :: tail ++ rest) (.literal kind (char :: tail) :: found)
  | unclosed {scope : Scope} {kind : Literal.Kind} {char : Char} {rest : List Char}
      {found : List Segment} (hopening : scope.opening? char rest.head? = some kind)
      (hliteral : Segment.literalAt? (char :: rest) kind = none)
      (hrest : Reads (scope.without kind) rest found) :
      Reads scope (char :: rest) (.unclosed kind char :: found)

/-! ## Openers -/

namespace Scope

variable {scope : Scope} {char : Char} {next : Option Char}

theorem opening?_eq_none_iff :
    scope.opening? char next = none ↔
      ¬(char = '/' ∧ next = some '/') ∧ ¬(char = '/' ∧ next = some '*' ∧ scope ≠ .lineComments) ∧
        ¬(char = '\"' ∧ scope = .all) := by
  unfold opening?
  split
  · simp_all
  split
  · simp_all
  split <;> simp_all

theorem opening?_eq_lineComment_iff :
    scope.opening? char next = some .lineComment ↔ char = '/' ∧ next = some '/' := by
  unfold opening?
  split
  · simp_all
  split
  · simp_all
  split <;> simp_all

theorem opening?_eq_blockComment_iff :
    scope.opening? char next = some .blockComment ↔
      char = '/' ∧ next = some '*' ∧ scope ≠ .lineComments := by
  unfold opening?
  split
  · simp_all
  split
  · simp_all
  split <;> simp_all

theorem opening?_eq_string_iff :
    scope.opening? char next = some .string ↔ char = '\"' ∧ scope = .all := by
  unfold opening?
  split
  · simp_all
  split
  · simp_all
  split <;> simp_all

theorem eq_of_opening? {kind : Literal.Kind} (hopening : scope.opening? char next = some kind) :
    char = '/' ∨ char = '\"' := by
  cases kind with
  | string => exact Or.inr (opening?_eq_string_iff.mp hopening).1
  | blockComment => exact Or.inl (opening?_eq_blockComment_iff.mp hopening).1
  | lineComment => exact Or.inl (opening?_eq_lineComment_iff.mp hopening).1

/-- Of what follows `char` it matters only whether it goes on with a comment mark. -/
theorem opening?_congr {other : Option Char} (hslash : next = some '/' ↔ other = some '/')
    (hstar : next = some '*' ↔ other = some '*') :
    scope.opening? char next = scope.opening? char other := by
  simp only [opening?, hslash, hstar]

def Ignores (scope : Scope) : Literal.Kind → Prop
  | .string => scope ≠ .all
  | .blockComment => scope = .lineComments
  | .lineComment => False

/-- Nothing of a kind that is ignored opens any more. -/
theorem Ignores.opening?_ne {kind : Literal.Kind} (hignores : scope.Ignores kind) (char : Char)
    (next : Option Char) : scope.opening? char next ≠ some kind := by
  intro hopening
  cases kind with
  | string => exact hignores (opening?_eq_string_iff.mp hopening).2
  | blockComment => exact (opening?_eq_blockComment_iff.mp hopening).2.2 hignores
  | lineComment => exact hignores

theorem Ignores.without {kind : Literal.Kind} (hignores : scope.Ignores kind)
    (other : Literal.Kind) : (scope.without other).Ignores kind := by
  revert hignores
  cases scope <;> cases kind <;> cases other <;> simp [Ignores, Scope.without]

/-- A kind of literal that had no end is ignored from there on; line comments always have one. -/
theorem ignores_without {kind : Literal.Kind} (hkind : kind ≠ .lineComment) :
    (scope.without kind).Ignores kind := by
  cases scope <;> cases kind <;> simp_all [Ignores, Scope.without]

end Scope

/-! ## Literals are fronts of the text -/

namespace Segment

theorem isPrefix_of_throughCommentEnd? {text inside : List Char}
    (hinside : throughCommentEnd? text = some inside) : inside <+: text := by
  induction text generalizing inside with
  | nil => simp [throughCommentEnd?] at hinside
  | cons char rest ih =>
      rw [throughCommentEnd?] at hinside
      split at hinside
      · rename_i hcloses
        obtain ⟨tail, rfl⟩ := List.head?_eq_some_iff.mp hcloses.2
        rw [← Option.some.inj hinside, hcloses.1]
        exact ⟨tail, rfl⟩
      · obtain ⟨later, hlater, rfl⟩ := Option.map_eq_some_iff.mp hinside
        exact (List.prefix_cons_inj char).mpr (ih hlater)

theorem ne_nil_of_throughCommentEnd? {text inside : List Char}
    (hinside : throughCommentEnd? text = some inside) : inside ≠ [] := by
  cases text with
  | nil => simp [throughCommentEnd?] at hinside
  | cons char rest =>
      rw [throughCommentEnd?] at hinside
      split at hinside
      · simp [← Option.some.inj hinside]
      · obtain ⟨later, -, rfl⟩ := Option.map_eq_some_iff.mp hinside
        exact List.cons_ne_nil _ _

theorem isPrefix_of_throughQuote? {hidden : Bool} {text inside : List Char}
    (hinside : throughQuote? hidden text = some inside) : inside <+: text := by
  induction text generalizing hidden inside with
  | nil => simp [throughQuote?] at hinside
  | cons char rest ih =>
      rw [throughQuote?] at hinside
      split at hinside
      · rename_i hcloses
        rw [← Option.some.inj hinside, hcloses.2]
        exact ⟨rest, rfl⟩
      · obtain ⟨later, hlater, rfl⟩ := Option.map_eq_some_iff.mp hinside
        exact (List.prefix_cons_inj char).mpr (ih hlater)

theorem isPrefix_of_literalAt? {scope : Scope} {kind : Literal.Kind} {char : Char}
    {rest text : List Char} (hopening : scope.opening? char rest.head? = some kind)
    (hliteral : literalAt? (char :: rest) kind = some text) :
    ∃ tail, text = char :: tail ∧ tail <+: rest := by
  cases kind with
  | lineComment =>
      obtain ⟨rfl, -⟩ := Scope.opening?_eq_lineComment_iff.mp hopening
      rw [literalAt?, List.takeWhile_cons_of_pos (by decide)] at hliteral
      exact ⟨_, (Option.some.inj hliteral).symm, List.takeWhile_prefix _⟩
  | blockComment =>
      obtain ⟨rfl, hstar, -⟩ := Scope.opening?_eq_blockComment_iff.mp hopening
      obtain ⟨later, rfl⟩ := List.head?_eq_some_iff.mp hstar
      obtain ⟨inside, hinside, rfl⟩ := Option.map_eq_some_iff.mp hliteral
      exact ⟨_, rfl, (List.prefix_cons_inj _).mpr (isPrefix_of_throughCommentEnd? hinside)⟩
  | string =>
      obtain ⟨rfl, -⟩ := Scope.opening?_eq_string_iff.mp hopening
      obtain ⟨inside, hinside, rfl⟩ := Option.map_eq_some_iff.mp hliteral
      exact ⟨_, rfl, isPrefix_of_throughQuote? hinside⟩

/-- The end of a comment is found whatever follows it. -/
theorem throughCommentEnd?_append {text inside : List Char}
    (hinside : throughCommentEnd? text = some inside) (back : List Char) :
    throughCommentEnd? (inside ++ back) = some inside := by
  induction text generalizing inside with
  | nil => simp [throughCommentEnd?] at hinside
  | cons char rest ih =>
      rw [throughCommentEnd?] at hinside
      split at hinside
      · rw [← Option.some.inj hinside]
        simp [throughCommentEnd?]
      · rename_i hopen
        obtain ⟨later, hlater, rfl⟩ := Option.map_eq_some_iff.mp hinside
        rw [List.cons_append, throughCommentEnd?, if_neg, ih hlater, Option.map_some]
        -- The characters after `char` are those of the text, as far as `later` goes.
        intro hcloses
        apply hopen
        refine ⟨hcloses.1, ?_⟩
        obtain ⟨front, hfront⟩ := isPrefix_of_throughCommentEnd? hlater
        cases later with
        | nil => exact absurd rfl (ne_nil_of_throughCommentEnd? hlater)
        | cons first later => simpa [← hfront] using hcloses.2

theorem throughQuote?_append {hidden : Bool} {text inside : List Char}
    (hinside : throughQuote? hidden text = some inside) (back : List Char) :
    throughQuote? hidden (inside ++ back) = some inside := by
  induction text generalizing hidden inside with
  | nil => simp [throughQuote?] at hinside
  | cons char rest ih =>
      rw [throughQuote?] at hinside
      split at hinside
      · rename_i hcloses
        rw [← Option.some.inj hinside]
        simp [throughQuote?, hcloses.1]
      · rename_i hopen
        obtain ⟨later, hlater, rfl⟩ := Option.map_eq_some_iff.mp hinside
        rw [List.cons_append, throughQuote?, if_neg hopen, ih hlater, Option.map_some]

/-- Whether a string or block comment is closed does not depend on what follows it. -/
theorem literalAt?_append {kind : Literal.Kind} (hkind : kind ≠ .lineComment)
    {text rest : List Char} (hliteral : literalAt? (text ++ rest) kind = some text)
    (back : List Char) : literalAt? (text ++ back) kind = some text := by
  cases kind with
  | lineComment => exact absurd rfl hkind
  | blockComment =>
      obtain ⟨inside, hinside, rfl⟩ := Option.map_eq_some_iff.mp hliteral
      exact Option.map_eq_some_iff.mpr ⟨inside, throughCommentEnd?_append hinside back, rfl⟩
  | string =>
      obtain ⟨inside, hinside, rfl⟩ := Option.map_eq_some_iff.mp hliteral
      exact Option.map_eq_some_iff.mpr ⟨inside, throughQuote?_append hinside back, rfl⟩

/-- A line comment is all of its line, and ends where the line or the text does. -/
theorem literalAt?_lineComment_iff {text rest : List Char} :
    literalAt? (text ++ rest) .lineComment = some text ↔
      '\n' ∉ text ∧ rest.head?.all (· = '\n') := by
  rw [literalAt?, Option.some.injEq]
  induction text with
  | nil =>
      cases rest with
      | nil => simp
      | cons char rest => by_cases hfeed : char = '\n' <;> simp [hfeed]
  | cons char text ih =>
      by_cases hfeed : char = '\n'
      · simp [hfeed]
      · rw [List.cons_append, List.takeWhile_cons_of_pos (by simpa using hfeed), List.cons.injEq,
          ih, List.mem_cons, not_or]
        simp [Ne.symm hfeed]

theorem ne_nil_of_throughQuote? {hidden : Bool} {text inside : List Char}
    (hinside : throughQuote? hidden text = some inside) : inside ≠ [] := by
  cases text with
  | nil => simp [throughQuote?] at hinside
  | cons char rest =>
      rw [throughQuote?] at hinside
      split at hinside
      · simp [← Option.some.inj hinside]
      · obtain ⟨later, -, rfl⟩ := Option.map_eq_some_iff.mp hinside
        exact List.cons_ne_nil _ _

/-- A literal is longer than one character, so what follows it does not decide what it opens. -/
theorem tail_ne_nil {scope : Scope} {kind : Literal.Kind} {char : Char} {tail rest : List Char}
    (hopening : scope.opening? char (tail ++ rest).head? = some kind)
    (hliteral : literalAt? (char :: tail ++ rest) kind = some (char :: tail)) : tail ≠ [] := by
  rintro rfl
  cases kind with
  | lineComment =>
      obtain ⟨-, hnext⟩ := Scope.opening?_eq_lineComment_iff.mp hopening
      obtain ⟨-, hrest⟩ := literalAt?_lineComment_iff.mp hliteral
      rw [List.nil_append] at hnext
      simp [hnext] at hrest
  | blockComment =>
      obtain ⟨inside, -, htext⟩ := Option.map_eq_some_iff.mp hliteral
      simp at htext
  | string =>
      obtain ⟨inside, hinside, htext⟩ := Option.map_eq_some_iff.mp hliteral
      exact ne_nil_of_throughQuote? hinside (List.cons.inj htext).2

end Segment

/-! ## One reading for every text -/

theorem segments_nil (scope : Scope) : segments scope [] = [] := by
  rw [segments]

theorem segments_cons (scope : Scope) (char : Char) (rest : List Char) :
    segments scope (char :: rest) =
      Segment.leading scope char rest ::
        segments (scope.after (Segment.leading scope char rest))
          (rest.drop ((Segment.leading scope char rest).text.length - 1)) := by
  rw [segments]

theorem segments_code {scope : Scope} {char : Char} {rest : List Char}
    (hopening : scope.opening? char rest.head? = none) :
    segments scope (char :: rest) = .code char :: segments scope rest := by
  rw [segments_cons, Segment.leading, hopening]
  rfl

theorem segments_literal {scope : Scope} {kind : Literal.Kind} {char : Char} {tail rest : List Char}
    (hopening : scope.opening? char (tail ++ rest).head? = some kind)
    (hliteral : Segment.literalAt? (char :: tail ++ rest) kind = some (char :: tail)) :
    segments scope (char :: tail ++ rest) = .literal kind (char :: tail) :: segments scope rest := by
  rw [List.cons_append] at hliteral ⊢
  rw [segments_cons, Segment.leading, hopening]
  simp [hliteral, Scope.after, Segment.text]

/-- An opener without an end is one character of code, and no more of its kind is looked for. -/
theorem segments_unclosed {scope : Scope} {kind : Literal.Kind} {char : Char} {rest : List Char}
    (hopening : scope.opening? char rest.head? = some kind)
    (hliteral : Segment.literalAt? (char :: rest) kind = none) :
    segments scope (char :: rest) =
      .unclosed kind char :: segments (scope.without kind) rest := by
  rw [segments_cons, Segment.leading, hopening]
  simp [hliteral, Scope.after, Segment.text]

/-- The relation says of every text what the function finds in it. -/
theorem reads_segments (scope : Scope) (text : List Char) :
    Reads scope text (segments scope text) := by
  induction hlength : text.length using Nat.strong_induction_on generalizing scope text with
  | _ length ih =>
      cases text with
      | nil =>
          rw [segments_nil]
          exact .done scope
      | cons char rest =>
          cases hopening : scope.opening? char rest.head? with
          | none =>
              rw [segments_code hopening]
              exact .code hopening (ih rest.length (by simp [← hlength]) _ _ rfl)
          | some kind =>
              cases hliteral : Segment.literalAt? (char :: rest) kind with
              | none =>
                  rw [segments_unclosed hopening hliteral]
                  exact .unclosed hopening hliteral (ih rest.length (by simp [← hlength]) _ _ rfl)
              | some text =>
                  obtain ⟨tail, rfl, later, rfl⟩ := Segment.isPrefix_of_literalAt? hopening hliteral
                  rw [← List.cons_append] at hliteral ⊢
                  rw [segments_literal hopening hliteral]
                  refine .literal hopening hliteral (ih later.length ?_ _ _ rfl)
                  simp only [← hlength, List.length_append, List.length_cons]
                  omega

theorem Reads.segments_eq {scope : Scope} {text : List Char} {found : List Segment}
    (hreads : Reads scope text found) : segments scope text = found := by
  induction hreads with
  | done scope => exact segments_nil scope
  | code hopening _ ih => rw [segments_code hopening, ih]
  | literal hopening hliteral _ ih => rw [segments_literal hopening hliteral, ih]
  | unclosed hopening hliteral _ ih => rw [segments_unclosed hopening hliteral, ih]

theorem reads_iff {scope : Scope} {text : List Char} {found : List Segment} :
    Reads scope text found ↔ segments scope text = found :=
  ⟨Reads.segments_eq, fun hfound => hfound ▸ reads_segments scope text⟩

/-- A reading loses nothing: its segments spell the text. -/
theorem Reads.flatMap_text {scope : Scope} {text : List Char} {found : List Segment}
    (hreads : Reads scope text found) : found.flatMap Segment.text = text := by
  induction hreads with
  | done => rfl
  | code _ _ ih => simp [Segment.text, ih]
  | literal _ _ _ ih => simp [Segment.text, ih]
  | unclosed _ _ _ ih => simp [Segment.text, ih]

end ChuckLayout
