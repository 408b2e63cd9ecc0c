import ChuckLayout.Document
import ChuckLayout.Proofs.Text.Squeeze

/-!
# Rows

A stream is laid out in rows.  A row is the lexemes of a line, each with what it calls for on either
side of it: between two lexemes stands one space when either of them calls for it, and none
otherwise.  A brace has a row of its own.
-/

namespace ChuckLayout

open Blank (AllBlank IsTight padding content startsBlank)

namespace Lexeme

/-- What a lexeme is written as, apart from the blanks around it. -/
def shown (lexeme : Lexeme) : List Char :=
  match lexeme.token with
  | .text | .placeholder => lexeme.text
  | token => token.spelling

/-- What is left of it in the layout. -/
def core (lexeme : Lexeme) : List Char :=
  if lexeme.token = .text then Blank.squeeze lexeme.text else lexeme.shown

end Lexeme

namespace Spacing

def padsBefore (stream : List Lexeme) (previous : Option Lexeme) (lexeme : Lexeme)
    (next : Option Lexeme) : Bool :=
  match lexeme.token with
  | .closeSquare => 1 < enclosedByPartner stream lexeme
  | .plus | .minus => !isExponentSign previous next && !previous.any (·.token == .openParen)
  | .closePrint | .placeholder => true
  | .increment | .decrement => false
  | token => token.isOperator

def padsAfter (previous : Option Lexeme) (lexeme : Lexeme) (next : Option Lexeme) : Bool :=
  match lexeme.token with
  | .openSquare => 1 < lexeme.enclosedCount
  | .plus | .minus => !isExponentSign previous next && next.any (·.token.isTableEntry)
  | .comma | .semicolon | .openPrint | .commentOpen | .commentClose | .placeholder => true
  | .increment | .decrement => false
  | token => token.isKeyword || token.isOperator

/-- A space stands between two lexemes of a row, the first of which follows `previous`. -/
def isGapped (stream : List Lexeme) (previous : Option Lexeme) (first second : Lexeme)
    (next : Option Lexeme) : Bool :=
  padsAfter previous first (some second) || padsBefore stream (some first) second next

def rowText (stream : List Lexeme) (previous : Option Lexeme) : List Lexeme → List Char
  | [] => []
  | [lexeme] => lexeme.core
  | first :: second :: rest =>
      first.core ++ padding (isGapped stream previous first second rest.head?) ++
        rowText stream (some first) (second :: rest)

def endsRow (token : Token) : Bool :=
  token == .newline || token.isBrace

/-- The rows of the lexemes that follow a lexeme with the token `previous`; the first of them is the
rest of its row. -/
def rowsAfter (previous : Option Token) : List Lexeme → List (List Lexeme)
  | [] => [[]]
  | lexeme :: rest =>
      let later := rowsAfter (some lexeme.token) rest
      if lexeme.token = .newline then [] :: later
      else if lexeme.token.isBrace then
        if previous = some lexeme.token then [lexeme] :: later else [] :: [lexeme] :: later
      else later.modifyHead (lexeme :: ·)

def rows (stream : List Lexeme) : List (List Lexeme) :=
  rowsAfter none stream

/-- The sign of an exponent has no spaces.  Any other has one before it, unless it follows an
opening parenthesis, and one after it where an entry of the table comes next. -/
theorem sign_eq (symbol : List Char) (previous next : Option Lexeme) :
    sign symbol previous next =
      padding (!isExponentSign previous next && !previous.any (·.token == .openParen)) ++ symbol ++
        padding (!isExponentSign previous next && next.any (·.token.isTableEntry)) := by
  unfold sign
  cases isExponentSign previous next <;> cases previous.any (·.token == .openParen) <;>
    cases next.any (·.token.isTableEntry) <;> simp [padding]

theorem bracketPadding_eq (enclosedCount : Nat) :
    bracketPadding enclosedCount = padding (1 < enclosedCount) := by
  simp [bracketPadding, padding]

/-- A lexeme that is no brace is written in its row. -/
theorem written_eq (stream : List Lexeme) (previous : Option Lexeme) {lexeme : Lexeme}
    (next : Option Lexeme) (hbrace : lexeme.token.isBrace = false) :
    written stream previous lexeme next =
      padding (padsBefore stream previous lexeme next) ++ lexeme.shown ++
        padding (padsAfter previous lexeme next) := by
  unfold written padsBefore padsAfter Lexeme.shown
  cases htoken : lexeme.token <;> rw [htoken] at hbrace <;>
    simp_all [sign_eq, bracketPadding_eq, padding, Token.isKeyword, Token.isOperator, Token.isBrace]

/-- A brace stands on a line of its own; between two of one kind one line break is enough. -/
theorem written_brace (stream : List Lexeme) (previous : Option Lexeme) {lexeme : Lexeme}
    (next : Option Lexeme) (hbrace : lexeme.token.isBrace) :
    written stream previous lexeme next =
      (if previous.map Lexeme.token = some lexeme.token then [] else ['\n']) ++
        (lexeme.shown ++ ['\n']) := by
  unfold written Lexeme.shown
  cases htoken : lexeme.token <;> rw [htoken] at hbrace <;> simp_all [Token.isBrace]

theorem written_lineBreak (stream : List Lexeme) (previous : Option Lexeme) {lexeme : Lexeme}
    (next : Option Lexeme) (htoken : lexeme.token = .newline) :
    written stream previous lexeme next = ['\n'] := by
  simp [written, htoken, Token.isKeyword, Token.isOperator, Token.spelling, Token.spelling?]

/-! ## Where rows begin and end -/

section

variable {stream : List Lexeme} {previous : Option Token} {lexeme : Lexeme} {rest : List Lexeme}

theorem endsRow_eq_false_iff {token : Token} :
    endsRow token = false ↔ token ≠ .newline ∧ token.isBrace = false := by
  simp [endsRow]

theorem rowsAfter_lineBreak (htoken : lexeme.token = .newline) :
    rowsAfter previous (lexeme :: rest) = [] :: rowsAfter (some lexeme.token) rest := by
  rw [rowsAfter, if_pos htoken]

theorem rowsAfter_brace (hbrace : lexeme.token.isBrace) :
    rowsAfter previous (lexeme :: rest) =
      (if previous = some lexeme.token then [] else [[]]) ++
        [lexeme] :: rowsAfter (some lexeme.token) rest := by
  have htoken : lexeme.token ≠ .newline := by
    intro htoken
    simp [htoken, Token.isBrace] at hbrace
  rw [rowsAfter, if_neg htoken, if_pos hbrace]
  split <;> simp

theorem rowsAfter_other (hends : endsRow lexeme.token = false) :
    rowsAfter previous (lexeme :: rest) =
      (rowsAfter (some lexeme.token) rest).modifyHead (lexeme :: ·) := by
  obtain ⟨htoken, hbrace⟩ := endsRow_eq_false_iff.mp hends
  rw [rowsAfter, if_neg htoken, hbrace, if_neg Bool.false_ne_true]

theorem rowsAfter_ne_nil (previous : Option Token) (lexemes : List Lexeme) :
    rowsAfter previous lexemes ≠ [] := by
  induction lexemes generalizing previous with
  | nil => exact List.cons_ne_nil _ _
  | cons lexeme rest ih =>
      rw [rowsAfter]
      split
      · exact List.cons_ne_nil _ _
      · split
        · split <;> exact List.cons_ne_nil _ _
        · rw [ne_eq, List.modifyHead_eq_nil_iff]
          exact ih _

/-- The first row goes on with the lexeme that follows, unless that ends it or is a brace like the
one before. -/
theorem rowsAfter_eq_cons (previous : Option Token) (lexemes : List Lexeme)
    (hprevious : ∀ token, previous = some token → token.isBrace = false) :
    ∃ row later, rowsAfter previous lexemes = row :: later ∧
      (row = [] ∧ (∀ next, lexemes.head? = some next → endsRow next.token) ∨
        ∃ next, lexemes.head? = some next ∧ row.head? = some next ∧
          endsRow next.token = false) := by
  cases lexemes with
  | nil => exact ⟨[], [], rfl, Or.inl ⟨rfl, by simp⟩⟩
  | cons lexeme rest =>
      cases hends : endsRow lexeme.token with
      | false =>
          obtain ⟨row, later, hrows⟩ :=
            List.exists_cons_of_ne_nil (rowsAfter_ne_nil (some lexeme.token) rest)
          refine ⟨lexeme :: row, later, ?_, Or.inr ⟨lexeme, rfl, rfl, hends⟩⟩
          rw [rowsAfter_other hends, hrows, List.modifyHead_cons]
      | true =>
          have hhead : ∀ next, (lexeme :: rest).head? = some next → endsRow next.token := by
            rintro next ⟨rfl⟩
            exact hends
          by_cases htoken : lexeme.token = .newline
          · exact ⟨[], _, rowsAfter_lineBreak htoken, Or.inl ⟨rfl, hhead⟩⟩
          · have hbrace : lexeme.token.isBrace := by
              simpa [endsRow, htoken] using hends
            refine ⟨[], [lexeme] :: rowsAfter (some lexeme.token) rest, ?_, Or.inl ⟨rfl, hhead⟩⟩
            rw [rowsAfter_brace hbrace, if_neg]
            · rfl
            · intro hsame
              rw [hprevious _ hsame] at hbrace
              exact Bool.noConfusion hbrace

theorem mem_rowsAfter {lexemes row : List Lexeme} (hrow : row ∈ rowsAfter previous lexemes) :
    ∀ lexeme ∈ row, lexeme ∈ lexemes ∧ lexeme.token ≠ .newline := by
  induction lexemes generalizing previous row with
  | nil =>
      obtain rfl : row = [] := by simpa [rowsAfter] using hrow
      simp
  | cons first rest ih =>
      intro lexeme hlexeme
      have hlift : ∀ row ∈ rowsAfter (some first.token) rest, lexeme ∈ row →
          lexeme ∈ first :: rest ∧ lexeme.token ≠ .newline := by
        intro row hrow hlexeme
        obtain ⟨hmem, hnot⟩ := ih hrow lexeme hlexeme
        exact ⟨List.mem_cons_of_mem _ hmem, hnot⟩
      rw [rowsAfter] at hrow
      split at hrow
      · rcases List.mem_cons.mp hrow with rfl | hrow
        · simp at hlexeme
        · exact hlift row hrow hlexeme
      · rename_i htoken
        split at hrow
        · have hcases : row = [] ∨ row = [first] ∨ row ∈ rowsAfter (some first.token) rest := by
            split at hrow <;> simp_all
          rcases hcases with rfl | rfl | hrow
          · simp at hlexeme
          · rw [List.mem_singleton.mp hlexeme]
            exact ⟨List.mem_cons_self, htoken⟩
          · exact hlift row hrow hlexeme
        · obtain ⟨head, others, hlater⟩ :=
            List.exists_cons_of_ne_nil (rowsAfter_ne_nil (some first.token) rest)
          rw [hlater] at hrow hlift
          rw [List.modifyHead_cons, List.mem_cons] at hrow
          rcases hrow with rfl | hrow
          · rcases List.mem_cons.mp hlexeme with rfl | hlexeme
            · exact ⟨List.mem_cons_self, htoken⟩
            · exact hlift head List.mem_cons_self hlexeme
          · exact hlift row (List.mem_cons_of_mem _ hrow) hlexeme

end

/-! ## What is looked at across the end of a row -/

theorem isExponentSign_of_previous {previous : Option Lexeme}
    (hprevious : ∀ lexeme, previous = some lexeme → lexeme.token ≠ .text) (next : Option Lexeme) :
    isExponentSign previous next = false := by
  cases previous with
  | none => rfl
  | some lexeme =>
      cases next with
      | none => rfl
      | some next => simp [isExponentSign, hprevious lexeme rfl]

theorem isExponentSign_of_next {next : Option Lexeme}
    (hnext : ∀ lexeme, next = some lexeme → lexeme.token ≠ .text) (previous : Option Lexeme) :
    isExponentSign previous next = false := by
  cases previous with
  | none => rfl
  | some lexeme =>
      cases next with
      | none => rfl
      | some next => simp [isExponentSign, hnext next rfl]

theorem not_text_of_endsRow {lexeme : Lexeme} (hends : endsRow lexeme.token) :
    lexeme.token ≠ .text := by
  intro htoken
  rw [htoken] at hends
  exact absurd hends (by decide)

variable {stream : List Lexeme} {previous next : Option Lexeme} {lexeme : Lexeme}

/-- A lexeme that ends a row is like none to what comes after it. -/
theorem padsBefore_of_endsRow (hprevious : ∀ other, previous = some other → endsRow other.token)
    (lexeme : Lexeme) (next : Option Lexeme) :
    padsBefore stream previous lexeme next = padsBefore stream none lexeme next := by
  have hexponent := isExponentSign_of_previous
    (fun other hother => not_text_of_endsRow (hprevious other hother)) next
  have hnone : isExponentSign none next = false := rfl
  have hparen : previous.any (·.token == .openParen) = false := by
    cases previous with
    | none => rfl
    | some other =>
        have hends := hprevious other rfl
        cases htoken : other.token <;> simp_all [endsRow, Token.isBrace]
  unfold padsBefore
  split <;> simp [hexponent, hparen, hnone]

theorem padsAfter_of_endsRow (hprevious : ∀ other, previous = some other → endsRow other.token)
    (lexeme : Lexeme) (next : Option Lexeme) :
    padsAfter previous lexeme next = padsAfter none lexeme next := by
  have hexponent := isExponentSign_of_previous
    (fun other hother => not_text_of_endsRow (hprevious other hother)) next
  have hnone : isExponentSign none next = false := rfl
  unfold padsAfter
  split <;> simp [hexponent, hnone]

/-- A lexeme that ends a row is like none to the space before the last lexeme of the row. -/
theorem padsBefore_of_next_endsRow (hnext : ∀ other, next = some other → endsRow other.token)
    (lexeme : Lexeme) :
    padsBefore stream previous lexeme next = padsBefore stream previous lexeme none := by
  have hexponent := isExponentSign_of_next
    (fun other hother => not_text_of_endsRow (hnext other hother)) previous
  have hnone : isExponentSign previous none = false := isExponentSign_of_next (by simp) previous
  unfold padsBefore
  split <;> simp [hexponent, hnone]

theorem rowText_of_endsRow (hprevious : ∀ other, previous = some other → endsRow other.token)
    (row : List Lexeme) : rowText stream previous row = rowText stream none row := by
  match row with
  | [] => rfl
  | [lexeme] => rfl
  | first :: second :: rest =>
      simp only [rowText, isGapped, padsAfter_of_endsRow hprevious]

end Spacing

/-- The lexeme can be written in a row: nothing of it is lost or moved by squeezing and trimming, and
what is written as a brace is one. -/
structure Lexeme.IsNeat (lexeme : Lexeme) : Prop where
  tight : IsTight lexeme.shown
  feed : '\n' ∉ lexeme.shown
  core : Blank.squeeze lexeme.shown = lexeme.core
  brace : ∀ token : Token, token.isBrace → lexeme.core = token.spelling → lexeme.token = token

theorem Lexeme.IsNeat.isTight_core {lexeme : Lexeme} (hneat : lexeme.IsNeat) :
    IsTight lexeme.core := by
  rw [← hneat.core]
  exact Blank.isTight_squeeze hneat.tight

/-! ## The lines of a rendered stream -/

open Spacing (rowText rowsAfter rows endsRow padsBefore padsAfter written writtenAfter)

/-- A row begins and ends with lexemes, and so with characters that are not blank. -/
theorem isTight_rowText (stream : List Lexeme) {row : List Lexeme}
    (htight : ∀ lexeme ∈ row, IsTight lexeme.core) (hrow : row ≠ []) (previous : Option Lexeme) :
    IsTight (rowText stream previous row) := by
  induction row generalizing previous with
  | nil => exact absurd rfl hrow
  | cons first rest ih =>
      obtain ⟨hfirst, hrest⟩ := List.forall_mem_cons.mp htight
      cases rest with
      | nil => exact hfirst
      | cons second rest =>
          have hlater := ih hrest (List.cons_ne_nil _ _) (some first)
          rw [rowText]
          constructor
          · rw [List.append_assoc, List.head?_append_of_ne_nil _ hfirst.ne_nil]
            exact hfirst.1
          · rw [List.getLast?_append_of_ne_nil _ hlater.ne_nil]
            exact hlater.2

/-- The content of the line is what the row is written as after `previous`. -/
structure LineShows (stream : List Lexeme) (previous : Option Lexeme) (line : List Char)
    (row : List Lexeme) : Prop where
  feed : '\n' ∉ line
  content : content line = rowText stream previous row
  starts : ∀ lexeme rest, row = lexeme :: rest →
    startsBlank line = padsBefore stream previous lexeme rest.head?

section

variable {stream : List Lexeme} {previous : Option Lexeme} {line : List Char} {row : List Lexeme}

theorem lineShows_nil : LineShows stream previous [] [] :=
  ⟨List.not_mem_nil, rfl, by simp⟩

theorem LineShows.of_endsRow (hshows : LineShows stream previous line row)
    (hprevious : ∀ other, previous = some other → endsRow other.token) :
    LineShows stream none line row where
  feed := hshows.feed
  content := by rw [hshows.content, Spacing.rowText_of_endsRow hprevious]
  starts lexeme rest hrow := by
    rw [hshows.starts lexeme rest hrow, Spacing.padsBefore_of_endsRow hprevious]

theorem not_mem_padding (padded : Bool) : '\n' ∉ padding padded := by
  revert padded
  decide

/-- A lexeme is written in front of a line with a space wherever one of the two calls for it, and
several spaces become one. -/
theorem lineShows_cons {lexeme : Lexeme} (hneat : lexeme.IsNeat)
    (hrow : ∀ other ∈ row, IsTight other.core) (hshows : LineShows stream (some lexeme) line row)
    {after : Bool} (hafter : row ≠ [] → after = padsAfter previous lexeme row.head?) :
    LineShows stream previous
      (padding (padsBefore stream previous lexeme row.head?) ++ lexeme.shown ++ padding after ++ line)
      (lexeme :: row) where
  feed := by
    simp only [List.mem_append, not_or]
    exact ⟨⟨⟨not_mem_padding _, hneat.feed⟩, not_mem_padding _⟩, hshows.feed⟩
  content := by
    rw [Blank.content_padded_append hneat.tight hshows.feed, hneat.core, hshows.content]
    cases row with
    | nil => simp [rowText]
    | cons next rest =>
        rw [if_neg (isTight_rowText stream hrow (List.cons_ne_nil _ _) _).ne_nil,
          hshows.starts next rest rfl, hafter (List.cons_ne_nil _ _), rowText, List.append_assoc]
        rfl
  starts other rest hcons := by
    obtain ⟨rfl, rfl⟩ := List.cons.inj hcons
    obtain ⟨char, tail, hshown, hsolid⟩ := hneat.tight.exists_cons
    cases padsBefore stream previous lexeme row.head? <;>
      simp [startsBlank, padding, hshown, hsolid, Blank.isBlank_space]

theorem lineShows_brace {lexeme : Lexeme} (hneat : lexeme.IsNeat) (hbrace : lexeme.token.isBrace) :
    LineShows stream previous lexeme.shown [lexeme] := by
  have hpads : padsBefore stream previous lexeme none = false := by
    unfold padsBefore
    cases htoken : lexeme.token <;> rw [htoken] at hbrace <;> simp_all [Token.isBrace, Token.isOperator]
  have hshows : LineShows stream previous
      (padding (padsBefore stream previous lexeme none) ++ lexeme.shown ++ padding false ++ [])
      [lexeme] := lineShows_cons hneat (by simp) lineShows_nil (by simp)
  simpa [padding, hpads] using hshows

end

/-- The lines that are written for the lexemes after `previous` show their rows. -/
def ShowsRows (stream : List Lexeme) (previous : Option Lexeme) (lexemes : List Lexeme) : Prop :=
  ∃ line lines row later,
    Line.split (writtenAfter stream previous lexemes).flatten = line :: lines ∧
    rowsAfter (previous.map Lexeme.token) lexemes = row :: later ∧
    LineShows stream previous line row ∧ List.Forall₂ (LineShows stream none) lines later

section

variable {stream : List Lexeme} {previous : Option Lexeme} {lexeme : Lexeme} {rest : List Lexeme}
  (hshows : ShowsRows stream (some lexeme) rest)

include hshows

/-- What comes after a lexeme that ends a row starts with a row of its own. -/
theorem ShowsRows.forall₂ (hends : endsRow lexeme.token) :
    List.Forall₂ (LineShows stream none)
      (Line.split (writtenAfter stream (some lexeme) rest).flatten)
      (rowsAfter (some lexeme.token) rest) := by
  obtain ⟨line, lines, row, later, hsplit, hrows, hline, hlines⟩ := hshows
  rw [Option.map_some] at hrows
  rw [hsplit, hrows]
  refine .cons (hline.of_endsRow ?_) hlines
  rintro other ⟨rfl⟩
  exact hends

theorem ShowsRows.lineBreak_cons (htoken : lexeme.token = .newline) :
    ShowsRows stream previous (lexeme :: rest) := by
  have hends : endsRow lexeme.token := by
    rw [htoken]
    rfl
  refine ⟨[], _, [], _, ?_, Spacing.rowsAfter_lineBreak htoken, lineShows_nil, hshows.forall₂ hends⟩
  rw [writtenAfter, List.flatten_cons, Spacing.written_lineBreak stream previous _ htoken,
    List.singleton_append, Blank.split_cons, if_pos rfl]

theorem ShowsRows.brace_cons (hneat : lexeme.IsNeat) (hbrace : lexeme.token.isBrace) :
    ShowsRows stream previous (lexeme :: rest) := by
  have hlater := hshows.forall₂ (by rw [endsRow, hbrace, Bool.or_true])
  have hown : LineShows stream none lexeme.shown [lexeme] := lineShows_brace hneat hbrace
  have hbreak : Line.split (lexeme.shown ++ ['\n'] ++
      (writtenAfter stream (some lexeme) rest).flatten) =
        lexeme.shown :: Line.split (writtenAfter stream (some lexeme) rest).flatten := by
    rw [List.append_assoc, Blank.split_append_of_not_mem hneat.feed, List.singleton_append,
      Blank.split_cons, if_pos rfl, List.modifyHead_cons, List.append_nil]
  rw [ShowsRows, writtenAfter, List.flatten_cons, Spacing.rowsAfter_brace hbrace,
    Spacing.written_brace stream previous _ hbrace]
  by_cases hsame : previous.map Lexeme.token = some lexeme.token
  · rw [if_pos hsame, if_pos hsame, List.nil_append, hbreak]
    exact ⟨_, _, _, _, rfl, rfl, lineShows_brace hneat hbrace, hlater⟩
  · rw [if_neg hsame, if_neg hsame, List.append_assoc, List.singleton_append, Blank.split_cons,
      if_pos rfl, hbreak]
    exact ⟨_, _, _, _, rfl, rfl, lineShows_nil, .cons hown hlater⟩

/-- A lexeme that ends no row goes in front of the rest of its row. -/
theorem ShowsRows.other_cons (hneat : lexeme.IsNeat)
    (hrest : ∀ other ∈ rest, other.token ≠ .newline → other.IsNeat)
    (hends : endsRow lexeme.token = false) : ShowsRows stream previous (lexeme :: rest) := by
  obtain ⟨line, lines, row, later, hsplit, hrows, hline, hlines⟩ := hshows
  rw [Option.map_some] at hrows
  obtain ⟨-, hbrace⟩ := Spacing.endsRow_eq_false_iff.mp hends
  have hrowNeat : ∀ other ∈ row, IsTight other.core := by
    intro other hother
    have hrow : row ∈ rowsAfter (some lexeme.token) rest := hrows ▸ List.mem_cons_self
    obtain ⟨hmem, hnot⟩ := Spacing.mem_rowsAfter hrow other hother
    exact (hrest other hmem hnot).isTight_core
  have hfeed : '\n' ∉ padding (padsBefore stream previous lexeme rest.head?) ++
      lexeme.shown ++ padding (padsAfter previous lexeme rest.head?) := by
    simp only [List.mem_append, not_or]
    exact ⟨⟨not_mem_padding _, hneat.feed⟩, not_mem_padding _⟩
  -- What follows the lexeme in the stream follows it in its row, or ends the row.
  have hnext : padsBefore stream previous lexeme rest.head? =
      padsBefore stream previous lexeme row.head? ∧ (row ≠ [] → row.head? = rest.head?) := by
    obtain ⟨row', later', hrows', hhead⟩ := Spacing.rowsAfter_eq_cons
      (some lexeme.token) rest (by
        rintro token ⟨rfl⟩
        exact hbrace)
    rw [hrows', List.cons.injEq] at hrows
    obtain ⟨rfl, rfl⟩ := hrows
    rcases hhead with ⟨rfl, hnext⟩ | ⟨next, hrestHead, hrowHead, -⟩
    · exact ⟨Spacing.padsBefore_of_next_endsRow hnext lexeme, fun h => absurd rfl h⟩
    · rw [hrestHead, hrowHead]
      exact ⟨rfl, fun _ => rfl⟩
  have hshown : LineShows stream previous
      (padding (padsBefore stream previous lexeme row.head?) ++ lexeme.shown ++
        padding (padsAfter previous lexeme rest.head?) ++ line) (lexeme :: row) :=
    lineShows_cons hneat hrowNeat hline fun hrow => by rw [hnext.2 hrow]
  refine ⟨_, lines, lexeme :: row, later, ?_, ?_, hshown, hlines⟩
  · rw [writtenAfter, List.flatten_cons, Spacing.written_eq stream previous _ hbrace,
      Blank.split_append_of_not_mem hfeed, hsplit, List.modifyHead_cons, hnext.1]
  · rw [Spacing.rowsAfter_other hends, hrows, List.modifyHead_cons]

end

/-- The lines of a rendered stream show its rows. -/
theorem showsRows (stream : List Lexeme) {lexemes : List Lexeme} (previous : Option Lexeme)
    (hneat : ∀ lexeme ∈ lexemes, lexeme.token ≠ .newline → lexeme.IsNeat) :
    ShowsRows stream previous lexemes := by
  induction lexemes generalizing previous with
  | nil => exact ⟨[], [], [], [], rfl, rfl, lineShows_nil, List.Forall₂.nil⟩
  | cons lexeme rest ih =>
      obtain ⟨hlexeme, hrest⟩ := List.forall_mem_cons.mp hneat
      have hlater := ih (some lexeme) hrest
      cases hends : endsRow lexeme.token with
      | true =>
          by_cases htoken : lexeme.token = .newline
          · exact hlater.lineBreak_cons htoken
          · have hbrace : lexeme.token.isBrace := by
              simpa [endsRow, htoken] using hends
            exact hlater.brace_cons (hlexeme htoken) hbrace
      | false =>
          have htoken := (Spacing.endsRow_eq_false_iff.mp hends).1
          exact hlater.other_cons (hlexeme htoken) hrest hends

/-- The lines of a rendered stream show its rows. -/
theorem split_flatten_writtenAfter {stream : List Lexeme}
    (hneat : ∀ lexeme ∈ stream, lexeme.token ≠ .newline → lexeme.IsNeat) :
    List.Forall₂ (LineShows stream none) (Line.split (writtenAfter stream none stream).flatten)
      (rows stream) := by
  obtain ⟨line, lines, row, later, hsplit, hrows, hline, hlines⟩ := showsRows stream none hneat
  rw [hsplit, rows, ← Option.map_none Lexeme.token, hrows]
  exact List.Forall₂.cons hline hlines

end ChuckLayout
