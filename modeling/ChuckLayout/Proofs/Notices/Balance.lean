import ChuckLayout.Notice
import ChuckLayout.Proofs.Layout.Places

/-!
# Balanced brackets and braces

A sequence can fail to be balanced in two ways: something that opens is never closed, or something
closes that was never open.  Pairing brackets comes upon the first fault only, and counting braces
comes upon neither when they make up for each other.
-/

namespace ChuckLayout

namespace Token

variable {opener closer : Token} {tokens : List Token}

/-- Read from the left, no more has closed than has opened, and in the end all of it has closed. -/
def IsBalanced (opener closer : Token) (tokens : List Token) : Prop :=
  (∀ front, front <+: tokens → front.count closer ≤ front.count opener) ∧
    tokens.count closer = tokens.count opener

/-- Nothing in `later` closes what is open before it. -/
def StaysOpen (opener closer : Token) (later : List Token) : Prop :=
  ∀ part, part <+: later → part.count closer ≤ part.count opener

/-- Something opens and is never closed. -/
def HasOpen (opener closer : Token) (tokens : List Token) : Prop :=
  ∃ front back, tokens = front ++ opener :: back ∧ StaysOpen opener closer back

/-- Something closes that is not open: whatever opens before it has closed before it. -/
def HasStray (opener closer : Token) (tokens : List Token) : Prop :=
  ∃ front back, tokens = front ++ closer :: back ∧
    ∀ part, part <:+ front → part.count opener ≤ part.count closer

theorem hasOpen_cons {token : Token} :
    HasOpen opener closer (token :: tokens) ↔
      token = opener ∧ StaysOpen opener closer tokens ∨ HasOpen opener closer tokens := by
  constructor
  · rintro ⟨front, back, htokens, hopen⟩
    cases front with
    | nil =>
        obtain ⟨rfl, rfl⟩ := List.cons.inj htokens
        exact Or.inl ⟨rfl, hopen⟩
    | cons first front => exact Or.inr ⟨front, back, (List.cons.inj htokens).2, hopen⟩
  · rintro (⟨rfl, hopen⟩ | ⟨front, back, rfl, hopen⟩)
    · exact ⟨[], tokens, rfl, hopen⟩
    · exact ⟨token :: front, back, rfl, hopen⟩

/-- What closes without an opener is what opens without a closer, read from the right. -/
theorem hasStray_iff_reverse :
    HasStray opener closer tokens ↔ HasOpen closer opener tokens.reverse := by
  constructor
  · rintro ⟨front, back, rfl, hclosed⟩
    refine ⟨back.reverse, front.reverse, by simp, fun part hpart => ?_⟩
    rw [← List.count_reverse, ← part.count_reverse (a := closer)]
    exact hclosed _ (List.reverse_prefix.mp (by simpa using hpart))
  · rintro ⟨front, back, htokens, hclosed⟩
    refine ⟨back.reverse, front.reverse, ?_, fun part hpart => ?_⟩
    · rw [← List.reverse_reverse tokens, htokens]
      simp
    · rw [← List.count_reverse, ← part.count_reverse (a := closer)]
      exact hclosed _ (List.reverse_suffix.mp (by simpa using hpart))

/-- Something stays open just when more opens than closes from some place on. -/
theorem hasOpen_iff (hne : opener ≠ closer) :
    HasOpen opener closer tokens ↔
      ∃ back, back <:+ tokens ∧ back.count closer < back.count opener := by
  constructor
  · rintro ⟨front, back, rfl, hopen⟩
    refine ⟨opener :: back, List.suffix_append _ _, ?_⟩
    rw [List.count_cons_self, List.count_cons_of_ne hne]
    exact Nat.lt_succ_of_le (hopen back List.prefix_rfl)
  · rintro ⟨back, hback, hmore⟩
    induction tokens generalizing back with
    | nil => simp [List.suffix_nil.mp hback] at hmore
    | cons token rest ih =>
        -- Of all places from which on more opens than closes, the last is where something opens.
        by_cases hlater : ∃ part, part <:+ rest ∧ part.count closer < part.count opener
        · obtain ⟨part, hpart, hless⟩ := hlater
          obtain ⟨front, later, rfl, hopen⟩ := ih part hpart hless
          exact ⟨token :: front, later, rfl, hopen⟩
        · have hclosed : ∀ part, part <:+ rest → part.count opener ≤ part.count closer :=
            fun part hpart => Nat.le_of_not_lt fun hless => hlater ⟨part, hpart, hless⟩
          rcases List.suffix_cons_iff.mp hback with rfl | hrest
          · have htoken : token = opener := by
              by_contra htoken
              rw [List.count_cons_of_ne htoken] at hmore
              have hcloser := List.count_le_count_cons (a := closer) (b := token) (l := rest)
              have hrest := hclosed rest List.suffix_rfl
              omega
            subst htoken
            refine ⟨[], rest, rfl, ?_⟩
            rintro part ⟨later, rfl⟩
            have hend := hclosed later (List.suffix_append _ _)
            rw [List.count_cons_self, List.count_cons_of_ne hne, List.count_append,
              List.count_append] at hmore
            omega
          · have hless := hclosed back hrest
            omega

theorem hasStray_iff (hne : opener ≠ closer) :
    HasStray opener closer tokens ↔
      ∃ front, front <+: tokens ∧ front.count opener < front.count closer := by
  rw [hasStray_iff_reverse, hasOpen_iff hne.symm]
  constructor
  · rintro ⟨back, hback, hless⟩
    exact ⟨back.reverse, List.reverse_suffix.mp (by simpa using hback), by simpa using hless⟩
  · rintro ⟨front, hfront, hless⟩
    exact ⟨front.reverse, List.reverse_suffix.mpr hfront, by simpa using hless⟩

/-- There are two faults, and no others. -/
theorem isBalanced_iff (hne : opener ≠ closer) :
    IsBalanced opener closer tokens ↔
      ¬HasOpen opener closer tokens ∧ ¬HasStray opener closer tokens := by
  rw [hasOpen_iff hne, hasStray_iff hne]
  simp only [not_exists, not_and, Nat.not_lt]
  constructor
  · rintro ⟨hfronts, htotal⟩
    refine ⟨?_, hfronts⟩
    rintro back ⟨front, rfl⟩
    have hfront := hfronts front (List.prefix_append _ _)
    simp only [List.count_append] at htotal
    omega
  · rintro ⟨hbacks, hfronts⟩
    exact ⟨hfronts, Nat.le_antisymm (hfronts tokens List.prefix_rfl) (hbacks tokens List.suffix_rfl)⟩

/-- Where there is no stray, the balance is upset only by what stays open. -/
theorem not_isBalanced_iff_count (hne : opener ≠ closer) :
    ¬IsBalanced opener closer tokens ↔
      tokens.count opener ≠ tokens.count closer ∨ HasStray opener closer tokens := by
  rw [hasStray_iff hne, IsBalanced, Classical.not_and_iff_not_or_not]
  simp only [not_forall, Nat.not_le, exists_prop]
  exact or_comm.trans (or_congr_left ne_comm)

end Token

/-! ## Brackets -/

namespace BracketPairs

theorem forall_isPrefix_cons {holds : List Token → Prop} {token : Token} {tokens : List Token}
    (hnil : holds []) :
    (∀ part, part <+: token :: tokens → holds part) ↔
      ∀ part, part <+: tokens → holds (token :: part) := by
  simp only [List.prefix_cons_iff]
  constructor
  · exact fun hall part hpart => hall _ (Or.inr ⟨part, rfl, hpart⟩)
  · rintro hall part (rfl | ⟨later, rfl, hlater⟩)
    · exact hnil
    · exact hall later hlater

/-- The search for a closer fails when nothing closes as much as is open. -/
theorem distanceToCloser?_eq_none_iff (depth : Nat) (lexemes : List Lexeme) :
    distanceToCloser? depth lexemes = none ↔
      ∀ part, part <+: lexemes.map Lexeme.token →
        part.count .closeSquare ≤ part.count .openSquare + depth := by
  induction lexemes generalizing depth with
  | nil => simp [distanceToCloser?]
  | cons lexeme rest ih =>
      rw [List.map_cons, forall_isPrefix_cons (Nat.zero_le _)]
      by_cases hopen : lexeme.token = .openSquare
      · rw [distanceToCloser?_openSquare _ _ hopen, Option.map_eq_none_iff, ih]
        refine forall₂_congr fun part _ => ?_
        rw [hopen, List.count_cons_self, List.count_cons_of_ne (by decide)]
        omega
      by_cases hclose : lexeme.token = .closeSquare
      · rw [distanceToCloser?_closeSquare _ _ hclose, hclose]
        simp only [List.count_cons_self,
          List.count_cons_of_ne (show Token.closeSquare ≠ .openSquare by decide)]
        cases depth with
        | zero =>
            exact iff_of_false (by simp) fun hall => absurd (hall [] List.nil_prefix) (by decide)
        | succ depth =>
            rw [if_neg (Nat.succ_ne_zero depth), Option.map_eq_none_iff, ih]
            refine forall₂_congr fun part _ => ?_
            omega
      · rw [distanceToCloser?_other _ _ hopen hclose, Option.map_eq_none_iff, ih]
        refine forall₂_congr fun part _ => ?_
        rw [List.count_cons_of_ne hopen, List.count_cons_of_ne hclose]

theorem distanceToCloser?_zero_eq_none_iff (lexemes : List Lexeme) :
    distanceToCloser? 0 lexemes = none ↔
      Token.StaysOpen .openSquare .closeSquare (lexemes.map Lexeme.token) :=
  distanceToCloser?_eq_none_iff 0 lexemes

/-- A bracket has no partner exactly if nothing after it closes it. -/
theorem exists_openingsFrom_iff (place : Nat) (lexemes : List Lexeme) :
    (∃ opening ∈ openingsFrom place lexemes, opening.partner = none) ↔
      Token.HasOpen .openSquare .closeSquare (lexemes.map Lexeme.token) := by
  induction lexemes generalizing place with
  | nil => simp [openingsFrom, Token.HasOpen]
  | cons lexeme rest ih =>
      rw [openingsFrom, List.map_cons, Token.hasOpen_cons, ← ih (place + 1)]
      by_cases hopen : lexeme.token = .openSquare
      · simp [hopen, distanceToCloser?_zero_eq_none_iff]
      · simp [hopen]

/-- Some opening bracket has no partner just when one is never closed. -/
theorem unmatched_eq_nil_iff (lexemes : List Lexeme) :
    unmatched lexemes = [] ↔
      ¬Token.HasOpen .openSquare .closeSquare (lexemes.map Lexeme.token) := by
  rw [unmatched, List.map_eq_nil_iff, List.filter_eq_nil_iff, ← exists_openingsFrom_iff 0]
  simp [openings]

end BracketPairs

/-! ## Braces -/

theorem foldl_depthAfter_rows {found : List (List Lexeme)}
    (hfound : ∀ row ∈ found, ∀ lexeme ∈ row, lexeme.IsNeat) (stream : List Lexeme) (depth : Int) :
    (found.map (Spacing.rowText stream none)).foldl Nesting.depthAfter depth =
      found.foldl Spacing.depthAfterRow depth := by
  induction found generalizing depth with
  | nil => rfl
  | cons row rest ih =>
      rw [List.forall_mem_cons] at hfound
      rw [List.map_cons, List.foldl_cons, List.foldl_cons, depthAfter_rowText stream hfound.1,
        ih hfound.2]

/-- The depth of a rendered stream is the difference between its braces. -/
theorem finalDepth_render {stream : List Lexeme}
    (hneat : ∀ lexeme ∈ stream, lexeme.token ≠ .newline → lexeme.IsNeat) :
    Nesting.finalDepth (Spacing.render stream) = Spacing.nesting stream := by
  rw [Nesting.finalDepth, map_trim_split_render hneat,
    foldl_depthAfter_rows fun row hrow => isNeat_of_mem_rows hneat hrow, Spacing.rows,
    Spacing.foldl_depthAfterRow fun row hrow => isBrace_of_mem_rowsAfter hrow,
    flatten_rowsAfter, Spacing.nesting_filter, Int.zero_add]

/-- The depth ends at zero exactly if as many braces open as close, in whatever order they do. -/
theorem nesting_eq_zero_iff (stream : List Lexeme) :
    Spacing.nesting stream = 0 ↔
      (stream.map Lexeme.token).count .openBrace = (stream.map Lexeme.token).count .closeBrace := by
  have hcount (token : Token) :
      stream.countP (·.token = token) = (stream.map Lexeme.token).count token := by
    rw [List.count, List.countP_map]
    rfl
  rw [Spacing.nesting, hcount, hcount]
  omega

end ChuckLayout
