import ChuckLayout.Proofs.Notices.Balance
import ChuckLayout.Proofs.Notices.Unclosed

/-!
# Faults and their notices

A notice tells of a literal that is never closed, of an opening bracket that is never closed or of
more braces of one kind than of the other, and there is none without such a fault.
-/

namespace ChuckLayout

/-! ## Telling notices by their messages -/

namespace Notice

/-- The message of the notice begins with these words. -/
def BeginsWith (notice : Notice) (words : String) : Prop :=
  words.toList <+: notice.message.toList

theorem toString_text (text : String) : toString text = text := rfl

/-- Only an unterminated literal is told of in these words and at this severity. -/
theorem isWarning_iff {notice : Notice} :
    notice.severity = .warning ∧ notice.BeginsWith "unterminated" ↔
      ∃ kind start, notice = .unterminated kind start := by
  constructor
  · rintro ⟨hseverity, -⟩
    cases notice with
    | unterminated kind start => exact ⟨kind, start, rfl⟩
    | _ => exact Severity.noConfusion hseverity
  · rintro ⟨kind, start, rfl⟩
    refine ⟨rfl, ?_⟩
    unfold BeginsWith message
    cases kind <;> simp [toString_text]

theorem beginsWith_unmatched_iff {notice : Notice} :
    notice.BeginsWith "unmatched" ↔ ∃ place, notice = .unmatchedBracket place := by
  unfold BeginsWith message
  cases notice with
  | unterminated kind start => cases kind <;> simp [toString_text]
  | stopped kind start => cases kind <;> simp [toString_text, Literal.Kind.name]
  | _ => simp [toString_text]

theorem beginsWith_unbalanced_iff {notice : Notice} :
    notice.BeginsWith "unbalanced braces" ↔ ∃ depth, notice = .unbalancedBraces depth := by
  unfold BeginsWith message
  cases notice with
  | unterminated kind start => cases kind <;> simp [toString_text]
  | stopped kind start => cases kind <;> simp [toString_text, Literal.Kind.name]
  | _ => simp [toString_text]

/-! ## Where the notices come from -/

/-- Masking tells of literals and of nothing else. -/
theorem eq_of_mem_ofTiles {kind : Literal.Kind} {offset : Nat} {cut : List Tile} {notice : Notice}
    (hnotice : notice ∈ ofTiles kind offset cut) :
    ∃ start, notice = .unterminated kind start ∨ notice = .stopped kind start := by
  induction cut generalizing offset with
  | nil => cases hnotice
  | cons tile rest ih =>
      cases tile with
      | openRegion text =>
          rcases List.mem_cons.mp hnotice with rfl | hlater
          · exact ⟨offset, Or.inl rfl⟩
          · exact ih hlater
      | openPassedOver text =>
          rcases List.mem_cons.mp hnotice with rfl | hlater
          · exact ⟨offset, Or.inr rfl⟩
          · exact ih hlater
      | plain char => exact ih hnotice
      | passedOver text => exact ih hnotice
      | region text => exact ih hnotice

theorem exists_unterminated_ofTiles (kind : Literal.Kind) (offset : Nat) (cut : List Tile) :
    (∃ other start, .unterminated other start ∈ ofTiles kind offset cut) ↔
      ∃ value, .openRegion value ∈ cut := by
  induction cut generalizing offset with
  | nil => simp [ofTiles]
  | cons tile rest ih =>
      cases tile with
      | openRegion text =>
          exact iff_of_true ⟨kind, offset, List.mem_cons_self⟩ ⟨text, List.mem_cons_self⟩
      | _ => simpa [ofTiles] using ih _

/-- A pass tells of an unterminated literal exactly if it leaves a region open. -/
theorem exists_unterminated_ofMasking (rule : RegionRule) (text : List Char) :
    (∃ kind start, .unterminated kind start ∈ ofMasking rule text) ↔ LeavesOpen rule text :=
  exists_unterminated_ofTiles rule.kind 0 (tiles rule text)

theorem unmatchedBracket_not_mem_ofMasking (rule : RegionRule) (text : List Char) (place : Nat) :
    .unmatchedBracket place ∉ ofMasking rule text := by
  intro hmem
  obtain ⟨start, heq | heq⟩ := eq_of_mem_ofTiles hmem <;> cases heq

theorem unbalancedBraces_not_mem_ofMasking (rule : RegionRule) (text : List Char) (depth : Int) :
    .unbalancedBraces depth ∉ ofMasking rule text := by
  intro hmem
  obtain ⟨start, heq | heq⟩ := eq_of_mem_ofTiles hmem <;> cases heq

/-- Indenting tells of the depth that it ends with, unless that is zero. -/
theorem mem_ofIndenting_iff {notice : Notice} {text : List Char} :
    notice ∈ ofIndenting text ↔
      notice = .unbalancedBraces (Nesting.finalDepth text) ∧ Nesting.finalDepth text ≠ 0 := by
  rw [ofIndenting]
  split <;> simp_all

theorem ofPasses_all (lexemes : List Lexeme) :
    ofPasses lexemes Pass.all =
      [.applying .braceBreaks, .applying .bracketPairs] ++
        (BracketPairs.unmatched (BraceBreaks.suppress lexemes)).map unmatchedBracket := by
  simp [Pass.all, ofPasses, ofPass, Pass.apply]

end Notice

namespace Document

open Token (HasOpen HasStray IsBalanced)

variable {source : List Char}

/-- Some notice of formatting the source has a message that begins with these words. -/
def Tells (source : List Char) (words : String) : Prop :=
  ∃ notice ∈ notices source, notice.BeginsWith words

/-- The tokens of the source after every pass. -/
def tokens (source : List Char) : List Token :=
  (stream source).map Lexeme.token

/-- The notices of a source are those of the steps of formatting, one after the other. -/
theorem mem_notices_iff {notice : Notice} :
    notice ∈ notices source ↔
      notice ∈ Notice.ofMasking .string source ∨
      notice ∈ Notice.ofMasking .blockComment (maskStrings source).text ∨
      notice = .lexed (lex source).lexemes.length (lex source).table.literals.length ∨
      notice ∈ Notice.ofPasses (lex source).lexemes Pass.all ∨
      notice ∈ Notice.ofIndenting (Spacing.render (stream source)) := by
  simp only [notices, List.mem_append, List.mem_singleton, or_assoc, stream]

theorem unterminated_mem_iff {kind : Literal.Kind} {start : Nat} :
    .unterminated kind start ∈ notices source ↔
      .unterminated kind start ∈ Notice.ofMasking .string source ∨
        .unterminated kind start ∈ Notice.ofMasking .blockComment (maskStrings source).text := by
  simp [mem_notices_iff, Notice.ofPasses_all, Notice.mem_ofIndenting_iff]

theorem unmatchedBracket_mem_iff {place : Nat} :
    .unmatchedBracket place ∈ notices source ↔
      place ∈ BracketPairs.unmatched (BraceBreaks.suppress (lex source).lexemes) := by
  simp [mem_notices_iff, Notice.unmatchedBracket_not_mem_ofMasking, Notice.ofPasses_all,
    Notice.mem_ofIndenting_iff]

theorem unbalancedBraces_mem_iff {depth : Int} :
    .unbalancedBraces depth ∈ notices source ↔
      depth = Spacing.nesting (stream source) ∧ Spacing.nesting (stream source) ≠ 0 := by
  have hneat : ∀ lexeme ∈ stream source, lexeme.token ≠ .newline → lexeme.IsNeat :=
    fun _ hlexeme => (isHidden_of_mem_stream hlexeme).isNeat (isNumbered_lex source)
  simp [mem_notices_iff, Notice.unbalancedBraces_not_mem_ofMasking, Notice.ofPasses_all,
    Notice.mem_ofIndenting_iff, finalDepth_render hneat]

/-- A string or block comment without an end is always told of, and nothing else is told of as
one. -/
theorem tells_unterminated_iff :
    (∃ notice ∈ notices source, notice.severity = .warning ∧ notice.BeginsWith "unterminated") ↔
      ¬WellClosed source := by
  rw [not_wellClosed_iff, ← Notice.exists_unterminated_ofMasking,
    ← Notice.exists_unterminated_ofMasking]
  simp only [Notice.isWarning_iff]
  constructor
  · rintro ⟨-, hmem, kind, start, rfl⟩
    exact (unterminated_mem_iff.mp hmem).imp (⟨kind, start, ·⟩) (⟨kind, start, ·⟩)
  · rintro (⟨kind, start, hmem⟩ | ⟨kind, start, hmem⟩)
    · exact ⟨_, unterminated_mem_iff.mpr (Or.inl hmem), kind, start, rfl⟩
    · exact ⟨_, unterminated_mem_iff.mpr (Or.inr hmem), kind, start, rfl⟩

/-- Pairing brackets keeps the tokens. -/
theorem tokens_eq (source : List Char) :
    tokens source = (BraceBreaks.suppress (lex source).lexemes).map Lexeme.token := by
  have hitems := map_item_link (BraceBreaks.suppress (lex source).lexemes)
  have htokens := congrArg (List.map Prod.fst) hitems
  rwa [List.map_map, List.map_map] at htokens

/-- A bracket is told of exactly if it opens and is never closed. -/
theorem tells_unmatched_iff :
    Tells source "unmatched" ↔ HasOpen .openSquare .closeSquare (tokens source) := by
  rw [tokens_eq, ← not_iff_not, ← BracketPairs.unmatched_eq_nil_iff,
    List.eq_nil_iff_forall_not_mem, Tells]
  simp only [Notice.beginsWith_unmatched_iff, ← unmatchedBracket_mem_iff]
  constructor
  · exact fun hnone place hmem => hnone ⟨_, hmem, place, rfl⟩
  · rintro hnone ⟨-, hmem, place, rfl⟩
    exact hnone place hmem

/-- Braces are told of exactly if their numbers differ. -/
theorem tells_unbalanced_iff :
    Tells source "unbalanced braces" ↔
      (tokens source).count .openBrace ≠ (tokens source).count .closeBrace := by
  rw [tokens, ne_eq, ← nesting_eq_zero_iff (stream source), Tells]
  simp only [Notice.beginsWith_unbalanced_iff]
  constructor
  · rintro ⟨-, hmem, depth, rfl⟩
    exact (unbalancedBraces_mem_iff.mp hmem).2
  · exact fun hdepth => ⟨_, unbalancedBraces_mem_iff.mpr ⟨rfl, hdepth⟩, _, rfl⟩

/-- A warning about a literal tells of one that is never closed, a message about brackets of one that
is never closed, and a message about braces of more of one kind than of the other.  Of the faults
that upset the balance of brackets or braces only those go untold where something closes that is not
open. -/
theorem notices_tell_faults (source : List Char) :
    ((∃ notice ∈ notices source,
        notice.severity = .warning ∧ notice.BeginsWith "unterminated") ↔ ¬WellClosed source) ∧
    (Tells source "unmatched" ↔ HasOpen .openSquare .closeSquare (tokens source)) ∧
    (¬IsBalanced .openSquare .closeSquare (tokens source) ↔
      Tells source "unmatched" ∨ HasStray .openSquare .closeSquare (tokens source)) ∧
    (Tells source "unbalanced braces" ↔
      (tokens source).count .openBrace ≠ (tokens source).count .closeBrace) ∧
    (¬IsBalanced .openBrace .closeBrace (tokens source) ↔
      Tells source "unbalanced braces" ∨ HasStray .openBrace .closeBrace (tokens source)) := by
  refine ⟨tells_unterminated_iff, tells_unmatched_iff, ?_, tells_unbalanced_iff, ?_⟩
  · rw [Token.isBalanced_iff (by decide), tells_unmatched_iff]
    tauto
  · rw [tells_unbalanced_iff]
    exact Token.not_isBalanced_iff_count (by decide)

/-- Nothing tells of a bracket or of a brace that closes nothing, the latter when another opens. -/
theorem stray_goes_untold :
    ¬(Tells "]".toList "unmatched" ↔
        ¬IsBalanced .openSquare .closeSquare (tokens "]".toList)) ∧
      ¬(Tells "\x7d\x7b".toList "unbalanced braces" ↔
        ¬IsBalanced .openBrace .closeBrace (tokens "\x7d\x7b".toList)) := by
  have hsquare : tokens "]".toList = [.closeSquare, .newline] := by decide +kernel
  have hbraces : tokens "\x7d\x7b".toList = [.closeBrace, .openBrace] := by decide +kernel
  constructor
  · have hopen : ¬HasOpen .openSquare .closeSquare [.closeSquare, .newline] := by
      rintro ⟨front, back, htokens, -⟩
      have hmem : Token.openSquare ∈ [Token.closeSquare, .newline] := by simp [htokens]
      exact absurd hmem (by decide)
    have hbalanced : ¬IsBalanced .openSquare .closeSquare [.closeSquare, .newline] :=
      fun hbalanced => absurd hbalanced.2 (by decide)
    rw [tells_unmatched_iff, hsquare]
    exact fun htold => hopen (htold.mpr hbalanced)
  · have hbalanced : ¬IsBalanced .openBrace .closeBrace [.closeBrace, .openBrace] :=
      fun hbalanced => absurd (hbalanced.1 [.closeBrace] (by simp)) (by decide)
    rw [tells_unbalanced_iff, hbraces]
    exact fun htold => absurd rfl (htold.mpr hbalanced)

end Document

end ChuckLayout
