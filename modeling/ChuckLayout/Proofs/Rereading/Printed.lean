import ChuckLayout.Proofs.Layout.Direct
import ChuckLayout.Proofs.Rereading.Laid

/-!
# Printed rows are laid out

The atoms of printed rows show the lexemes of the rows.  Two lexemes without a space between them
never meet in a comment mark or in a backslash that would hide a quote, and a line comment ends its
row.
-/

namespace ChuckLayout

open Blank (AllBlank IsTight padding)
open Spacing

variable {stream : List Lexeme}

/-! ## Rows of braces -/

/-- A row is a brace, or has none in it. -/
theorem isBrace_of_mem_rowsAfter {previous : Option Token} {lexemes row : List Lexeme}
    (hrow : row ∈ rowsAfter previous lexemes) :
    (∃ lexeme, row = [lexeme] ∧ lexeme.token.isBrace) ∨
      ∀ lexeme ∈ row, lexeme.token.isBrace = false := by
  have hempty : ∀ lexeme ∈ ([] : List Lexeme), lexeme.token.isBrace = false := by simp
  -- The first row is not a brace unless one of the same kind stands before it.
  suffices hrows : (∀ row ∈ rowsAfter previous lexemes,
      (∃ lexeme, row = [lexeme] ∧ lexeme.token.isBrace) ∨
        ∀ lexeme ∈ row, lexeme.token.isBrace = false) ∧
      ((∀ token, previous = some token → token.isBrace = false) →
        ∀ row, (rowsAfter previous lexemes).head? = some row →
          ∀ lexeme ∈ row, lexeme.token.isBrace = false) from hrows.1 row hrow
  clear hrow
  revert previous
  induction lexemes with
  | nil => simp [rowsAfter]
  | cons lexeme rest ih =>
      obtain ⟨hlater, hfirst⟩ := @ih (some lexeme.token)
      by_cases htoken : lexeme.token = .newline
      · rw [rowsAfter_lineBreak htoken]
        exact ⟨List.forall_mem_cons.mpr ⟨Or.inr hempty, hlater⟩, by simp⟩
      cases hbrace : lexeme.token.isBrace with
      | true =>
          have hsingle : ∀ row ∈ [lexeme] :: rowsAfter (some lexeme.token) rest,
              (∃ other, row = [other] ∧ other.token.isBrace) ∨
                ∀ other ∈ row, other.token.isBrace = false :=
            List.forall_mem_cons.mpr ⟨Or.inl ⟨lexeme, rfl, hbrace⟩, hlater⟩
          rw [rowsAfter_brace hbrace]
          split
          · rename_i hsame
            refine ⟨hsingle, fun hprevious => ?_⟩
            rw [hprevious _ hsame] at hbrace
            exact Bool.noConfusion hbrace
          · exact ⟨List.forall_mem_cons.mpr ⟨Or.inr hempty, hsingle⟩, by simp⟩
      | false =>
          rw [rowsAfter_other (endsRow_eq_false_iff.mpr ⟨htoken, hbrace⟩)]
          obtain ⟨row, later, hrows⟩ :=
            List.exists_cons_of_ne_nil (rowsAfter_ne_nil (some lexeme.token) rest)
          rw [hrows] at hlater hfirst ⊢
          have hrow : ∀ other ∈ lexeme :: row, other.token.isBrace = false := by
            refine List.forall_mem_cons.mpr ⟨hbrace, hfirst ?_ row rfl⟩
            rintro token ⟨rfl⟩
            exact hbrace
          rw [List.modifyHead_cons]
          exact ⟨List.forall_mem_cons.mpr ⟨Or.inr hrow, (List.forall_mem_cons.mp hlater).2⟩,
            by simpa using fun _ => hrow⟩

/-! ## What stands next to each other -/

theorem isCritical_of_isBlank (first : Char) {second : Char} (hblank : Blank.isBlank second) :
    isCritical first second = false := by
  have hsolid : ∀ char ∈ ['/', '*', '\"', '\\'], Blank.isBlank char = false :=
    Blank.not_isBlank_of_any (by decide)
  have hne : ∀ char ∈ ['/', '*', '\"', '\\'], second ≠ char := by
    rintro char hchar rfl
    rw [hsolid second hchar] at hblank
    exact absurd hblank Bool.false_ne_true
  simp [isCritical, beq_false_of_ne (hne '/' (by simp)), beq_false_of_ne (hne '*' (by simp)),
    beq_false_of_ne (hne '\"' (by simp)), beq_false_of_ne (hne '\\' (by simp))]

theorem meets_of_blank (front : List Char) {back : List Char}
    (hback : back.head?.all Blank.isBlank) : Meets front back := by
  intro last first _ hfirst
  rw [hfirst] at hback
  exact isCritical_of_isBlank last hback

/-- An entry that ends in the first character of a mark is set off from what follows. -/
theorem padsAfter_of_getLast? {token : Token} {char : Char}
    (hlast : token.spelling.getLast? = some char) (hchar : char = '/' ∨ char = '*' ∨ char = '\\')
    {lexeme : Lexeme} (htoken : lexeme.token = token) (previous next : Option Lexeme) :
    padsAfter previous lexeme next = true := by
  have hall : ∀ token ∈ Token.all, (token.spelling.getLast? = some '/' ∨
      token.spelling.getLast? = some '*' ∨ token.spelling.getLast? = some '\\') →
        token ∈ [.divide, .multiply, .commentOpen, .commentClose] := by
    decide
  have hmem := hall token (Token.mem_all token) (by rcases hchar with rfl | rfl | rfl <;> simp [hlast])
  simp only [List.mem_cons, List.not_mem_nil, or_false] at hmem
  unfold padsAfter
  rw [htoken]
  rcases hmem with rfl | rfl | rfl | rfl <;> rfl

theorem rowText_cons_eq (stream : List Lexeme) (previous : Option Lexeme) (first : Lexeme)
    (rest : List Lexeme) : ∃ back, rowText stream previous (first :: rest) = first.core ++ back := by
  cases rest with
  | nil => exact ⟨[], (List.append_nil _).symm⟩
  | cons second rest => exact ⟨_, by rw [rowText, List.append_assoc]⟩

/-- Lexemes without a space between them never meet in a critical pair of characters. -/
theorem meets_of_not_isGapped {previous next : Option Lexeme} {first second : Lexeme}
    (hfirst : first.IsShown) (hsecond : second.IsShown)
    (hfollows : MayTouch first.token second.token) {back : List Char} (hcore : second.core ≠ [])
    (hgap : isGapped stream previous first second next = false) :
    Meets first.core (second.core ++ back) := by
  rw [isGapped, Bool.or_eq_false_iff] at hgap
  intro last head hlast hhead
  rw [List.head?_append_of_ne_nil _ hcore] at hhead
  by_contra hcritical
  rw [Bool.not_eq_false] at hcritical
  have hpair : (last = '/' ∨ last = '*' ∨ last = '\\') ∧
      (last = '\\' → head = '\"' ∨ head = '\\') := by
    simp only [isCritical, Bool.or_eq_true, Bool.and_eq_true, beq_iff_eq] at hcritical
    rcases hcritical with (⟨rfl, -⟩ | ⟨rfl, -⟩) | ⟨rfl, hhead⟩
    · exact ⟨by simp, fun h => absurd h (by decide)⟩
    · exact ⟨by simp, fun h => absurd h (by decide)⟩
    · exact ⟨by simp, fun _ => hhead⟩
  rcases hfirst.cases with hentry | hplaceholder | htext
  · rw [(Lexeme.core_of_isTableEntry hentry).2] at hlast
    rw [padsAfter_of_getLast? hlast hpair.1 rfl] at hgap
    exact Bool.noConfusion hgap.1
  · simp [padsAfter, hplaceholder] at hgap
  · rw [(Lexeme.core_of_text htext).2] at hlast
    have hmem : ∀ char, Blank.isBlank char = false → last = char → char ∈ first.text := by
      rintro char hsolid rfl
      exact (Blank.mem_squeeze_iff hsolid).mp (List.mem_of_getLast? hlast)
    rcases hpair.1 with hslash | hstar | hbackslash
    · exact hfirst.not_mem_text htext (by decide) (hmem '/' (by decide) hslash)
    · exact hfirst.not_mem_text htext (by decide) (hmem '*' (by decide) hstar)
    · rcases hsecond.cases with hentry | hplaceholder | htext'
      · rw [(Lexeme.core_of_isTableEntry hentry).2] at hhead
        have hnot := second.token.quote_not_mem_spelling
        rcases hpair.2 hbackslash with rfl | rfl
        · exact hnot.1 (List.mem_of_head? hhead)
        · exact hnot.2 (List.mem_of_head? hhead)
      · simp [padsBefore, hplaceholder] at hgap
      · exact hfollows htext htext'

/-! ## The rows are laid out -/

theorem Laid.append_blanks {lexemes : List Lexeme} {atoms : List Atom} (hlaid : Laid lexemes atoms)
    {blanks : List Char} (hblanks : AllBlank blanks) :
    Laid lexemes (blanks.map .char ++ atoms) := by
  induction blanks with
  | nil => exact hlaid
  | cons char rest ih =>
      obtain ⟨hchar, hrest⟩ := Blank.allBlank_cons.mp hblanks
      exact .blank hchar (ih hrest)

theorem Laid.cons_atoms {lexeme : Lexeme} {lexemes : List Lexeme} {atoms : List Atom}
    (hlaid : Laid lexemes atoms) (hmeets : Meets lexeme.core (spell atoms))
    (hend : lexeme.token = .placeholder → IsLineComment lexeme.text →
      (spell atoms).head?.all (· = '\n')) :
    Laid (lexeme :: lexemes) (lexeme.atoms ++ atoms) := by
  rw [Lexeme.atoms]
  split
  · rename_i htoken
    rw [(Lexeme.core_of_placeholder htoken).2] at hmeets
    exact .literal htoken hmeets (hend htoken) hlaid
  · rename_i htoken
    exact .code htoken hmeets hlaid

structure IsRow (row : List Lexeme) : Prop where
  shown : ∀ lexeme ∈ row, lexeme.IsShown
  tight : ∀ lexeme ∈ row, IsTight lexeme.core
  follows : (row.map Lexeme.item).IsChain MayFollow
  brace : (∃ lexeme, row = [lexeme] ∧ lexeme.token.isBrace) ∨
    ∀ lexeme ∈ row, lexeme.token.isBrace = false

theorem IsRow.tail {first second : Lexeme} {rest : List Lexeme}
    (hrow : IsRow (first :: second :: rest)) : IsRow (second :: rest) where
  shown lexeme hlexeme := hrow.shown lexeme (List.mem_cons_of_mem _ hlexeme)
  tight lexeme hlexeme := hrow.tight lexeme (List.mem_cons_of_mem _ hlexeme)
  follows := (List.isChain_cons_cons.mp hrow.follows).2
  brace := by
    rcases hrow.brace with ⟨lexeme, hsingle, -⟩ | hnone
    · simp at hsingle
    · exact Or.inr fun lexeme hlexeme => hnone lexeme (List.mem_cons_of_mem _ hlexeme)

/-- Something follows the lexeme in its row, so it is no line comment. -/
theorem IsRow.not_isLineComment {first second : Lexeme} {rest : List Lexeme}
    (hrow : IsRow (first :: second :: rest)) (htoken : first.token = .placeholder) :
    ¬IsLineComment first.text := by
  intro hcomment
  have hfollows := (List.isChain_cons_cons.mp hrow.follows).1
  rcases hfollows.comment htoken hcomment with hbreak | hbrace
  · exact (hrow.shown second (by simp)).2 hbreak
  · rcases hrow.brace with ⟨lexeme, hsingle, -⟩ | hnone
    · simp at hsingle
    · have hnot : second.item.1.isBrace = false := hnone second (by simp)
      rw [hnot] at hbrace
      exact absurd hbrace Bool.false_ne_true

/-- A row is laid lexeme by lexeme: where no space stands between two of them, they mean nothing
together. -/
theorem laid_rowAtoms_append (stream : List Lexeme) {row : List Lexeme} (hrow : IsRow row)
    {lexemes : List Lexeme} {atoms : List Atom} (hlaid : Laid lexemes atoms)
    (hend : (spell atoms).head?.all (· = '\n')) (previous : Option Lexeme) :
    Laid (row ++ lexemes) (rowAtoms stream previous row ++ atoms) := by
  induction row generalizing previous with
  | nil => exact hlaid
  | cons first rest ih =>
      cases rest with
      | nil =>
          refine hlaid.cons_atoms (meets_of_blank _ ?_) fun _ _ => hend
          cases hhead : (spell atoms).head? with
          | none => rfl
          | some char =>
              rw [hhead, Option.all_some, decide_eq_true_eq] at hend
              rw [hend]
              decide
      | cons second rest =>
          have hlater := ih hrow.tail (some first)
          have hfollows := (List.isChain_cons_cons.mp hrow.follows).1
          rw [rowAtoms, List.append_assoc, List.append_assoc]
          refine (hlater.append_blanks (Blank.allBlank_padding _)).cons_atoms ?_ fun htoken hcomment =>
            absurd hcomment (hrow.not_isLineComment htoken)
          rw [spell_append, spell_map_char]
          cases hgap : isGapped stream previous first second rest.head? with
          | true => exact meets_of_blank _ Blank.isBlank_space
          | false =>
              obtain ⟨back, hback⟩ := rowText_cons_eq stream (some first) second rest
              rw [spell_append, spell_rowAtoms, hback, List.append_assoc]
              exact meets_of_not_isGapped (hrow.shown first (by simp)) (hrow.shown second (by simp))
                hfollows.raw (hrow.tight second (by simp)).ne_nil hgap

/-- Printed rows show their lexemes. -/
theorem laid_printAtoms {found : List (List Lexeme)} (hfound : ∀ row ∈ found, IsRow row)
    (depth : Int) : Laid found.flatten (printAtoms stream depth found) := by
  induction found generalizing depth with
  | nil => exact .done
  | cons row rest ih =>
      obtain ⟨hrow, hrest⟩ := List.forall_mem_cons.mp hfound
      rw [List.flatten_cons]
      cases rest with
      | nil =>
          have hlaid := laid_rowAtoms_append stream hrow .done rfl none
          rw [List.append_nil, List.append_nil] at hlaid
          rw [List.flatten_nil, List.append_nil]
          exact hlaid.append_blanks (Nesting.allBlank_indentation _)
      | cons next rest =>
          have hlaid := laid_rowAtoms_append stream hrow
            (.blank Blank.isBlank_lineFeed (ih hrest (depthAfterRow depth row))) rfl none
          rw [printAtoms, lineAtoms, List.append_assoc]
          exact hlaid.append_blanks (Nesting.allBlank_indentation _)

end ChuckLayout
