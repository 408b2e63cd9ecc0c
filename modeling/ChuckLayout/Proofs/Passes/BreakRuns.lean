import ChuckLayout.Proofs.Stability.Breaks

/-!
# Runs of line breaks next to braces

Line breaks come in runs, and a run is deleted or kept as a whole.  Main statement: what is deleted
are the longest runs that have a brace for a neighbour, and nothing else, so no line break is left
next to a brace and there is nothing to delete a second time.  Marking the line breaks around one
brace after another, in a list that changes on the way, comes to the same.
-/

namespace ChuckLayout.BraceBreaks

/-- A run of line breaks that is as long as it can be between what stands before and after it. -/
structure IsBreakRun (before run after : List Lexeme) : Prop where
  breaks : ∀ lexeme ∈ run, lexeme.token = .newline
  starts : ∀ lexeme ∈ before.getLast?, lexeme.token ≠ .newline
  ends : ∀ lexeme ∈ after.head?, lexeme.token ≠ .newline

/-- The place is in a longest run of line breaks that has a brace for a neighbour. -/
def IsNextToBrace (lexemes : List Lexeme) (place : Nat) : Prop :=
  ∃ before run after, lexemes = before ++ (run ++ after) ∧ IsBreakRun before run after ∧
    before.length ≤ place ∧ place < before.length + run.length ∧
    ((∃ brace ∈ before.getLast?, brace.token.isBrace) ∨ ∃ brace ∈ after.head?, brace.token.isBrace)

/-- Marks the line breaks at the front. -/
def markLeading : List Lexeme → List Lexeme
  | [] => []
  | lexeme :: rest =>
      if lexeme.token = .newline then { lexeme with dropped := true } :: markLeading rest
      else lexeme :: rest

/-- Marks the line breaks directly before and directly after the brace at `place`, if there is one. -/
def markAround (lexemes : List Lexeme) (place : Nat) : List Lexeme :=
  match lexemes.drop place with
  | [] => lexemes
  | brace :: after =>
      if brace.token.isBrace then
        (markLeading (lexemes.take place).reverse).reverse ++ brace :: markLeading after
      else lexemes

variable {lexemes before run after : List Lexeme}

/-! ## Runs -/

/-- Lexemes begin with a run of line breaks that is as long as it can be. -/
theorem exists_leading_breaks (lexemes : List Lexeme) :
    ∃ run rest, lexemes = run ++ rest ∧ (∀ lexeme ∈ run, lexeme.token = .newline) ∧
      ∀ lexeme ∈ rest.head?, lexeme.token ≠ .newline := by
  refine ⟨lexemes.takeWhile (·.token = .newline), lexemes.dropWhile (·.token = .newline),
    List.takeWhile_append_dropWhile.symm, ?_, ?_⟩
  · intro lexeme hlexeme
    simpa using List.mem_takeWhile_imp hlexeme
  · intro lexeme hlexeme
    have hhead := List.head?_dropWhile_not (fun lexeme : Lexeme => decide (lexeme.token = .newline))
      lexemes
    rw [Option.mem_def.mp hlexeme] at hhead
    simpa using hhead

theorem exists_trailing_breaks (lexemes : List Lexeme) :
    ∃ lead run, lexemes = lead ++ run ∧ (∀ lexeme ∈ run, lexeme.token = .newline) ∧
      ∀ lexeme ∈ lead.getLast?, lexeme.token ≠ .newline := by
  obtain ⟨run, lead, hreverse, hrun, hlead⟩ := exists_leading_breaks lexemes.reverse
  refine ⟨lead.reverse, run.reverse, ?_, ?_, ?_⟩
  · rw [← List.reverse_append, ← hreverse, List.reverse_reverse]
  · simpa using hrun
  · simpa using hlead

/-- Looking for a brace ahead ends at the first lexeme that is no line break. -/
theorem braceAhead_append_of_getLast? (hne : before ≠ [])
    (hends : ∀ lexeme ∈ before.getLast?, lexeme.token ≠ .newline) (rest : List Lexeme) :
    braceAhead (before ++ rest) = braceAhead before := by
  induction before with
  | nil => exact absurd rfl hne
  | cons lexeme before ih =>
      rw [List.cons_append, braceAhead, braceAhead]
      split
      · rename_i htoken
        have hlater : before ≠ [] := by
          rintro rfl
          exact hends lexeme rfl htoken
        apply ih hlater
        rwa [List.getLast?_cons_of_ne_nil hlater] at hends
      · rfl

theorem braceAhead_iff_of_head? (hhead : ∀ lexeme ∈ lexemes.head?, lexeme.token ≠ .newline) :
    braceAhead lexemes ↔ ∃ brace ∈ lexemes.head?, brace.token.isBrace := by
  cases lexemes with
  | nil => simp [braceAhead]
  | cons lexeme rest =>
      rw [braceAhead, if_neg (hhead lexeme rfl)]
      simp

/-- A brace lies ahead on either side of a place just when the run that the place is in is next to
a brace. -/
theorem isNextToBrace_append_cons (front : List Lexeme) (lexeme : Lexeme) (back : List Lexeme) :
    IsNextToBrace (front ++ lexeme :: back) front.length ↔
      lexeme.token = .newline ∧ (braceAhead front.reverse ∨ braceAhead back) := by
  have hahead : ∀ {lead left right tail : List Lexeme},
      IsBreakRun lead (left ++ lexeme :: right) tail →
        (braceAhead (lead ++ left).reverse ↔ ∃ brace ∈ lead.getLast?, brace.token.isBrace) ∧
          (braceAhead (right ++ tail) ↔ ∃ brace ∈ tail.head?, brace.token.isBrace) := by
    intro lead left right tail hrun
    have hleft : ∀ lexeme ∈ left.reverse, lexeme.token = .newline := by
      intro other hother
      exact hrun.breaks other (List.mem_append_left _ (List.mem_reverse.mp hother))
    have hright : ∀ lexeme ∈ right, lexeme.token = .newline := by
      intro other hother
      exact hrun.breaks other (List.mem_append_right _ (List.mem_cons_of_mem _ hother))
    have hstarts : ∀ lexeme ∈ lead.reverse.head?, lexeme.token ≠ .newline := by
      rw [List.head?_reverse]
      exact hrun.starts
    constructor
    · rw [List.reverse_append, braceAhead_append_of_breaks hleft, braceAhead_iff_of_head? hstarts,
        List.head?_reverse]
    · rw [braceAhead_append_of_breaks hright, braceAhead_iff_of_head? hrun.ends]
  constructor
  · rintro ⟨lead, run, tail, hsplit, hrun, hstart, hstop, hbrace⟩
    -- The place cuts the run in two.
    obtain ⟨offset, hoffset⟩ := Nat.exists_eq_add_of_le hstart
    have hinside : offset < run.length := by omega
    have hcut : run = run.take offset ++ run[offset] :: run.drop (offset + 1) := by
      rw [List.getElem_cons_drop, List.take_append_drop]
    rw [hcut, List.append_assoc, ← List.append_assoc, List.cons_append] at hsplit
    have hlength : front.length = (lead ++ run.take offset).length := by
      rw [List.length_append, List.length_take, hoffset]
      omega
    obtain ⟨hfront, hback⟩ := List.append_inj hsplit hlength
    obtain ⟨hlexeme, hlater⟩ := List.cons.inj hback
    rw [hcut, ← hlexeme] at hrun
    obtain ⟨hbehind, hbeyond⟩ := hahead hrun
    rw [hfront, hlater, hbehind, hbeyond]
    exact ⟨hrun.breaks lexeme (by simp), hbrace⟩
  · rintro ⟨htoken, hbrace⟩
    obtain ⟨lead, left, rfl, hleft, hstarts⟩ := exists_trailing_breaks front
    obtain ⟨right, tail, rfl, hright, hends⟩ := exists_leading_breaks back
    have hrun : IsBreakRun lead (left ++ lexeme :: right) tail := by
      refine ⟨?_, hstarts, hends⟩
      simpa [or_imp, forall_and, htoken] using ⟨hleft, hright⟩
    obtain ⟨hbehind, hbeyond⟩ := hahead hrun
    refine ⟨lead, left ++ lexeme :: right, tail, by simp, hrun, by simp, by simp, ?_⟩
    rwa [hbehind, hbeyond] at hbrace

/-- A line break is next to a brace when only line breaks stand between the two, on one side or the
other. -/
theorem isNextToBrace_iff {place : Nat} :
    IsNextToBrace lexemes place ↔
      lexemes[place]?.any (·.token = .newline) ∧
        (braceAhead (lexemes.take place).reverse ∨ braceAhead (lexemes.drop (place + 1))) := by
  by_cases hplace : place < lexemes.length
  · have hsplit : lexemes = lexemes.take place ++ lexemes[place] :: lexemes.drop (place + 1) := by
      rw [List.getElem_cons_drop, List.take_append_drop]
    have hlength : (lexemes.take place).length = place := by
      rw [List.length_take]
      omega
    have hiff := isNextToBrace_append_cons (lexemes.take place) lexemes[place]
      (lexemes.drop (place + 1))
    rw [← hsplit, hlength] at hiff
    rw [hiff, List.getElem?_eq_getElem hplace]
    simp
  · have hnone : lexemes[place]? = none := List.getElem?_eq_none (Nat.le_of_not_lt hplace)
    rw [hnone]
    constructor
    · rintro ⟨lead, run, tail, rfl, -, -, hstop, -⟩
      rw [List.length_append, List.length_append] at hplace
      omega
    · rintro ⟨hnever, -⟩
      exact absurd hnever Bool.false_ne_true

instance (lexemes : List Lexeme) (place : Nat) : Decidable (IsNextToBrace lexemes place) :=
  decidable_of_iff _ isNextToBrace_iff.symm

/-- What is kept of the lexemes after a front are those at places that are not next to a brace. -/
theorem keptFrom_eq_filter (front : List Lexeme)
    (hlexemes : ∀ lexeme ∈ lexemes, lexeme.dropped = false) :
    keptFrom (braceAhead front.reverse) lexemes =
      ((lexemes.zipIdx front.length).filter fun entry =>
        ¬IsNextToBrace (front ++ lexemes) entry.2).map Prod.fst := by
  induction lexemes generalizing front with
  | nil => rfl
  | cons lexeme rest ih =>
      obtain ⟨hdropped, hrest⟩ := List.forall_mem_cons.mp hlexemes
      have hlater := ih (front ++ [lexeme]) hrest
      rw [List.reverse_append, List.reverse_singleton, List.singleton_append, List.length_append,
        List.length_singleton, ← List.append_cons] at hlater
      have hplace := isNextToBrace_append_cons front lexeme rest
      rw [List.zipIdx_cons, List.filter_cons]
      by_cases htoken : lexeme.token = .newline
      · rw [braceAhead, if_pos htoken] at hlater
        rw [keptFrom_lineBreak htoken hdropped, hlater]
        by_cases hbrace : braceAhead front.reverse ∨ braceAhead rest
        · rw [if_pos (by simpa using hbrace), if_neg (by simp [hplace, htoken, hbrace])]
        · rw [if_neg (by simpa using hbrace), if_pos (by simp [hplace, hbrace]), List.map_cons]
      · rw [braceAhead, if_neg htoken] at hlater
        rw [keptFrom_other htoken hdropped, hlater, if_pos (by simp [hplace, htoken]),
          List.map_cons]

/-! ## One brace after another -/

def markedIf (flag : Bool) (lexeme : Lexeme) : Lexeme :=
  { lexeme with dropped := lexeme.dropped || flag }

/-- A run of line breaks is marked as a whole or not at all. -/
theorem markFrom_append_of_breaks (hrun : ∀ lexeme ∈ run, lexeme.token = .newline)
    (afterBrace : Bool) (rest : List Lexeme) :
    markFrom afterBrace (run ++ rest) =
      run.map (markedIf (afterBrace || braceAhead rest)) ++ markFrom afterBrace rest := by
  induction run with
  | nil => rfl
  | cons lexeme run ih =>
      obtain ⟨htoken, hlater⟩ := List.forall_mem_cons.mp hrun
      rw [List.cons_append, markFrom, if_pos htoken, ih hlater, braceAhead_append_of_breaks hlater,
        Bool.or_assoc]
      rfl

theorem markFrom_append_of_getLast? (front : List Lexeme)
    (hends : ∀ lexeme ∈ before.getLast?, lexeme.token ≠ .newline) (rest : List Lexeme) :
    markFrom (braceAhead front.reverse) (before ++ rest) =
      markFrom (braceAhead front.reverse) before ++
        markFrom (braceAhead (front ++ before).reverse) rest := by
  induction before generalizing front with
  | nil => rw [List.append_nil]; rfl
  | cons lexeme before ih =>
      have hlater : ∀ other ∈ before.getLast?, other.token ≠ .newline := by
        intro other hother
        apply hends
        rw [List.getLast?_cons, hother]
        rfl
      have hstep := ih (front ++ [lexeme]) hlater
      rw [← List.append_cons, List.reverse_append, List.reverse_singleton,
        List.singleton_append] at hstep
      rw [List.cons_append, markFrom, markFrom]
      by_cases htoken : lexeme.token = .newline
      · have hne : before ≠ [] := by
          rintro rfl
          exact hends lexeme rfl htoken
        rw [braceAhead, if_pos htoken] at hstep
        rw [if_pos htoken, if_pos htoken, hstep, braceAhead_append_of_getLast? hne hlater,
          List.cons_append]
      · rw [braceAhead, if_neg htoken] at hstep
        rw [if_neg htoken, if_neg htoken, hstep, List.cons_append]

/-- The marks of a longest run of line breaks, between those of what stands before and after it. -/
theorem mark_append_append (hrun : ∀ lexeme ∈ run, lexeme.token = .newline)
    (hends : ∀ lexeme ∈ before.getLast?, lexeme.token ≠ .newline) (rest : List Lexeme) :
    mark (before ++ (run ++ rest)) =
      mark before ++ (run.map (markedIf (braceAhead before.reverse || braceAhead rest)) ++
        markFrom (braceAhead before.reverse) rest) := by
  have happend := markFrom_append_of_getLast? [] hends (run ++ rest)
  rw [List.nil_append, markFrom_append_of_breaks hrun] at happend
  exact happend

theorem markLeading_append (hrun : ∀ lexeme ∈ run, lexeme.token = .newline)
    (hhead : ∀ lexeme ∈ after.head?, lexeme.token ≠ .newline) :
    markLeading (run ++ after) = run.map (markedIf true) ++ after := by
  induction run with
  | nil =>
      cases after with
      | nil => rfl
      | cons lexeme after => exact if_neg (hhead lexeme rfl)
  | cons lexeme run ih =>
      obtain ⟨htoken, hlater⟩ := List.forall_mem_cons.mp hrun
      rw [List.cons_append, markLeading, if_pos htoken, ih hlater, List.map_cons, markedIf,
        Bool.or_true, List.cons_append]

theorem length_markFrom (afterBrace : Bool) (lexemes : List Lexeme) :
    (markFrom afterBrace lexemes).length = lexemes.length := by
  have hitems := congrArg List.length (map_item_markFrom afterBrace lexemes)
  rwa [List.length_map, List.length_map] at hitems

theorem mark_getLast?_ne (hends : ∀ lexeme ∈ before.getLast?, lexeme.token ≠ .newline) :
    ∀ lexeme ∈ (mark before).getLast?, lexeme.token ≠ .newline := by
  intro lexeme hlexeme
  have hitems := congrArg List.getLast? (map_item_markFrom false before)
  rw [List.getLast?_map, List.getLast?_map, ← mark, Option.mem_def.mp hlexeme] at hitems
  obtain ⟨last, hlast, hitem⟩ := Option.map_eq_some_iff.mp hitems.symm
  have htoken : last.token = lexeme.token := congrArg Prod.fst hitem
  rw [← htoken]
  exact hends last hlast

theorem mark_append_of_breaks (hrun : ∀ lexeme ∈ run, lexeme.token = .newline)
    (hends : ∀ lexeme ∈ before.getLast?, lexeme.token ≠ .newline) :
    mark (before ++ run) = mark before ++ run.map (markedIf (braceAhead before.reverse)) := by
  have hmark := mark_append_append hrun hends []
  rwa [markFrom, List.append_nil, List.append_nil, braceAhead, Bool.or_false] at hmark

/-- A lexeme that is put at the end marks the run before it if it is a brace. -/
theorem mark_append_concat (hrun : ∀ lexeme ∈ run, lexeme.token = .newline)
    (hends : ∀ lexeme ∈ before.getLast?, lexeme.token ≠ .newline) {lexeme : Lexeme}
    (htoken : lexeme.token ≠ .newline) :
    mark (before ++ run ++ [lexeme]) =
      mark before ++ run.map (markedIf (braceAhead before.reverse || lexeme.token.isBrace)) ++
        [lexeme] := by
  rw [List.append_assoc, mark_append_append hrun hends, braceAhead, if_neg htoken, markFrom,
    if_neg htoken, markFrom, List.append_assoc]

section

variable (front : List Lexeme) {lexeme : Lexeme}

/-- A line break at the end is marked if a brace stands before its run. -/
theorem mark_concat_lineBreak (htoken : lexeme.token = .newline) :
    mark (front ++ [lexeme]) = mark front ++ [markedIf (braceAhead front.reverse) lexeme] := by
  obtain ⟨lead, run, rfl, hrun, hends⟩ := exists_trailing_breaks front
  have hlonger : ∀ other ∈ run ++ [lexeme], other.token = .newline := by
    simpa [or_imp, forall_and, htoken] using hrun
  have hbehind : braceAhead (lead ++ run).reverse = braceAhead lead.reverse := by
    rw [List.reverse_append, braceAhead_append_of_breaks]
    simpa using hrun
  rw [List.append_assoc, mark_append_of_breaks hlonger hends, mark_append_of_breaks hrun hends,
    hbehind, List.map_append, List.append_assoc]
  rfl

/-- What ends a run of line breaks and is no brace leaves their marks as they are. -/
theorem mark_concat_other (htoken : lexeme.token ≠ .newline) (hbrace : lexeme.token.isBrace = false) :
    mark (front ++ [lexeme]) = mark front ++ [lexeme] := by
  obtain ⟨lead, run, rfl, hrun, hends⟩ := exists_trailing_breaks front
  rw [mark_append_concat hrun hends htoken, mark_append_of_breaks hrun hends, hbrace,
    Bool.or_false]

/-- A brace has the line breaks directly before it marked. -/
theorem mark_concat_brace (hbrace : lexeme.token.isBrace = true) :
    mark (front ++ [lexeme]) = (markLeading (mark front).reverse).reverse ++ [lexeme] := by
  obtain ⟨lead, run, rfl, hrun, hends⟩ := exists_trailing_breaks front
  have htoken : lexeme.token ≠ .newline := by
    intro hnewline
    rw [hnewline] at hbrace
    exact absurd hbrace (by decide)
  have hbreaks : ∀ flag, ∀ other ∈ (run.map (markedIf flag)).reverse, other.token = .newline := by
    intro flag other hother
    rw [List.mem_reverse] at hother
    obtain ⟨same, hsame, rfl⟩ := List.mem_map.mp hother
    exact hrun same hsame
  have hhead : ∀ other ∈ (mark lead).reverse.head?, other.token ≠ .newline := by
    rw [List.head?_reverse]
    exact mark_getLast?_ne hends
  have htwice : ∀ flag, markedIf true ∘ markedIf flag = markedIf true := by
    intro flag
    funext other
    simp [markedIf]
  rw [mark_append_concat hrun hends htoken, mark_append_of_breaks hrun hends, hbrace, Bool.or_true,
    List.reverse_append, markLeading_append (hbreaks _) hhead, List.map_reverse, List.map_map,
    htwice, List.reverse_append, List.reverse_reverse, List.reverse_reverse]

end

theorem markAround_append_cons (front : List Lexeme) (lexeme : Lexeme) (back : List Lexeme) :
    markAround (front ++ lexeme :: back) front.length =
      if lexeme.token.isBrace then
        (markLeading front.reverse).reverse ++ lexeme :: markLeading back
      else front ++ lexeme :: back := by
  rw [markAround, List.drop_left, List.take_left]

def markRest (afterBrace : Bool) (lexemes : List Lexeme) : List Lexeme :=
  if afterBrace then markLeading lexemes else lexemes

/-- Once the braces before a place are done with, the lexemes before it are marked as if nothing
came after them. -/
theorem foldl_markAround (front back : List Lexeme) :
    (List.range front.length).foldl markAround (front ++ back) =
      mark front ++ markRest (braceAhead front.reverse) back := by
  induction front using List.reverseRecOn generalizing back with
  | nil => rfl
  | append_singleton front lexeme ih =>
      have hlength : (mark front).length = front.length := length_markFrom false front
      rw [List.length_append, List.length_singleton, List.range_succ, List.foldl_append,
        List.append_assoc, List.singleton_append, ih, List.foldl_cons, List.foldl_nil, ← hlength,
        List.reverse_append, List.reverse_singleton, List.singleton_append, braceAhead]
      by_cases htoken : lexeme.token = .newline
      · have hplain : ∀ flag, (markedIf flag lexeme).token.isBrace = false := by
          intro flag
          rw [markedIf, htoken]
          rfl
        have hrest : ∀ flag, markRest flag (lexeme :: back) =
            markedIf flag lexeme :: markRest flag back := by
          intro flag
          cases flag
          · simp [markRest, markedIf]
          · simp [markRest, markedIf, markLeading, htoken]
        rw [if_pos htoken, hrest, markAround_append_cons, hplain, mark_concat_lineBreak front htoken,
          List.append_assoc]
        rfl
      · have hrest : ∀ flag, markRest flag (lexeme :: back) = lexeme :: back := by
          intro flag
          cases flag
          · rfl
          · exact if_neg htoken
        rw [if_neg htoken, hrest, markAround_append_cons]
        cases hbrace : lexeme.token.isBrace with
        | true =>
            rw [if_pos rfl, mark_concat_brace front hbrace, List.append_assoc]
            rfl
        | false =>
            rw [if_neg Bool.false_ne_true, mark_concat_other front htoken hbrace, List.append_assoc]
            rfl

/-- Marking around one brace after the other comes to the same as the single pass. -/
theorem foldl_markAround_eq_mark (lexemes : List Lexeme) :
    (List.range lexemes.length).foldl markAround lexemes = mark lexemes := by
  have hloop := foldl_markAround lexemes []
  rw [List.append_nil] at hloop
  rw [hloop, markRest, markLeading, ite_self, List.append_nil]

/-! ## What is left -/

/-- One of the two is a line break, and the other is a brace. -/
def IsBreakBesideBrace (first second : Lexeme) : Prop :=
  (first.token = .newline ∧ second.token.isBrace) ∨ (first.token.isBrace ∧ second.token = .newline)

instance (first second : Lexeme) : Decidable (IsBreakBesideBrace first second) :=
  inferInstanceAs (Decidable (_ ∨ _))

/-- Where all line breaks are kept none is beside a brace. -/
theorem isChain_of_kept {afterBrace : Bool} (hkept : Kept afterBrace lexemes) :
    lexemes.IsChain fun first second => ¬IsBreakBesideBrace first second := by
  induction lexemes generalizing afterBrace with
  | nil => exact .nil
  | cons lexeme rest ih =>
      obtain ⟨hbreak, hrest⟩ := hkept
      apply List.IsChain.cons (ih hrest)
      intro next hnext
      obtain ⟨later, rfl⟩ := List.head?_eq_some_iff.mp hnext
      rintro (⟨htoken, hbrace⟩ | ⟨hbrace, htoken⟩)
      · obtain ⟨-, hahead⟩ := hbreak htoken
        have hnewline : next.token ≠ .newline := by
          intro hsame
          rw [hsame] at hbrace
          exact absurd hbrace (by decide)
        rw [braceAhead, if_neg hnewline, hbrace] at hahead
        exact Bool.false_ne_true hahead.symm
      · obtain ⟨hafter, -⟩ := hrest.1 htoken
        rw [hbrace] at hafter
        exact Bool.false_ne_true hafter.symm

/-- A second pass finds nothing to drop. -/
theorem keptFrom_of_kept {afterBrace : Bool} (hlexemes : ∀ lexeme ∈ lexemes, lexeme.dropped = false)
    (hkept : Kept afterBrace lexemes) : keptFrom afterBrace lexemes = lexemes := by
  induction lexemes generalizing afterBrace with
  | nil => rfl
  | cons lexeme rest ih =>
      obtain ⟨hdropped, hlater⟩ := List.forall_mem_cons.mp hlexemes
      obtain ⟨hbreak, hrest⟩ := hkept
      have hsame := ih hlater hrest
      by_cases htoken : lexeme.token = .newline
      · obtain ⟨hafter, hahead⟩ := hbreak htoken
        rw [htoken] at hsame
        rw [keptFrom_lineBreak htoken hdropped, hafter, hahead, Bool.or_false,
          if_neg Bool.false_ne_true]
        exact congrArg _ hsame
      · rw [keptFrom_other htoken hdropped, hsame]

theorem dropped_of_mem_suppress {lexeme : Lexeme} (hlexeme : lexeme ∈ suppress lexemes) :
    lexeme.dropped = false := by
  obtain ⟨-, hdropped⟩ := List.mem_filter.mp hlexeme
  simpa using hdropped

/-- Exactly the longest runs of line breaks with a brace for a neighbour are deleted, which is also
what comes of marking the line breaks around one brace after another.  No line break is left next to
a brace, nothing that is left is marked, and a second time nothing is deleted. -/
theorem suppress_deletes_runs (lexemes : List Lexeme)
    (hlexemes : ∀ lexeme ∈ lexemes, lexeme.dropped = false) :
    suppress lexemes =
        (lexemes.zipIdx.filter fun entry => ¬IsNextToBrace lexemes entry.2).map Prod.fst ∧
      ((List.range lexemes.length).foldl markAround lexemes).filter (fun lexeme => !lexeme.dropped) =
        suppress lexemes ∧
      ((suppress lexemes).IsChain fun first second => ¬IsBreakBesideBrace first second) ∧
      (∀ lexeme ∈ suppress lexemes, lexeme.dropped = false) ∧
      suppress (suppress lexemes) = suppress lexemes := by
  have hkept : Kept false (suppress lexemes) := kept_keptFrom hlexemes false
  have hundropped : ∀ lexeme ∈ suppress lexemes, lexeme.dropped = false := by
    intro lexeme hlexeme
    exact dropped_of_mem_suppress hlexeme
  refine ⟨?_, ?_, ?_, ?_, ?_⟩
  · exact keptFrom_eq_filter [] hlexemes
  · rw [foldl_markAround_eq_mark, suppress]
  · exact isChain_of_kept hkept
  · exact hundropped
  · exact keptFrom_of_kept hundropped hkept

/-- A run before a brace, one between two braces, one between two words and one at the end. -/
theorem suppress_deletes_runs_block :
    let token (token : Token) : Lexeme := { token, text := token.spelling }
    let word : Lexeme := { token := .text, text := ['x'] }
    let lexemes := [token .closeParen, .lineBreak, .lineBreak, token .openBrace, .lineBreak,
      .lineBreak, token .openBrace, word, .lineBreak, .lineBreak, word, token .closeBrace, .lineBreak]
    (∀ lexeme ∈ lexemes, lexeme.dropped = false) ∧
      suppress lexemes = [token .closeParen, token .openBrace, token .openBrace, word, .lineBreak,
        .lineBreak, word, token .closeBrace] ∧
      suppress (suppress lexemes) = suppress lexemes ∧
      suppress lexemes =
        (lexemes.zipIdx.filter fun entry => ¬IsNextToBrace lexemes entry.2).map Prod.fst := by
  intro token word lexemes
  have hlexemes : ∀ lexeme ∈ lexemes, lexeme.dropped = false := by decide
  obtain ⟨hruns, -, -, -, htwice⟩ := suppress_deletes_runs lexemes hlexemes
  exact ⟨hlexemes, by decide, htwice, hruns⟩

end ChuckLayout.BraceBreaks
