import ChuckLayout.Proofs.Stability.Brackets
import Mathlib.Data.List.Nodup

/-!
# Brackets paired with a stack

Each opening bracket looks for its partner on its own, with a count of the brackets that are open
within it.  One pass with a stack finds the same pairs.  So no closing bracket is claimed twice, the
pairs nest, and a bracket and its partner agree on each other and on the spaces along them.
-/

namespace ChuckLayout.BracketPairs

/-- The pairs that one pass with a stack finds in lexemes that start at `place`: an opening bracket
is put on the stack, and a closing bracket takes the top off, if there is one. -/
def stackPairs (stack : List Nat) (place : Nat) : List Lexeme → List (Nat × Nat)
  | [] => []
  | lexeme :: rest =>
      if lexeme.token = .openSquare then stackPairs (place :: stack) (place + 1) rest
      else if lexeme.token = .closeSquare then
        match stack with
        | [] => stackPairs [] (place + 1) rest
        | opener :: outer => (opener, place) :: stackPairs outer (place + 1) rest
      else stackPairs stack (place + 1) rest

section

variable {lexeme : Lexeme} {rest : List Lexeme} (stack : List Nat) (place : Nat)

theorem stackPairs_openSquare (htoken : lexeme.token = .openSquare) :
    stackPairs stack place (lexeme :: rest) = stackPairs (place :: stack) (place + 1) rest := by
  rw [stackPairs.eq_def]
  exact if_pos htoken

theorem stackPairs_closeSquare_nil (htoken : lexeme.token = .closeSquare) :
    stackPairs [] place (lexeme :: rest) = stackPairs [] (place + 1) rest := by
  rw [stackPairs, htoken, if_neg Token.noConfusion, if_pos rfl]

theorem stackPairs_closeSquare_cons (htoken : lexeme.token = .closeSquare) (opener : Nat) :
    stackPairs (opener :: stack) place (lexeme :: rest) =
      (opener, place) :: stackPairs stack (place + 1) rest := by
  rw [stackPairs, htoken, if_neg Token.noConfusion, if_pos rfl]

theorem stackPairs_other (hopen : lexeme.token ≠ .openSquare)
    (hclose : lexeme.token ≠ .closeSquare) :
    stackPairs stack place (lexeme :: rest) = stackPairs stack (place + 1) rest := by
  rw [stackPairs.eq_def]
  exact (if_neg hopen).trans (if_neg hclose)

end

/-! ## What a pass with a stack finds -/

/-- What a stack looks like at `place`: later brackets are above earlier ones. -/
structure IsStack (place : Nat) (stack : List Nat) : Prop where
  descending : stack.Pairwise (· > ·)
  before : ∀ opener ∈ stack, opener < place

namespace IsStack

variable {place : Nat} {stack : List Nat}

theorem nil (place : Nat) : IsStack place [] where
  descending := .nil
  before _ hopener := absurd hopener List.not_mem_nil

theorem next (hstack : IsStack place stack) : IsStack (place + 1) stack where
  descending := hstack.descending
  before opener hopener := Nat.lt_succ_of_lt (hstack.before opener hopener)

theorem push (hstack : IsStack place stack) : IsStack (place + 1) (place :: stack) where
  descending := List.pairwise_cons.mpr ⟨hstack.before, hstack.descending⟩
  before := List.forall_mem_cons.mpr ⟨Nat.lt_succ_self place, hstack.next.before⟩

theorem pop {opener : Nat} (hstack : IsStack place (opener :: stack)) : IsStack place stack where
  descending := hstack.descending.of_cons
  before := (List.forall_mem_cons.mp hstack.before).2

end IsStack

/-- A pair closes before the other, and the other is within neither or around all of it. -/
def ClosesBefore (first second : Nat × Nat) : Prop :=
  first.2 < second.2 ∧ (second.1 < first.1 ∨ first.2 < second.1)

variable {lexemes : List Lexeme} {opener closer : Nat}

/-- A lexeme takes the top off the stack and closes it, or it finds no pair and leaves what is open
on the stack, with its own place on top where it opens. -/
theorem stackPairs_cons_cases (stack : List Nat) (place : Nat) (lexeme : Lexeme)
    (rest : List Lexeme) :
    (∃ top outer, lexeme.token = .closeSquare ∧ stack = top :: outer ∧
      stackPairs stack place (lexeme :: rest) =
        (top, place) :: stackPairs outer (place + 1) rest) ∨
    ∃ later, (IsStack place stack → IsStack (place + 1) later) ∧
      (∀ opener ∈ later, opener ∈ stack ∨ opener = place) ∧
      stackPairs stack place (lexeme :: rest) = stackPairs later (place + 1) rest := by
  by_cases hopen : lexeme.token = .openSquare
  · refine .inr ⟨place :: stack, IsStack.push, ?_, stackPairs_openSquare stack place hopen⟩
    intro opener hopener
    exact (List.mem_cons.mp hopener).symm
  by_cases hclose : lexeme.token = .closeSquare
  · cases stack with
    | nil =>
        exact .inr ⟨[], IsStack.next, fun _ => .inl, stackPairs_closeSquare_nil place hclose⟩
    | cons top outer =>
        exact .inl ⟨top, outer, hclose, rfl, stackPairs_closeSquare_cons outer place hclose top⟩
  · exact .inr ⟨stack, IsStack.next, fun _ => .inl, stackPairs_other stack place hopen hclose⟩

/-- A pair opens on the stack or later, and closes after it opens and within the lexemes that are
left. -/
theorem bounds_of_mem_stackPairs {place : Nat} {stack : List Nat} (hstack : IsStack place stack)
    (hpair : (opener, closer) ∈ stackPairs stack place lexemes) :
    (opener ∈ stack ∨ place ≤ opener) ∧ opener < closer ∧ place ≤ closer ∧
      closer < place + lexemes.length := by
  induction lexemes generalizing stack place with
  | nil => exact absurd hpair List.not_mem_nil
  | cons lexeme rest ih =>
      rw [List.length_cons]
      rcases stackPairs_cons_cases stack place lexeme rest with
        ⟨top, outer, -, rfl, heq⟩ | ⟨later, hlater, hopeners, heq⟩
      · rw [heq] at hpair
        cases List.mem_cons.mp hpair with
        | inl hhead =>
            obtain ⟨rfl, rfl⟩ := Prod.mk.inj hhead
            have htop := hstack.before opener List.mem_cons_self
            exact ⟨.inl List.mem_cons_self, htop, le_refl _, by omega⟩
        | inr hrest =>
            obtain ⟨hwhere, horder, hlow, hhigh⟩ := ih hstack.pop.next hrest
            exact ⟨hwhere.imp (List.mem_cons_of_mem top) le_of_lt, horder, by omega, by omega⟩
      · rw [heq] at hpair
        obtain ⟨hwhere, horder, hlow, hhigh⟩ := ih (hlater hstack) hpair
        refine ⟨?_, horder, by omega, by omega⟩
        cases hwhere with
        | inl hmem => exact (hopeners opener hmem).imp_right fun hplace => hplace.ge
        | inr hnew => exact .inr (le_of_lt hnew)

theorem closeSquare_of_mem_stackPairs {place : Nat} {stack : List Nat}
    (hpair : (opener, closer) ∈ stackPairs stack place lexemes) :
    ∃ index lexeme, closer = place + index ∧ lexemes[index]? = some lexeme ∧
      lexeme.token = .closeSquare := by
  induction lexemes generalizing stack place with
  | nil => exact absurd hpair List.not_mem_nil
  | cons first rest ih =>
      have hlater : ∀ {later : List Nat}, (opener, closer) ∈ stackPairs later (place + 1) rest →
          ∃ index lexeme, closer = place + index ∧ (first :: rest)[index]? = some lexeme ∧
            lexeme.token = .closeSquare := by
        intro later hmem
        obtain ⟨index, lexeme, hplace, hlexeme, htoken⟩ := ih hmem
        exact ⟨index + 1, lexeme, by omega, hlexeme, htoken⟩
      rcases stackPairs_cons_cases stack place first rest with
        ⟨top, outer, hclose, rfl, heq⟩ | ⟨later, -, -, heq⟩
      · rw [heq] at hpair
        cases List.mem_cons.mp hpair with
        | inl hhead => exact ⟨0, first, (Prod.mk.inj hhead).2, rfl, hclose⟩
        | inr hrest => exact hlater hrest
      · rw [heq] at hpair
        exact hlater hpair

/-- The pairs are found in the order in which they close, and they nest. -/
theorem pairwise_stackPairs {place : Nat} {stack : List Nat} (hstack : IsStack place stack)
    (lexemes : List Lexeme) : (stackPairs stack place lexemes).Pairwise ClosesBefore := by
  induction lexemes generalizing stack place with
  | nil => exact .nil
  | cons lexeme rest ih =>
      rcases stackPairs_cons_cases stack place lexeme rest with
        ⟨top, outer, -, rfl, heq⟩ | ⟨later, hlater, -, heq⟩
      · rw [heq]
        refine List.pairwise_cons.mpr ⟨?_, ih hstack.pop.next⟩
        rintro ⟨opener, closer⟩ hpair
        obtain ⟨hwhere, -, hlow, -⟩ := bounds_of_mem_stackPairs hstack.pop.next hpair
        refine ⟨hlow, ?_⟩
        -- The other pair was open already, below the one that closes, or opens later.
        cases hwhere with
        | inl houter => exact .inl (List.rel_of_pairwise_cons hstack.descending houter)
        | inr hlater => exact .inr hlater
      · rw [heq]
        exact ih (hlater hstack)

/-- A distance from the next place is one more from this place. -/
theorem map_add_one_map_add (place : Nat) (distance? : Option Nat) :
    (distance?.map (· + 1)).map (place + ·) = distance?.map (place + 1 + ·) := by
  rw [Option.map_map]
  congr 1
  funext distance
  simp only [Function.comp_apply]
  omega

/-- A pass with a stack finds a partner for the brackets on the stack and for the brackets to come:
each one finds it where its own count says so. -/
theorem mem_stackPairs_iff (stack : List Nat) (place : Nat) (lexemes : List Lexeme) :
    (opener, closer) ∈ stackPairs stack place lexemes ↔
      (∃ depth, stack[depth]? = some opener ∧
        (distanceToCloser? depth lexemes).map (place + ·) = some closer) ∨
      ⟨opener, some closer⟩ ∈ openingsFrom place lexemes := by
  induction lexemes generalizing stack place with
  | nil => simp [stackPairs, distanceToCloser?, openingsFrom]
  | cons lexeme rest ih =>
      by_cases hopen : lexeme.token = .openSquare
      · rw [stackPairs_openSquare stack place hopen, ih, openingsFrom, if_pos hopen, List.mem_cons]
        simp only [distanceToCloser?_openSquare _ _ hopen, map_add_one_map_add]
        rw [← or_assoc]
        apply or_congr_left
        constructor
        · rintro ⟨depth, hdepth, hdistance⟩
          cases depth with
          | zero =>
              rw [List.getElem?_cons_zero, Option.some.injEq] at hdepth
              exact .inr (by rw [hdistance, hdepth])
          | succ depth => exact .inl ⟨depth, hdepth, hdistance⟩
        · rintro (⟨depth, hdepth, hdistance⟩ | hopening)
          · exact ⟨depth + 1, hdepth, hdistance⟩
          · obtain ⟨rfl, hdistance⟩ := Opening.mk.inj hopening
            exact ⟨0, rfl, hdistance.symm⟩
      by_cases hclose : lexeme.token = .closeSquare
      · rw [openingsFrom, if_neg hopen]
        simp only [distanceToCloser?_closeSquare _ _ hclose]
        cases stack with
        | nil => rw [stackPairs_closeSquare_nil place hclose, ih]; simp
        | cons top outer =>
            rw [stackPairs_closeSquare_cons outer place hclose, List.mem_cons, ih, ← or_assoc]
            apply or_congr_left
            constructor
            · rintro (hhead | ⟨depth, hdepth, hdistance⟩)
              · obtain ⟨rfl, rfl⟩ := Prod.mk.inj hhead
                exact ⟨0, rfl, rfl⟩
              · refine ⟨depth + 1, hdepth, ?_⟩
                rw [if_neg (Nat.succ_ne_zero depth), Nat.add_sub_cancel, map_add_one_map_add,
                  hdistance]
            · rintro ⟨depth, hdepth, hdistance⟩
              cases depth with
              | zero =>
                  rw [List.getElem?_cons_zero, Option.some.injEq] at hdepth
                  rw [if_pos rfl, Option.map_some, Option.some.injEq] at hdistance
                  exact .inl (by rw [hdepth, ← hdistance, Nat.add_zero])
              | succ depth =>
                  rw [if_neg (Nat.succ_ne_zero depth), Nat.add_sub_cancel, map_add_one_map_add]
                    at hdistance
                  exact .inr ⟨depth, hdepth, hdistance⟩
      · rw [stackPairs_other stack place hopen hclose, ih, openingsFrom, if_neg hopen]
        simp only [distanceToCloser?_other _ _ hopen hclose, map_add_one_map_add]

/-! ## The pairs of a stream -/

def pairs (lexemes : List Lexeme) : List (Nat × Nat) :=
  stackPairs [] 0 lexemes

theorem mem_pairs_iff :
    (opener, closer) ∈ pairs lexemes ↔ ⟨opener, some closer⟩ ∈ openings lexemes := by
  rw [pairs, mem_stackPairs_iff, openings]
  simp

/-- A closing bracket is in one pair only. -/
theorem eq_of_mem_pairs {other : Nat} (hopener : (opener, closer) ∈ pairs lexemes)
    (hother : (other, closer) ∈ pairs lexemes) : opener = other := by
  have hclosers : ((pairs lexemes).map Prod.snd).Nodup := by
    rw [List.Nodup, List.pairwise_map]
    apply (pairwise_stackPairs (IsStack.nil 0) lexemes).imp
    intro first second hbefore
    exact Nat.ne_of_lt hbefore.1
  have hsame := List.inj_on_of_nodup_map hclosers hopener hother rfl
  exact (Prod.mk.inj hsame).1

/-- The search from an opening bracket finds the partner that the stack gives it. -/
theorem closerOf?_eq_some_iff :
    closerOf? (openings lexemes) opener = some closer ↔ (opener, closer) ∈ pairs lexemes := by
  rw [mem_pairs_iff]
  constructor
  · intro hcloser
    obtain ⟨opening, hfound, hpartner⟩ := Option.bind_eq_some_iff.mp hcloser
    have hplace := List.find?_some hfound
    rw [decide_eq_true_eq] at hplace
    rw [← hplace, ← hpartner]
    exact List.mem_of_find?_eq_some hfound
  · intro hopening
    exact (closerOf?_of_mem hopening).1

theorem openerOf?_eq_some_iff :
    openerOf? (openings lexemes) closer = some opener ↔ (opener, closer) ∈ pairs lexemes := by
  constructor
  · intro hopener
    exact closerOf?_eq_some_iff.mp (exists_of_openerOf? hopener).1
  · intro hpair
    cases hfound : openerOf? (openings lexemes) closer with
    | none =>
        rw [openerOf?, Option.map_eq_none_iff, List.find?_eq_none] at hfound
        exact absurd (decide_eq_true rfl) (hfound _ (mem_pairs_iff.mp hpair))
    | some other =>
        have hother := closerOf?_eq_some_iff.mp (exists_of_openerOf? hfound).1
        rw [eq_of_mem_pairs hpair hother]

/-- What stands at the places of a pair. -/
theorem exists_of_mem_pairs (hpair : (opener, closer) ∈ pairs lexemes) :
    ∃ first last, lexemes[opener]? = some first ∧ first.token = .openSquare ∧
      lexemes[closer]? = some last ∧ last.token = .closeSquare := by
  obtain ⟨-, first, hfirst, hopen⟩ := exists_of_openerOf? (openerOf?_eq_some_iff.mpr hpair)
  obtain ⟨index, last, hplace, hlast, hclose⟩ := closeSquare_of_mem_stackPairs hpair
  rw [Nat.zero_add] at hplace
  exact ⟨first, last, hfirst, hopen, hplace ▸ hlast, hclose⟩

/-! ## One opening bracket after another -/

/-- Tells the opening bracket at `place` and its partner, if it has one, of each other. -/
def tell (lexemes : List Lexeme) (place : Nat) : Option Nat → List Lexeme
  | some closer =>
      (lexemes.modify place fun bracket =>
        { bracket with partner := some closer, enclosed := some ⟨place + 1, closer⟩ }).modify
          closer fun bracket => { bracket with partner := some place }
  | none =>
      lexemes.modify place fun bracket =>
        { bracket with enclosed := some ⟨place + 1, lexemes.length⟩ }

/-- Links the opening bracket at `place`, if one is there. -/
def linkOpening (lexemes : List Lexeme) (place : Nat) : List Lexeme :=
  match lexemes.drop place with
  | [] => lexemes
  | lexeme :: rest =>
      if lexeme.token = .openSquare then
        tell lexemes place ((distanceToCloser? 0 rest).map (place + 1 + ·))
      else lexemes

/-- How far the partner is depends on tokens alone, so brackets that have been linked do not disturb
the search. -/
theorem distanceToCloser?_congr (depth : Nat) {others : List Lexeme}
    (htokens : lexemes.map Lexeme.token = others.map Lexeme.token) :
    distanceToCloser? depth lexemes = distanceToCloser? depth others := by
  induction lexemes generalizing others depth with
  | nil => rw [List.map_eq_nil_iff.mp htokens.symm]
  | cons lexeme rest ih =>
      obtain ⟨other, later, rfl, htoken, hlater⟩ := List.map_eq_cons_iff.mp htokens.symm
      have hrest : ∀ depth, distanceToCloser? depth rest = distanceToCloser? depth later :=
        fun depth => ih depth hlater.symm
      by_cases hopen : lexeme.token = .openSquare
      · rw [distanceToCloser?_openSquare _ _ hopen,
          distanceToCloser?_openSquare _ _ (htoken.trans hopen), hrest]
      by_cases hclose : lexeme.token = .closeSquare
      · rw [distanceToCloser?_closeSquare _ _ hclose,
          distanceToCloser?_closeSquare _ _ (htoken.trans hclose), hrest]
      · rw [distanceToCloser?_other _ _ hopen hclose,
          distanceToCloser?_other _ _ (htoken ▸ hopen) (htoken ▸ hclose), hrest]

theorem mem_openingsFrom (place : Nat) {index : Nat} {lexeme : Lexeme}
    (hlexeme : lexemes[index]? = some lexeme) (hopen : lexeme.token = .openSquare) :
    ⟨place + index, (distanceToCloser? 0 (lexemes.drop (index + 1))).map (place + index + 1 + ·)⟩ ∈
      openingsFrom place lexemes := by
  induction lexemes generalizing place index with
  | nil => exact absurd hlexeme.symm (Option.some_ne_none lexeme)
  | cons first rest ih =>
      rw [openingsFrom]
      cases index with
      | zero =>
          obtain rfl := Option.some.inj hlexeme
          rw [if_pos hopen]
          exact List.mem_cons_self
      | succ index =>
          have hlater := ih (place + 1) hlexeme
          rw [Nat.add_right_comm place 1 index] at hlater
          split
          · exact List.mem_cons_of_mem _ hlater
          · exact hlater

theorem closerOf?_openings {place : Nat} {lexeme : Lexeme}
    (hlexeme : lexemes[place]? = some lexeme) (hopen : lexeme.token = .openSquare) :
    closerOf? (openings lexemes) place =
      (distanceToCloser? 0 (lexemes.drop (place + 1))).map (place + 1 + ·) := by
  have hopening := mem_openingsFrom 0 hlexeme hopen
  rw [Nat.zero_add] at hopening
  exact (closerOf?_of_mem hopening).1

/-- The lexeme has been told of its partner once the opening brackets before `count` are done with. -/
def isReached (openings : List Opening) (count place : Nat) (lexeme : Lexeme) : Bool :=
  if lexeme.token = .openSquare then place < count
  else (openerOf? openings place).any (· < count)

def linkUpTo (lexemes : List Lexeme) (count place : Nat) (lexeme : Lexeme) : Lexeme :=
  if isReached (openings lexemes) count place lexeme then
    linkAt (openings lexemes) lexemes.length place lexeme
  else lexeme

theorem token_linkUpTo (lexemes : List Lexeme) (count place : Nat) (lexeme : Lexeme) :
    (linkUpTo lexemes count place lexeme).token = lexeme.token := by
  rw [linkUpTo]
  split
  · exact token_linkAt _ _ _ _
  · rfl

theorem linkUpTo_zero (lexemes : List Lexeme) (place : Nat) (lexeme : Lexeme) :
    linkUpTo lexemes 0 place lexeme = lexeme := by
  simp [linkUpTo, isReached]

/-- An opening bracket tells nobody but itself and its partner. -/
theorem linkUpTo_succ {count place : Nat} {lexeme : Lexeme}
    (hself : lexeme.token = .openSquare → place ≠ count)
    (hpartner : openerOf? (openings lexemes) place ≠ some count) :
    linkUpTo lexemes (count + 1) place lexeme = linkUpTo lexemes count place lexeme := by
  have hreached : isReached (openings lexemes) (count + 1) place lexeme =
      isReached (openings lexemes) count place lexeme := by
    rw [isReached, isReached]
    split
    · rename_i hopen
      have hne := hself hopen
      rw [decide_eq_decide]
      omega
    · cases hopener : openerOf? (openings lexemes) place with
      | none => rfl
      | some opener =>
          have hne : opener ≠ count := fun hsame => hpartner (hsame ▸ hopener)
          rw [Option.any_some, Option.any_some, decide_eq_decide]
          omega
  rw [linkUpTo, linkUpTo, hreached]

/-- Once all opening brackets are done with, all brackets have been told. -/
theorem linkUpTo_length {place : Nat} {lexeme : Lexeme} (hplace : lexemes[place]? = some lexeme) :
    linkUpTo lexemes lexemes.length place lexeme =
      linkAt (openings lexemes) lexemes.length place lexeme := by
  obtain ⟨hlength, -⟩ := List.getElem?_eq_some_iff.mp hplace
  rw [linkUpTo, ite_eq_left_iff]
  intro hnot
  by_cases hopen : lexeme.token = .openSquare
  · rw [isReached, if_pos hopen] at hnot
    exact absurd (decide_eq_true hlength) hnot
  by_cases hclose : lexeme.token = .closeSquare
  · rw [isReached, if_neg hopen] at hnot
    cases hopener : openerOf? (openings lexemes) place with
    | none => rw [linkAt_closeSquare _ _ _ hclose, hopener, Option.none_or]
    | some opener =>
        obtain ⟨-, first, hfirst, -⟩ := exists_of_openerOf? hopener
        obtain ⟨hbefore, -⟩ := List.getElem?_eq_some_iff.mp hfirst
        rw [hopener, Option.any_some] at hnot
        exact absurd (decide_eq_true hbefore) hnot
  · rw [linkAt_other _ _ _ hopen hclose]

/-- An opening bracket is told once its turn comes. -/
theorem linkUpTo_self (lexemes : List Lexeme) (count : Nat) {lexeme : Lexeme}
    (hopen : lexeme.token = .openSquare) :
    linkUpTo lexemes count count lexeme = lexeme ∧
      linkUpTo lexemes (count + 1) count lexeme =
        linkAt (openings lexemes) lexemes.length count lexeme := by
  simp [linkUpTo, isReached, hopen]

/-- A closing bracket is told when the turn comes of its partner. -/
theorem linkUpTo_partner {count place : Nat} {lexeme : Lexeme} (hclose : lexeme.token = .closeSquare)
    (hopener : openerOf? (openings lexemes) place = some count) :
    linkUpTo lexemes count place lexeme = lexeme ∧
      linkUpTo lexemes (count + 1) place lexeme =
        linkAt (openings lexemes) lexemes.length place lexeme := by
  simp [linkUpTo, isReached, hclose, hopener]

/-- No other lexeme is told anything. -/
theorem linkUpTo_other {count place : Nat} (lexeme : Lexeme) (hself : count ≠ place)
    (hpartner : closerOf? (openings lexemes) count ≠ some place) :
    linkUpTo lexemes (count + 1) place lexeme = linkUpTo lexemes count place lexeme := by
  apply linkUpTo_succ
  · exact fun _ => hself.symm
  · exact fun hopener => hpartner (exists_of_openerOf? hopener).1

/-- Telling two brackets of each other is one more step of the links. -/
theorem tell_mapIdx {count : Nat} {lexeme : Lexeme} (hlexeme : lexemes[count]? = some lexeme)
    (hopen : lexeme.token = .openSquare) :
    tell (lexemes.mapIdx (linkUpTo lexemes count)) count (closerOf? (openings lexemes) count) =
      lexemes.mapIdx (linkUpTo lexemes (count + 1)) := by
  obtain ⟨hbefore, hafter⟩ := linkUpTo_self lexemes count hopen
  rw [linkAt_openSquare _ _ _ hopen] at hafter
  apply List.ext_getElem?
  intro place
  cases hcloser : closerOf? (openings lexemes) count with
  | none =>
      rw [tell, List.length_mapIdx, List.getElem?_modify, List.getElem?_mapIdx, List.getElem?_mapIdx,
        Option.map_eq_map, Option.map_map]
      apply Option.map_congr
      intro bracket hbracket
      rw [Function.comp_apply]
      by_cases hself : count = place
      · subst hself
        obtain rfl := Option.some.inj (hlexeme.symm.trans hbracket)
        rw [if_pos rfl, hbefore, hafter, hcloser]
        rfl
      · rw [if_neg hself, linkUpTo_other bracket hself (by simp [hcloser])]
  | some closer =>
      have hpair := closerOf?_eq_some_iff.mp hcloser
      obtain ⟨-, last, -, -, hlast, hclose⟩ := exists_of_mem_pairs hpair
      have horder : count < closer := (bounds_of_mem_stackPairs (IsStack.nil 0) hpair).2.1
      rw [tell, List.getElem?_modify, List.getElem?_modify, List.getElem?_mapIdx,
        List.getElem?_mapIdx, Option.map_eq_map, Option.map_eq_map, Option.map_map, Option.map_map]
      apply Option.map_congr
      intro bracket hbracket
      rw [Function.comp_apply, Function.comp_apply]
      by_cases hself : count = place
      · subst hself
        obtain rfl := Option.some.inj (hlexeme.symm.trans hbracket)
        rw [if_pos rfl, if_neg (Nat.ne_of_gt horder), hbefore, hafter, hcloser]
        rfl
      by_cases hpartner : closer = place
      · subst hpartner
        obtain rfl := Option.some.inj (hlast.symm.trans hbracket)
        have hopener := openerOf?_eq_some_iff.mpr hpair
        obtain ⟨hlastBefore, hlastAfter⟩ := linkUpTo_partner hclose hopener
        rw [if_neg hself, if_pos rfl, hlastBefore, hlastAfter, linkAt_closeSquare _ _ _ hclose,
          hopener]
        rfl
      · rw [if_neg hself, if_neg hpartner,
          linkUpTo_other bracket hself (by simpa [hcloser] using hpartner)]

/-- The step: the opening bracket at `count` is told, and so is its partner. -/
theorem linkOpening_mapIdx {count : Nat} (hcount : count < lexemes.length) :
    linkOpening (lexemes.mapIdx (linkUpTo lexemes count)) count =
      lexemes.mapIdx (linkUpTo lexemes (count + 1)) := by
  have hlexeme : lexemes[count]? = some lexemes[count] := List.getElem?_eq_getElem hcount
  have htokens : (lexemes.mapIdx (linkUpTo lexemes count)).map Lexeme.token =
      lexemes.map Lexeme.token := by
    apply List.ext_getElem
    · simp
    · intro place _ _
      simp [token_linkUpTo]
  have hdrop : (lexemes.mapIdx (linkUpTo lexemes count)).drop count =
      linkUpTo lexemes count count lexemes[count] ::
        (lexemes.mapIdx (linkUpTo lexemes count)).drop (count + 1) := by
    rw [List.drop_eq_getElem_cons (by simpa using hcount), List.getElem_mapIdx]
  have hdistance : distanceToCloser? 0 ((lexemes.mapIdx (linkUpTo lexemes count)).drop (count + 1)) =
      distanceToCloser? 0 (lexemes.drop (count + 1)) := by
    apply distanceToCloser?_congr
    rw [List.map_drop, List.map_drop, htokens]
  rw [linkOpening, hdrop]
  simp only [token_linkUpTo, hdistance]
  by_cases hopen : lexemes[count].token = .openSquare
  · rw [if_pos hopen, ← closerOf?_openings hlexeme hopen, tell_mapIdx hlexeme hopen]
  · rw [if_neg hopen]
    apply List.ext_getElem?
    intro place
    rw [List.getElem?_mapIdx, List.getElem?_mapIdx]
    apply Option.map_congr
    intro bracket hbracket
    apply (linkUpTo_succ _ _).symm
    · rintro hbracketOpen rfl
      rw [hlexeme] at hbracket
      exact hopen (Option.some.inj hbracket ▸ hbracketOpen)
    · intro hopener
      obtain ⟨-, first, hfirst, hfirstOpen⟩ := exists_of_openerOf? hopener
      rw [hlexeme] at hfirst
      exact hopen (Option.some.inj hfirst ▸ hfirstOpen)

/-- After so many opening brackets the links of just these are in place. -/
theorem foldl_linkOpening {count : Nat} (hcount : count ≤ lexemes.length) :
    (List.range count).foldl linkOpening lexemes = lexemes.mapIdx (linkUpTo lexemes count) := by
  induction count with
  | zero =>
      apply List.ext_getElem
      · simp
      · intro place _ _
        simp [linkUpTo_zero]
  | succ count ih =>
      rw [List.range_succ, List.foldl_append, ih (Nat.le_of_succ_le hcount), List.foldl_cons,
        List.foldl_nil, linkOpening_mapIdx hcount]

/-- Linking one opening bracket after another, in the stream that changes on the way, comes to the
same as linking all of them at once. -/
theorem foldl_linkOpening_eq_link (lexemes : List Lexeme) :
    (List.range lexemes.length).foldl linkOpening lexemes = link lexemes := by
  rw [foldl_linkOpening (le_refl _)]
  apply List.ext_getElem?
  intro place
  rw [getElem?_link, List.getElem?_mapIdx]
  apply Option.map_congr
  intro lexeme hlexeme
  exact linkUpTo_length hlexeme

/-! ## What the brackets are told -/

/-- The lexeme as it was before it was linked. -/
def unlinked (lexeme : Lexeme) : Lexeme :=
  { lexeme with partner := none, enclosed := none }

instance (lexeme : Lexeme) : Decidable lexeme.IsUnlinked :=
  inferInstanceAs (Decidable (_ ∧ _))

/-- What the lexeme at `place` of a stream of `size` lexemes has been told is what the pairs say. -/
structure IsTold (pairs : List (Nat × Nat)) (size place : Nat) (lexeme : Lexeme) : Prop where
  opening : lexeme.token = .openSquare →
    (∀ closer, lexeme.partner = some closer ↔ (place, closer) ∈ pairs) ∧
      lexeme.enclosed = some ⟨place + 1, lexeme.partner.getD size⟩
  closing : lexeme.token = .closeSquare →
    (∀ opener, lexeme.partner = some opener ↔ (opener, place) ∈ pairs) ∧ lexeme.enclosed = none
  other : lexeme.token ≠ .openSquare → lexeme.token ≠ .closeSquare →
    lexeme.partner = none ∧ lexeme.enclosed = none

/-- The place of the partner of whatever is at `place`. -/
def partnerAt (stream : List Lexeme) (place : Nat) : Option Nat :=
  stream[place]?.bind Lexeme.partner

theorem unlinked_linkAt (openings : List Opening) (size place : Nat) (lexeme : Lexeme) :
    unlinked (linkAt openings size place lexeme) = unlinked lexeme := by
  by_cases hopen : lexeme.token = .openSquare
  · rw [linkAt_openSquare _ _ _ hopen]
    rfl
  by_cases hclose : lexeme.token = .closeSquare
  · rw [linkAt_closeSquare _ _ _ hclose]
    rfl
  · rw [linkAt_other _ _ _ hopen hclose]

section

variable (hlexemes : ∀ lexeme ∈ lexemes, lexeme.IsUnlinked) {place : Nat} {lexeme : Lexeme}

include hlexemes

theorem isTold_linkAt (hplace : lexemes[place]? = some lexeme) :
    IsTold (pairs lexemes) lexemes.length place
      (linkAt (openings lexemes) lexemes.length place lexeme) := by
  obtain ⟨hpartner, henclosed⟩ := hlexemes lexeme (List.mem_of_getElem? hplace)
  constructor <;> simp only [token_linkAt]
  · intro hopen
    rw [linkAt_openSquare _ _ _ hopen, hpartner, Option.or_none]
    exact ⟨fun closer => closerOf?_eq_some_iff, rfl⟩
  · intro hclose
    rw [linkAt_closeSquare _ _ _ hclose, hpartner, Option.or_none]
    exact ⟨fun opener => openerOf?_eq_some_iff, henclosed⟩
  · intro hopen hclose
    rw [linkAt_other _ _ _ hopen hclose]
    exact ⟨hpartner, henclosed⟩

/-- Linking tells each bracket what the pairs say of it. -/
theorem isTold_link (hplace : (link lexemes)[place]? = some lexeme) :
    IsTold (pairs lexemes) lexemes.length place lexeme := by
  rw [getElem?_link] at hplace
  obtain ⟨before, hbefore, rfl⟩ := Option.map_eq_some_iff.mp hplace
  exact isTold_linkAt hlexemes hbefore

/-- Linking adds to lexemes and changes nothing else about them. -/
theorem map_unlinked_link : (link lexemes).map unlinked = lexemes := by
  apply List.ext_getElem?
  intro place
  rw [List.getElem?_map, getElem?_link]
  cases hplace : lexemes[place]? with
  | none => rfl
  | some lexeme =>
      obtain ⟨hpartner, henclosed⟩ := hlexemes lexeme (List.mem_of_getElem? hplace)
      rw [Option.map_some, Option.map_some, unlinked_linkAt, unlinked, ← hpartner, ← henclosed]

/-- The brackets of a pair know each other, and the opening one knows what they enclose. -/
theorem exists_link_of_mem_pairs (hpair : (opener, closer) ∈ pairs lexemes) :
    ∃ first last, (link lexemes)[opener]? = some first ∧ (link lexemes)[closer]? = some last ∧
      first.token = .openSquare ∧ last.token = .closeSquare ∧ first.partner = some closer ∧
      last.partner = some opener ∧ first.enclosed = some ⟨opener + 1, closer⟩ := by
  obtain ⟨first, last, hfirst, hopen, hlast, hclose⟩ := exists_of_mem_pairs hpair
  have hfirstTold := (isTold_linkAt hlexemes hfirst).opening
  have hlastTold := (isTold_linkAt hlexemes hlast).closing
  rw [token_linkAt] at hfirstTold hlastTold
  obtain ⟨hcloser, henclosed⟩ := hfirstTold hopen
  obtain ⟨hopener, -⟩ := hlastTold hclose
  have hpartner := (hcloser closer).mpr hpair
  rw [hpartner] at henclosed
  refine ⟨_, _, by rw [getElem?_link, hfirst, Option.map_some],
    by rw [getElem?_link, hlast, Option.map_some], ?_, ?_, hpartner, (hopener opener).mpr hpair,
    henclosed⟩
  · rw [token_linkAt, hopen]
  · rw [token_linkAt, hclose]

/-- Two places are partners exactly if they are a pair. -/
theorem partnerAt_link_eq_some_iff {partner : Nat} :
    partnerAt (link lexemes) place = some partner ↔
      (place, partner) ∈ pairs lexemes ∨ (partner, place) ∈ pairs lexemes := by
  rw [partnerAt, Option.bind_eq_some_iff]
  constructor
  · rintro ⟨lexeme, hplace, hpartner⟩
    have htold := isTold_link hlexemes hplace
    by_cases hopen : lexeme.token = .openSquare
    · exact .inl (((htold.opening hopen).1 partner).mp hpartner)
    by_cases hclose : lexeme.token = .closeSquare
    · exact .inr (((htold.closing hclose).1 partner).mp hpartner)
    · rw [(htold.other hopen hclose).1] at hpartner
      exact absurd hpartner.symm (Option.some_ne_none partner)
  · rintro (hpair | hpair)
    · obtain ⟨first, -, hfirst, -, -, -, hpartner, -⟩ := exists_link_of_mem_pairs hlexemes hpair
      exact ⟨first, hfirst, hpartner⟩
    · obtain ⟨-, last, -, hlast, -, -, -, hpartner, -⟩ := exists_link_of_mem_pairs hlexemes hpair
      exact ⟨last, hlast, hpartner⟩

/-- Partners agree on each other. -/
theorem partnerAt_link_comm {partner : Nat} :
    partnerAt (link lexemes) place = some partner ↔
      partnerAt (link lexemes) partner = some place := by
  rw [partnerAt_link_eq_some_iff hlexemes, partnerAt_link_eq_some_iff hlexemes, or_comm]

/-- Every place that is told is a place of the stream, or its end. -/
theorem bounds_of_mem_link (hmem : lexeme ∈ link lexemes) :
    (∀ partner ∈ lexeme.partner, partner < lexemes.length) ∧
      ∀ enclosed ∈ lexeme.enclosed,
        enclosed.start ≤ enclosed.stop ∧ enclosed.stop ≤ lexemes.length := by
  obtain ⟨place, hplace⟩ := List.getElem?_of_mem hmem
  have htold := isTold_link hlexemes hplace
  have hlength : place < lexemes.length := by
    have hlength := (List.getElem?_eq_some_iff.mp hplace).1
    rwa [link, List.length_mapIdx] at hlength
  have hbounds : ∀ {opener closer : Nat}, (opener, closer) ∈ pairs lexemes →
      opener < closer ∧ closer < lexemes.length := by
    intro opener closer hpair
    obtain ⟨-, horder, -, hhigh⟩ := bounds_of_mem_stackPairs (IsStack.nil 0) hpair
    exact ⟨horder, by omega⟩
  by_cases hopen : lexeme.token = .openSquare
  · obtain ⟨hpartner, henclosed⟩ := htold.opening hopen
    rw [henclosed]
    cases hcloser : lexeme.partner with
    | none => simpa using Nat.succ_le_of_lt hlength
    | some closer =>
        have hpair := hbounds ((hpartner closer).mp hcloser)
        simpa using ⟨hpair.2, hpair.1, hpair.2.le⟩
  by_cases hclose : lexeme.token = .closeSquare
  · obtain ⟨hpartner, henclosed⟩ := htold.closing hclose
    rw [henclosed]
    refine ⟨?_, by simp⟩
    intro opener hopener
    have hpair := hbounds ((hpartner opener).mp hopener)
    omega
  · obtain ⟨hpartner, henclosed⟩ := htold.other hopen hclose
    simp [hpartner, henclosed]

/-- A bracket and its partner are written with the same space along what they enclose. -/
theorem written_of_mem_pairs (hpair : (opener, closer) ∈ pairs lexemes) :
    ∃ first last, (link lexemes)[opener]? = some first ∧ (link lexemes)[closer]? = some last ∧
      ∀ previous next,
        Spacing.written (link lexemes) previous first next =
          '[' :: Spacing.bracketPadding (closer - (opener + 1)) ∧
        Spacing.written (link lexemes) previous last next =
          Spacing.bracketPadding (closer - (opener + 1)) ++ [']'] := by
  obtain ⟨first, last, hfirst, hlast, hopen, hclose, -, hpartner, henclosed⟩ :=
    exists_link_of_mem_pairs hlexemes hpair
  have hcount : first.enclosedCount = closer - (opener + 1) := by
    rw [Lexeme.enclosedCount, henclosed]
    rfl
  refine ⟨first, last, hfirst, hlast, ?_⟩
  intro previous next
  constructor
  · simp only [Spacing.written, hopen, hcount]
    rfl
  · simp only [Spacing.written, hclose, Spacing.enclosedByPartner, hpartner, Option.bind_some, hfirst,
      Option.map_some, Option.getD_some, hcount]
    rfl

end

/-- Brackets are linked as a pass with a stack pairs them, and as comes of linking one opening bracket
after another.  Apart from what the brackets are told, nothing changes.  Partners agree on each other
and on the space along what they enclose, pairs nest, and all places are places of the stream. -/
theorem link_is_stack_matching (lexemes : List Lexeme)
    (hlexemes : ∀ lexeme ∈ lexemes, lexeme.IsUnlinked) :
    link lexemes = (List.range lexemes.length).foldl linkOpening lexemes ∧
      (link lexemes).map unlinked = lexemes ∧
      (∀ place lexeme, (link lexemes)[place]? = some lexeme →
        IsTold (stackPairs [] 0 lexemes) lexemes.length place lexeme) ∧
      (∀ opener closer, (opener, closer) ∈ stackPairs [] 0 lexemes → opener < closer ∧
        ∃ first last, lexemes[opener]? = some first ∧ first.token = .openSquare ∧
          lexemes[closer]? = some last ∧ last.token = .closeSquare) ∧
      (∀ place partner, partnerAt (link lexemes) place = some partner ↔
        partnerAt (link lexemes) partner = some place) ∧
      (stackPairs [] 0 lexemes).Pairwise ClosesBefore ∧
      (∀ lexeme ∈ link lexemes, (∀ partner ∈ lexeme.partner, partner < lexemes.length) ∧
        ∀ enclosed ∈ lexeme.enclosed,
          enclosed.start ≤ enclosed.stop ∧ enclosed.stop ≤ lexemes.length) ∧
      ∀ opener closer, (opener, closer) ∈ stackPairs [] 0 lexemes →
        ∃ first last, (link lexemes)[opener]? = some first ∧ (link lexemes)[closer]? = some last ∧
          ∀ previous next,
            Spacing.written (link lexemes) previous first next =
              '[' :: Spacing.bracketPadding (closer - (opener + 1)) ∧
            Spacing.written (link lexemes) previous last next =
              Spacing.bracketPadding (closer - (opener + 1)) ++ [']'] := by
  refine ⟨?_, ?_, ?_, ?_, ?_, ?_, ?_, ?_⟩
  · exact (foldl_linkOpening_eq_link lexemes).symm
  · exact map_unlinked_link hlexemes
  · intro place lexeme hplace
    exact isTold_link hlexemes hplace
  · intro opener closer hpair
    exact ⟨(bounds_of_mem_stackPairs (IsStack.nil 0) hpair).2.1, exists_of_mem_pairs hpair⟩
  · intro place partner
    exact partnerAt_link_comm hlexemes
  · exact pairwise_stackPairs (IsStack.nil 0) lexemes
  · intro lexeme hmem
    exact bounds_of_mem_link hlexemes hmem
  · intro opener closer hpair
    exact written_of_mem_pairs hlexemes hpair

/-- `] [ [ x , x ] [ ] ] [`: a stray bracket, two pairs within a third, and a bracket left open. -/
theorem link_is_stack_matching_nested :
    let token (token : Token) : Lexeme := { token, text := token.spelling }
    let word : Lexeme := { token := .text, text := ['x'] }
    let lexemes := [token .closeSquare, token .openSquare, token .openSquare, word, token .comma,
      word, token .closeSquare, token .openSquare, token .closeSquare, token .closeSquare,
      token .openSquare]
    (∀ lexeme ∈ lexemes, lexeme.IsUnlinked) ∧
      stackPairs [] 0 lexemes = [(2, 6), (7, 8), (1, 9)] ∧
      partnerAt (link lexemes) 9 = some 1 ∧
      link lexemes = (List.range lexemes.length).foldl linkOpening lexemes ∧
      (stackPairs [] 0 lexemes).Pairwise ClosesBefore := by
  intro token word lexemes
  have hlexemes : ∀ lexeme ∈ lexemes, lexeme.IsUnlinked := by decide
  obtain ⟨hloop, -, -, -, -, hnested, -, -⟩ := link_is_stack_matching lexemes hlexemes
  exact ⟨hlexemes, by decide, by decide, hloop, hnested⟩

end ChuckLayout.BracketPairs
