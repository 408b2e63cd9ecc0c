import ChuckLayout.Lexeme.Pass
import Mathlib.Data.List.Basic
import Mathlib.Data.List.Chain
import Mathlib.Data.List.Forall2
import Mathlib.Tactic.Common

/-!
# What the passes keep

The passes look only at line breaks, braces and square brackets.  Streams that differ in other
lexemes, one by one, still differ in those alone after the passes.
-/

namespace ChuckLayout

open List (Forall₂)

theorem Token.isBrace_iff {token : Token} :
    token.isBrace ↔ token = .openBrace ∨ token = .closeBrace := by
  cases token <;> simp [isBrace]

namespace Lexeme

/-- The token, for the tokens that the passes look at. -/
def shape (lexeme : Lexeme) : Option Token :=
  match lexeme.token with
  | .newline => some .newline
  | .openBrace => some .openBrace
  | .closeBrace => some .closeBrace
  | .openSquare => some .openSquare
  | .closeSquare => some .closeSquare
  | _ => none

/-- What a lexeme is before any pass. -/
def item (lexeme : Lexeme) : Token × List Char :=
  (lexeme.token, lexeme.text)

variable {first second : Lexeme}

theorem token_eq_iff_of_shape (hshape : first.shape = second.shape) {token : Token}
    (htoken : token = .newline ∨ token = .openBrace ∨ token = .closeBrace ∨ token = .openSquare ∨
      token = .closeSquare) : first.token = token ↔ second.token = token := by
  have hsome : ∀ lexeme : Lexeme, lexeme.shape = some token ↔ lexeme.token = token := by
    intro lexeme
    unfold shape
    rcases htoken with rfl | rfl | rfl | rfl | rfl <;> cases lexeme.token <;> simp
  rw [← hsome, ← hsome, hshape]

theorem isBrace_eq_of_shape (hshape : first.shape = second.shape) :
    first.token.isBrace = second.token.isBrace := by
  rw [Bool.eq_iff_iff, Token.isBrace_iff, Token.isBrace_iff, token_eq_iff_of_shape hshape (by simp),
    token_eq_iff_of_shape hshape (by simp)]

/-- The lexemes are related as they were before any pass, and the passes have found out the same
about both. -/
structure Corresponds (related : Token × List Char → Token × List Char → Prop)
    (first second : Lexeme) : Prop where
  item : related first.item second.item
  partner : first.partner = second.partner
  enclosed : first.enclosed = second.enclosed
  dropped : first.dropped = second.dropped

end Lexeme

open Lexeme (Corresponds)

/-- What is seen of related items, one by one, is the same when it is of every two of them. -/
theorem map_eq_of_forall₂ {α β γ : Type} {relation : α → β → Prop} {items : List α} {others : List β}
    (hitems : Forall₂ relation items others) {see : α → γ} {see' : β → γ}
    (hsee : ∀ ⦃item other⦄, relation item other → see item = see' other) :
    items.map see = others.map see' := by
  rw [← List.forall₂_eq_eq_eq]
  exact List.rel_map hsee hitems

variable {related : Token × List Char → Token × List Char → Prop} {lexemes others : List Lexeme}
  (hshape : ∀ first second : Lexeme, related first.item second.item → first.shape = second.shape)

/-! ## Line breaks next to braces -/

namespace BraceBreaks

theorem braceAhead_append_of_breaks {breaks : List Lexeme}
    (hbreaks : ∀ lexeme ∈ breaks, lexeme.token = .newline) (rest : List Lexeme) :
    braceAhead (breaks ++ rest) = braceAhead rest := by
  induction breaks with
  | nil => rfl
  | cons lexeme breaks ih =>
      obtain ⟨htoken, hlater⟩ := List.forall_mem_cons.mp hbreaks
      rw [List.cons_append, braceAhead, if_pos htoken, ih hlater]

include hshape

theorem braceAhead_eq (hlexemes : Forall₂ (Corresponds related) lexemes others) :
    braceAhead lexemes = braceAhead others := by
  induction hlexemes with
  | nil => rfl
  | cons hhead _ ih =>
      have hsame := hshape _ _ hhead.item
      simp only [braceAhead, ih, Lexeme.isBrace_eq_of_shape hsame,
        Lexeme.token_eq_iff_of_shape hsame (Or.inl rfl)]

/-- Which line breaks are marked is seen from the tokens alone. -/
theorem markFrom_corresponds (hlexemes : Forall₂ (Corresponds related) lexemes others)
    (afterBrace : Bool) :
    Forall₂ (Corresponds related) (markFrom afterBrace lexemes) (markFrom afterBrace others) := by
  induction hlexemes generalizing afterBrace with
  | nil => exact Forall₂.nil
  | cons hhead htail ih =>
      have hsame := hshape _ _ hhead.item
      simp only [markFrom, Lexeme.isBrace_eq_of_shape hsame, hhead.dropped,
        braceAhead_eq hshape htail, Lexeme.token_eq_iff_of_shape hsame (Or.inl rfl)]
      split
      · exact Forall₂.cons ⟨hhead.item, hhead.partner, hhead.enclosed, rfl⟩ (ih _)
      · exact Forall₂.cons hhead (ih _)

omit hshape in
theorem filter_corresponds (hlexemes : Forall₂ (Corresponds related) lexemes others) :
    Forall₂ (Corresponds related) (lexemes.filter fun lexeme => !lexeme.dropped)
      (others.filter fun lexeme => !lexeme.dropped) := by
  induction hlexemes with
  | nil => exact Forall₂.nil
  | cons hhead _ ih =>
      simp only [List.filter_cons, hhead.dropped]
      split
      · exact Forall₂.cons hhead ih
      · exact ih

theorem suppress_corresponds (hlexemes : Forall₂ (Corresponds related) lexemes others) :
    Forall₂ (Corresponds related) (suppress lexemes) (suppress others) :=
  filter_corresponds (markFrom_corresponds hshape hlexemes false)

end BraceBreaks

/-! ## Square brackets -/

namespace BracketPairs

section

variable {lexeme : Lexeme} (depth : Nat) (rest : List Lexeme) (openings : List Opening)
  (size place : Nat)

theorem distanceToCloser?_openSquare (htoken : lexeme.token = .openSquare) :
    distanceToCloser? depth (lexeme :: rest) = (distanceToCloser? (depth + 1) rest).map (· + 1) := by
  simp [distanceToCloser?, htoken]

theorem distanceToCloser?_closeSquare (htoken : lexeme.token = .closeSquare) :
    distanceToCloser? depth (lexeme :: rest) =
      if depth = 0 then some 0 else (distanceToCloser? (depth - 1) rest).map (· + 1) := by
  cases depth <;> simp [distanceToCloser?, htoken]

theorem distanceToCloser?_other (hopen : lexeme.token ≠ .openSquare)
    (hclose : lexeme.token ≠ .closeSquare) :
    distanceToCloser? depth (lexeme :: rest) = (distanceToCloser? depth rest).map (· + 1) := by
  conv_lhs => unfold distanceToCloser?
  split <;> simp_all

theorem linkAt_openSquare (htoken : lexeme.token = .openSquare) :
    linkAt openings size place lexeme =
      { lexeme with
        partner := (closerOf? openings place).or lexeme.partner
        enclosed := some ⟨place + 1, (closerOf? openings place).getD size⟩ } := by
  unfold linkAt
  rw [htoken]
  cases closerOf? openings place <;> simp

theorem linkAt_closeSquare (htoken : lexeme.token = .closeSquare) :
    linkAt openings size place lexeme =
      { lexeme with partner := (openerOf? openings place).or lexeme.partner } := by
  unfold linkAt
  split
  · simp_all
  · cases openerOf? openings place <;> simp
  · simp_all

theorem linkAt_other (hopen : lexeme.token ≠ .openSquare) (hclose : lexeme.token ≠ .closeSquare) :
    linkAt openings size place lexeme = lexeme := by
  unfold linkAt
  split <;> simp_all

theorem item_linkAt : (linkAt openings size place lexeme).item = lexeme.item := by
  by_cases hopen : lexeme.token = .openSquare
  · rw [linkAt_openSquare openings size place hopen]
    rfl
  · by_cases hclose : lexeme.token = .closeSquare
    · rw [linkAt_closeSquare openings size place hclose]
      rfl
    · rw [linkAt_other openings size place hopen hclose]

end

include hshape

/-- Lexemes of the same shape open and close brackets alike. -/
theorem squares_iff {first second : Lexeme} (hlexeme : Corresponds related first second) :
    (first.token = .openSquare ↔ second.token = .openSquare) ∧
      (first.token = .closeSquare ↔ second.token = .closeSquare) :=
  ⟨Lexeme.token_eq_iff_of_shape (hshape _ _ hlexeme.item) (by simp),
    Lexeme.token_eq_iff_of_shape (hshape _ _ hlexeme.item) (by simp)⟩

theorem distanceToCloser?_eq (hlexemes : Forall₂ (Corresponds related) lexemes others)
    (depth : Nat) : distanceToCloser? depth lexemes = distanceToCloser? depth others := by
  induction hlexemes generalizing depth with
  | nil => rfl
  | @cons first second lexemes others hhead _ ih =>
      obtain ⟨hopen, hclose⟩ := squares_iff hshape hhead
      by_cases hsquare : first.token = .openSquare
      · rw [distanceToCloser?_openSquare _ _ hsquare,
          distanceToCloser?_openSquare _ _ (hopen.mp hsquare), ih]
      · by_cases hround : first.token = .closeSquare
        · rw [distanceToCloser?_closeSquare _ _ hround,
            distanceToCloser?_closeSquare _ _ (hclose.mp hround), ih]
        · rw [distanceToCloser?_other _ _ hsquare hround,
            distanceToCloser?_other _ _ (mt hopen.mpr hsquare) (mt hclose.mpr hround), ih]

theorem openingsFrom_eq (hlexemes : Forall₂ (Corresponds related) lexemes others) (place : Nat) :
    openingsFrom place lexemes = openingsFrom place others := by
  induction hlexemes generalizing place with
  | nil => rfl
  | cons hhead htail ih =>
      simp only [openingsFrom, ih, distanceToCloser?_eq hshape htail,
        Lexeme.token_eq_iff_of_shape (hshape _ _ hhead.item)
          (show Token.openSquare = _ ∨ _ by simp)]

/-- What a bracket is told depends on its place and its token. -/
theorem linkAt_corresponds {first second : Lexeme} (hlexeme : Corresponds related first second)
    (openings : List Opening) (size place : Nat) :
    Corresponds related (linkAt openings size place first) (linkAt openings size place second) := by
  obtain ⟨hopen, hclose⟩ := squares_iff hshape hlexeme
  by_cases hsquare : first.token = .openSquare
  · rw [linkAt_openSquare _ _ _ hsquare, linkAt_openSquare _ _ _ (hopen.mp hsquare)]
    exact ⟨hlexeme.item, by rw [hlexeme.partner], rfl, hlexeme.dropped⟩
  · by_cases hround : first.token = .closeSquare
    · rw [linkAt_closeSquare _ _ _ hround, linkAt_closeSquare _ _ _ (hclose.mp hround)]
      exact ⟨hlexeme.item, by rw [hlexeme.partner], hlexeme.enclosed, hlexeme.dropped⟩
    · rw [linkAt_other _ _ _ hsquare hround,
        linkAt_other _ _ _ (mt hopen.mpr hsquare) (mt hclose.mpr hround)]
      exact hlexeme

theorem link_corresponds (hlexemes : Forall₂ (Corresponds related) lexemes others) :
    Forall₂ (Corresponds related) (link lexemes) (link others) := by
  rw [link, link, openings, openings, openingsFrom_eq hshape hlexemes, hlexemes.length_eq]
  rw [List.forall₂_iff_get]
  refine ⟨by simp [hlexemes.length_eq], ?_⟩
  intro place hplace hplace'
  rw [List.length_mapIdx] at hplace hplace'
  simp only [List.get_eq_getElem, List.getElem_mapIdx]
  exact linkAt_corresponds hshape ((List.forall₂_iff_get.mp hlexemes).2 place hplace hplace') _ _ _

end BracketPairs

include hshape in
/-- Related streams are related after the passes. -/
theorem applyAll_corresponds (hlexemes : Forall₂ (Corresponds related) lexemes others) :
    Forall₂ (Corresponds related) (Pass.applyAll lexemes) (Pass.applyAll others) :=
  BracketPairs.link_corresponds hshape (BraceBreaks.suppress_corresponds hshape hlexemes)

/-! ## Neighbours -/

namespace BraceBreaks

/-- The lexemes that are kept of those that follow a brace, or no brace. -/
def keptFrom (afterBrace : Bool) (lexemes : List Lexeme) : List Lexeme :=
  (markFrom afterBrace lexemes).filter fun lexeme => !lexeme.dropped

variable {lexeme : Lexeme} {rest : List Lexeme}

theorem keptFrom_lineBreak (htoken : lexeme.token = .newline) (hdropped : lexeme.dropped = false)
    (afterBrace : Bool) :
    keptFrom afterBrace (lexeme :: rest) =
      if afterBrace || braceAhead rest then keptFrom afterBrace rest
      else lexeme :: keptFrom afterBrace rest := by
  rw [keptFrom, markFrom, if_pos htoken, List.filter_cons, hdropped, Bool.false_or]
  cases hmark : afterBrace || braceAhead rest
  · have hsame : { lexeme with dropped := false } = lexeme := by
      rw [← hdropped]
    simp [keptFrom, hsame]
  · simp [keptFrom]

theorem keptFrom_other (htoken : lexeme.token ≠ .newline) (hdropped : lexeme.dropped = false)
    (afterBrace : Bool) :
    keptFrom afterBrace (lexeme :: rest) = lexeme :: keptFrom lexeme.token.isBrace rest := by
  rw [keptFrom, markFrom, if_neg htoken, List.filter_cons, hdropped]
  rfl

/-- Induction over lexemes and what is kept of them: a line break next to a brace is left out, and any
other lexeme is kept. -/
@[elab_as_elim]
theorem keptFrom_induction
    {motive : (lexemes : List Lexeme) → (∀ lexeme ∈ lexemes, lexeme.dropped = false) → Bool → Prop}
    (nil : ∀ afterBrace, motive [] (List.forall_mem_nil _) afterBrace)
    (leave : ∀ afterBrace lexeme rest (hdropped : lexeme.dropped = false)
      (hrest : ∀ lexeme ∈ rest, lexeme.dropped = false), lexeme.token = .newline →
        afterBrace = true ∨ braceAhead rest = true →
          keptFrom afterBrace (lexeme :: rest) = keptFrom afterBrace rest →
            motive rest hrest afterBrace →
              motive (lexeme :: rest) (List.forall_mem_cons.mpr ⟨hdropped, hrest⟩) afterBrace)
    (keep : ∀ lexeme rest (hdropped : lexeme.dropped = false)
      (hrest : ∀ lexeme ∈ rest, lexeme.dropped = false), lexeme.token = .newline →
        braceAhead rest = false →
          keptFrom false (lexeme :: rest) = lexeme :: keptFrom false rest →
            motive rest hrest false →
              motive (lexeme :: rest) (List.forall_mem_cons.mpr ⟨hdropped, hrest⟩) false)
    (other : ∀ afterBrace lexeme rest (hdropped : lexeme.dropped = false)
      (hrest : ∀ lexeme ∈ rest, lexeme.dropped = false), lexeme.token ≠ .newline →
        keptFrom afterBrace (lexeme :: rest) = lexeme :: keptFrom lexeme.token.isBrace rest →
          motive rest hrest lexeme.token.isBrace →
            motive (lexeme :: rest) (List.forall_mem_cons.mpr ⟨hdropped, hrest⟩) afterBrace)
    {lexemes : List Lexeme} (hlexemes : ∀ lexeme ∈ lexemes, lexeme.dropped = false)
    (afterBrace : Bool) : motive lexemes hlexemes afterBrace := by
  induction lexemes generalizing afterBrace with
  | nil => exact nil afterBrace
  | cons lexeme rest ih =>
      obtain ⟨hdropped, hrest⟩ := List.forall_mem_cons.mp hlexemes
      by_cases htoken : lexeme.token = .newline
      · have hkept : keptFrom afterBrace (lexeme :: rest) =
            if afterBrace || braceAhead rest then keptFrom afterBrace rest
            else lexeme :: keptFrom afterBrace rest := keptFrom_lineBreak htoken hdropped afterBrace
        by_cases hbrace : (afterBrace || braceAhead rest) = true
        · rw [if_pos hbrace] at hkept
          exact leave afterBrace lexeme rest hdropped hrest htoken (Bool.or_eq_true_iff.mp hbrace)
            hkept (ih hrest afterBrace)
        · rw [if_neg hbrace] at hkept
          rw [Bool.not_eq_true, Bool.or_eq_false_iff] at hbrace
          obtain ⟨rfl, hahead⟩ := hbrace
          exact keep lexeme rest hdropped hrest htoken hahead hkept (ih hrest false)
      · exact other afterBrace lexeme rest hdropped hrest htoken
          (keptFrom_other htoken hdropped afterBrace) (ih hrest lexeme.token.isBrace)

theorem keptFrom_sublist (hlexemes : ∀ lexeme ∈ lexemes, lexeme.dropped = false)
    (afterBrace : Bool) : (keptFrom afterBrace lexemes).Sublist lexemes := by
  induction hlexemes, afterBrace using keptFrom_induction with
  | nil => exact List.Sublist.slnil
  | leave _ _ _ _ _ _ _ hkept ih =>
      rw [hkept]
      exact ih.cons _
  | keep _ _ _ _ _ _ hkept ih | other _ _ _ _ _ _ hkept ih =>
      rw [hkept]
      exact ih.cons_cons _

/-- Only line breaks are dropped. -/
theorem filter_keptFrom (hlexemes : ∀ lexeme ∈ lexemes, lexeme.dropped = false)
    (afterBrace : Bool) :
    (keptFrom afterBrace lexemes).filter (fun lexeme => lexeme.token != .newline) =
      lexemes.filter fun lexeme => lexeme.token != .newline := by
  induction hlexemes, afterBrace using keptFrom_induction with
  | nil => rfl
  | leave _ _ _ _ _ htoken _ hkept ih =>
      rw [hkept, List.filter_cons_of_neg (by simp [htoken]), ih]
  | keep _ _ _ _ htoken _ hkept ih =>
      rw [hkept, List.filter_cons_of_neg (by simp [htoken]),
        List.filter_cons_of_neg (by simp [htoken]), ih]
  | other _ _ _ _ _ htoken hkept ih =>
      rw [hkept, List.filter_cons_of_pos (by simp [htoken]),
        List.filter_cons_of_pos (by simp [htoken]), ih]

/-- Lexemes that are no line breaks are kept. -/
theorem exists_keptFrom_append {run : List Lexeme} (hdropped : ∀ lexeme ∈ run, lexeme.dropped = false)
    (hrun : ∀ lexeme ∈ run, lexeme.token ≠ .newline) (afterBrace : Bool) (back : List Lexeme) :
    ∃ later, keptFrom afterBrace (run ++ back) = run ++ later := by
  induction run generalizing afterBrace with
  | nil => exact ⟨_, rfl⟩
  | cons first run ih =>
      obtain ⟨hfirstDropped, hrestDropped⟩ := List.forall_mem_cons.mp hdropped
      obtain ⟨hfirst, hrest⟩ := List.forall_mem_cons.mp hrun
      obtain ⟨later, hlater⟩ := ih hrestDropped hrest first.token.isBrace
      exact ⟨later, by rw [List.cons_append, keptFrom_other hfirst hfirstDropped, hlater]; rfl⟩

/-- The lexemes kept before one that is no line break are the same but for line breaks. -/
theorem exists_keptFrom_append_cons {front : List Lexeme}
    (hfront : ∀ lexeme ∈ front, lexeme.dropped = false) {lexeme : Lexeme}
    (hdropped : lexeme.dropped = false) (hlexeme : lexeme.token ≠ .newline) (afterBrace : Bool)
    (back : List Lexeme) :
    ∃ kept, keptFrom afterBrace (front ++ lexeme :: back) =
        kept ++ lexeme :: keptFrom lexeme.token.isBrace back ∧
      kept.filter (fun lexeme => lexeme.token != .newline) =
        front.filter fun lexeme => lexeme.token != .newline := by
  induction front generalizing afterBrace with
  | nil => exact ⟨[], keptFrom_other hlexeme hdropped afterBrace, rfl⟩
  | cons first front ih =>
      obtain ⟨hfirst, hrest⟩ := List.forall_mem_cons.mp hfront
      rw [List.cons_append]
      by_cases htoken : first.token = .newline
      · obtain ⟨kept, hkept, hfilter⟩ := ih hrest afterBrace
        rw [keptFrom_lineBreak htoken hfirst, hkept,
          List.filter_cons_of_neg (l := front) (by simp [htoken]), ← hfilter]
        split
        · exact ⟨kept, rfl, rfl⟩
        · exact ⟨first :: kept, rfl, List.filter_cons_of_neg (by simp [htoken])⟩
      · obtain ⟨kept, hkept, hfilter⟩ := ih hrest first.token.isBrace
        refine ⟨first :: kept, ?_, ?_⟩
        · rw [keptFrom_other htoken hfirst, hkept, List.cons_append]
        · rw [List.filter_cons_of_pos (by simp [htoken]), List.filter_cons_of_pos (by simp [htoken]),
            hfilter]

variable {follows : Token × List Char → Token × List Char → Prop}
  (hbrace : ∀ first second : Token × List Char, first.1.isBrace ∨ second.1.isBrace →
    follows first second)

include hbrace

/-- Where line breaks are dropped, a brace becomes a neighbour. -/
theorem isChain_keptFrom (hlexemes : ∀ lexeme ∈ lexemes, lexeme.dropped = false)
    (hchain : (lexemes.map Lexeme.item).IsChain follows) (previous : Lexeme)
    (hprevious : ∀ first, lexemes.head? = some first →
      follows previous.item first.item ∨ braceAhead lexemes) :
    ((previous :: keptFrom previous.token.isBrace lexemes).map Lexeme.item).IsChain follows := by
  have hnext : ∀ {lexeme rest}, ((lexeme :: rest).map Lexeme.item).IsChain follows →
      ∀ first, rest.head? = some first → follows lexeme.item first.item ∨ braceAhead rest := by
    intro lexeme rest hchain first hfirst
    rw [List.map_cons, List.isChain_cons] at hchain
    exact Or.inl (hchain.1 first.item (by simp [hfirst]))
  generalize hafter : previous.token.isBrace = afterBrace
  induction hlexemes, afterBrace using keptFrom_induction generalizing previous with
  | nil => simp [keptFrom, markFrom]
  | leave afterBrace lexeme rest _ _ _ hbraces hkept ih =>
      rw [hkept]
      refine ih hchain.tail previous (fun _ _ => ?_) hafter
      rcases hbraces with rfl | hahead
      · exact Or.inl (hbrace _ _ (Or.inl hafter))
      · exact Or.inr hahead
  | keep lexeme rest _ _ htoken hahead hkept ih =>
      have hlexeme : lexeme.token.isBrace = false := by
        rw [htoken]
        rfl
      rw [hkept, List.map_cons, List.map_cons, List.isChain_cons_cons]
      refine ⟨?_, ih hchain.tail lexeme (hnext hchain) hlexeme⟩
      rcases hprevious lexeme rfl with hfollows | hbrace
      · exact hfollows
      · rw [braceAhead, if_pos htoken, hahead] at hbrace
        exact absurd hbrace Bool.false_ne_true
  | other afterBrace lexeme rest _ _ htoken hkept ih =>
      rw [hkept, List.map_cons, List.map_cons, List.isChain_cons_cons]
      refine ⟨?_, ih hchain.tail lexeme (hnext hchain) rfl⟩
      rcases hprevious lexeme rfl with hfollows | hahead
      · exact hfollows
      · rw [braceAhead, if_neg htoken] at hahead
        exact hbrace _ _ (Or.inr hahead)

theorem isChain_suppress (hbreak : ∀ text second, follows (.newline, text) second)
    (hlexemes : ∀ lexeme ∈ lexemes, lexeme.dropped = false)
    (hchain : (lexemes.map Lexeme.item).IsChain follows) :
    ((suppress lexemes).map Lexeme.item).IsChain follows :=
  (isChain_keptFrom hbrace hlexemes hchain .lineBreak fun _ _ => Or.inl (hbreak _ _)).tail

end BraceBreaks

theorem map_item_link (lexemes : List Lexeme) :
    (BracketPairs.link lexemes).map Lexeme.item = lexemes.map Lexeme.item := by
  apply List.ext_getElem
  · simp [BracketPairs.link]
  · intro place hplace hplace'
    simp [BracketPairs.link, BracketPairs.item_linkAt]

theorem map_item_markFrom (afterBrace : Bool) (lexemes : List Lexeme) :
    (BraceBreaks.markFrom afterBrace lexemes).map Lexeme.item = lexemes.map Lexeme.item := by
  induction lexemes generalizing afterBrace with
  | nil => rfl
  | cons lexeme rest ih =>
      rw [BraceBreaks.markFrom]
      split
      · rw [List.map_cons, List.map_cons, ih]
        rfl
      · rw [List.map_cons, List.map_cons, ih]

/-- Apart from links, the passes leave the lexemes that are kept. -/
theorem map_item_applyAll (lexemes : List Lexeme) :
    (Pass.applyAll lexemes).map Lexeme.item =
      (BraceBreaks.keptFrom false lexemes).map Lexeme.item :=
  map_item_link (BraceBreaks.keptFrom false lexemes)

theorem map_item_applyAll_sublist (lexemes : List Lexeme) :
    ((Pass.applyAll lexemes).map Lexeme.item).Sublist (lexemes.map Lexeme.item) := by
  rw [map_item_applyAll, ← map_item_markFrom false lexemes]
  exact List.filter_sublist.map _

/-- The passes drop nothing but line breaks. -/
theorem filter_map_item_applyAll (hlexemes : ∀ lexeme ∈ lexemes, lexeme.dropped = false) :
    ((Pass.applyAll lexemes).map Lexeme.item).filter (fun item => item.1 != .newline) =
      (lexemes.map Lexeme.item).filter fun item => item.1 != .newline := by
  rw [map_item_applyAll, List.filter_map, List.filter_map]
  exact congrArg _ (BraceBreaks.filter_keptFrom hlexemes false)

/-- A run without line breaks is kept in one piece, after what it came after but for line breaks. -/
theorem exists_applyAll_append {before run after : List Lexeme}
    (hdropped : ∀ lexeme ∈ before ++ (run ++ after), lexeme.dropped = false) (hne : run ≠ [])
    (hrun : ∀ lexeme ∈ run, lexeme.token ≠ .newline) :
    ∃ before' run' after', Pass.applyAll (before ++ (run ++ after)) = before' ++ (run' ++ after') ∧
      run'.map Lexeme.item = run.map Lexeme.item ∧
      (before'.map Lexeme.item).filter (fun item => item.1 != .newline) =
        (before.map Lexeme.item).filter fun item => item.1 != .newline := by
  obtain ⟨first, rest, rfl⟩ := List.exists_cons_of_ne_nil hne
  simp only [List.forall_mem_append, List.forall_mem_cons] at hdropped
  obtain ⟨hbefore, ⟨hfirstDropped, hrestDropped⟩, -⟩ := hdropped
  obtain ⟨hfirst, hrest⟩ := List.forall_mem_cons.mp hrun
  obtain ⟨kept, hkept, hfilter⟩ := BraceBreaks.exists_keptFrom_append_cons hbefore hfirstDropped hfirst
    false (rest ++ after)
  obtain ⟨later, hlater⟩ := BraceBreaks.exists_keptFrom_append hrestDropped hrest first.token.isBrace after
  rw [hlater, ← List.cons_append, ← List.cons_append] at hkept
  have hitems := map_item_applyAll (before ++ (first :: rest ++ after))
  rw [hkept, List.map_append, List.map_append] at hitems
  obtain ⟨before', back, hstream, hbefore', hback⟩ := List.map_eq_append_iff.mp hitems
  obtain ⟨run', after', rfl, hrun', -⟩ := List.map_eq_append_iff.mp hback
  refine ⟨before', run', after', hstream, hrun', ?_⟩
  rw [hbefore', List.filter_map, List.filter_map]
  exact congrArg _ hfilter

/-- What holds of neighbours holds after the passes, if it holds next to braces and after line
breaks. -/
theorem isChain_applyAll {follows : Token × List Char → Token × List Char → Prop}
    (hbrace : ∀ first second : Token × List Char, first.1.isBrace ∨ second.1.isBrace →
      follows first second)
    (hbreak : ∀ text second, follows (.newline, text) second)
    (hlexemes : ∀ lexeme ∈ lexemes, lexeme.dropped = false)
    (hchain : (lexemes.map Lexeme.item).IsChain follows) :
    ((Pass.applyAll lexemes).map Lexeme.item).IsChain follows := by
  rw [map_item_applyAll]
  exact BraceBreaks.isChain_suppress hbrace hbreak hlexemes hchain

end ChuckLayout
