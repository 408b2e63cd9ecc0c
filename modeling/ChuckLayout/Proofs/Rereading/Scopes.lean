import ChuckLayout.Proofs.Lexing.Stream

/-!
# What the items of a stream say about a reading

A stream remembers enough of the text it was lexed from to tell how a text that shows it is read:
which literals are still looked for before each item, and whether the openers that stand in it as raw
text or comment marks are ever closed.
-/

namespace ChuckLayout

/-- The text is a literal of this kind, whatever follows it. -/
structure IsLiteral (kind : Literal.Kind) (text : List Char) : Prop where
  whole : Segment.literalAt? text kind = some text
  opens : ∃ char next tail, text = char :: next :: tail ∧
    Scope.all.opening? char (some next) = some kind
  trimmed : kind = .lineComment → Blank.trimEnd text = text

/-- The text holds a quote that no backslash hides. -/
def closesString (hidden : Bool) (text : List Char) : Bool :=
  (Segment.throughQuote? hidden text).isSome

/-- What is looked for after an item of the stream. -/
def Scope.afterItem (scope : Scope) (item : Token × List Char) : Scope :=
  if item.1 = .commentOpen then .lineComments
  else if item.1 = .text ∧ '\"' ∈ item.2 then scope.without .string
  else scope

/-- Every literal among the items is of a kind that is looked for where it stands. -/
def InScope (scope : Scope) : List (Token × List Char) → Prop
  | [] => True
  | item :: rest =>
      (item.1 = .placeholder → ∃ kind, ¬scope.Ignores kind ∧ IsLiteral kind item.2) ∧
        InScope (scope.afterItem item) rest

def CommentsStayOpen (items : List (Token × List Char)) : Prop :=
  items.Pairwise fun first second => first.1 = .commentOpen → ¬"*/".toList <:+: second.2

/-- The first quote in raw text is closed by nothing that follows it, unless a comment mark that
opens stands before it. -/
def QuoteStaysOpen : List (Token × List Char) → Prop
  | [] => True
  | item :: rest =>
      if item.1 = .commentOpen then True
      else if item.1 = .text ∧ '\"' ∈ item.2 then
        closesString false (item.2.dropWhile (· != '\"')).tail = false ∧
          ∀ later ∈ rest, closesString false later.2 = false
      else QuoteStaysOpen rest

instance decidableQuoteStaysOpen : (items : List (Token × List Char)) → Decidable (QuoteStaysOpen items)
  | [] => isTrue trivial
  | item :: rest =>
      have := decidableQuoteStaysOpen rest
      inferInstanceAs (Decidable (if item.1 = .commentOpen then True
        else if item.1 = .text ∧ '\"' ∈ item.2 then
          closesString false (item.2.dropWhile (· != '\"')).tail = false ∧
            ∀ later ∈ rest, closesString false later.2 = false
        else QuoteStaysOpen rest))

theorem quoteStaysOpen_cons_of_other {item : Token × List Char} {rest : List (Token × List Char)}
    (hopen : item.1 ≠ .commentOpen) (hquote : ¬(item.1 = .text ∧ '\"' ∈ item.2)) :
    QuoteStaysOpen (item :: rest) ↔ QuoteStaysOpen rest := by
  rw [QuoteStaysOpen, if_neg hopen, if_neg hquote]

/-! ## Closing a string -/

theorem closesString_cons (hidden : Bool) (char : Char) (rest : List Char) :
    closesString hidden (char :: rest) =
      (!hidden && char == '\"' || closesString (!hidden && char == '\\') rest) := by
  rw [closesString, Segment.throughQuote?]
  split
  · rename_i hcloses
    simp [hcloses.1, hcloses.2]
  · rename_i hcloses
    have hquote : (!hidden && char == '\"') = false := by
      cases hidden <;> simp_all
    rw [Option.isSome_map, hquote, Bool.false_or, closesString]

theorem closesString_cons_of_ne {char : Char} (hquote : char ≠ '\"') (hslash : char ≠ '\\')
    (hidden : Bool) (rest : List Char) :
    closesString hidden (char :: rest) = closesString false rest := by
  rw [closesString_cons, beq_false_of_ne hquote, beq_false_of_ne hslash, Bool.and_false,
    Bool.false_or]

def hidesNext (hidden : Bool) (text : List Char) : Bool :=
  text.foldl (fun hidden char => !hidden && char == '\\') hidden

/-- A quote of the second text is hidden exactly if the first one ends in a backslash that hides. -/
theorem closesString_append (hidden : Bool) (front back : List Char) :
    closesString hidden (front ++ back) =
      (closesString hidden front || closesString (hidesNext hidden front) back) := by
  induction front generalizing hidden with
  | nil => rfl
  | cons char front ih =>
      rw [List.cons_append, closesString_cons, closesString_cons, ih, Bool.or_assoc]
      rfl

theorem closesString_of_not_mem {text : List Char} (htext : '\"' ∉ text) (hidden : Bool) :
    closesString hidden text = false := by
  induction text generalizing hidden with
  | nil => rfl
  | cons char rest ih =>
      rw [List.mem_cons, not_or] at htext
      rw [closesString_cons, ih htext.2, Bool.or_false, Bool.and_eq_false_iff, beq_eq_false_iff_ne]
      exact Or.inr (Ne.symm htext.1)

/-- What a backslash hides does not matter when it is no quote and no backslash itself. -/
theorem closesString_eq_of_head? {text : List Char}
    (hhead : ∀ char, text.head? = some char → char ≠ '\"' ∧ char ≠ '\\') (hidden : Bool) :
    closesString hidden text = closesString false text := by
  cases text with
  | nil => rfl
  | cons char rest =>
      obtain ⟨hquote, hslash⟩ := hhead char rfl
      rw [closesString_cons_of_ne hquote hslash, closesString_cons_of_ne hquote hslash]

theorem getLast?_of_hidesNext {text : List Char} (hhides : hidesNext false text) :
    text.getLast? = some '\\' := by
  rcases text.eq_nil_or_concat' with rfl | ⟨front, char, rfl⟩
  · exact absurd hhides Bool.false_ne_true
  · rw [hidesNext, List.foldl_append] at hhides
    simp only [List.foldl_cons, List.foldl_nil, Bool.and_eq_true, beq_iff_eq] at hhides
    rw [List.getLast?_concat, hhides.2]

theorem closesString_squeezeFrom (text : List Char) (hidden : Bool) :
    closesString hidden (Blank.squeezeFrom false text) = closesString hidden text ∧
      closesString false (Blank.squeezeFrom true text) = closesString false text := by
  have hblank : ∀ {char : Char}, Blank.isBlank char → char ≠ '\"' ∧ char ≠ '\\' := by
    intro char hchar
    constructor <;> rintro rfl <;> exact absurd hchar (by decide)
  induction text generalizing hidden with
  | nil => exact ⟨rfl, rfl⟩
  | cons char rest ih =>
      rw [Blank.squeezeFrom, Blank.squeezeFrom]
      by_cases hhorizontal : Blank.isHorizontal char
      · obtain ⟨hquote, hslash⟩ := hblank (Blank.isBlank_of_isHorizontal hhorizontal)
        rw [if_pos hhorizontal, if_pos hhorizontal, if_neg Bool.false_ne_true, if_pos rfl,
          closesString_cons_of_ne hquote hslash, closesString_cons_of_ne hquote hslash,
          closesString_cons_of_ne (by decide) (by decide), (ih false).2]
        exact ⟨rfl, rfl⟩
      · rw [if_neg hhorizontal, if_neg hhorizontal, closesString_cons, closesString_cons,
          closesString_cons, closesString_cons, (ih _).1, (ih _).1]
        exact ⟨rfl, rfl⟩

/-- Squeezing leaves quotes and the backslashes before them as they are. -/
theorem closesString_squeeze (hidden : Bool) (text : List Char) :
    closesString hidden (Blank.squeeze text) = closesString hidden text :=
  (closesString_squeezeFrom text hidden).1

/-- Line breaks neither open a string nor close one. -/
theorem quoteStaysOpen_filter_iff {items : List (Token × List Char)}
    (hitems : ∀ item ∈ items, item.1 = .newline → closesString false item.2 = false) :
    QuoteStaysOpen (items.filter fun item => item.1 != .newline) ↔ QuoteStaysOpen items := by
  induction items with
  | nil => rfl
  | cons item rest ih =>
      obtain ⟨hitem, hrest⟩ := List.forall_mem_cons.mp hitems
      by_cases htoken : item.1 = .newline
      · rw [List.filter_cons_of_neg (by simp [htoken]), ih hrest,
          quoteStaysOpen_cons_of_other (by simp [htoken]) (by simp [htoken])]
      · have hlater : (∀ later ∈ rest.filter fun item => item.1 != .newline,
            closesString false later.2 = false) ↔
              ∀ later ∈ rest, closesString false later.2 = false := by
          refine ⟨fun hkept later hmem => ?_, fun hall later hmem =>
            hall later (List.mem_of_mem_filter hmem)⟩
          by_cases hbreak : later.1 = .newline
          · exact hrest later hmem hbreak
          · exact hkept later (List.mem_filter.mpr ⟨hmem, by simp [hbreak]⟩)
        rw [List.filter_cons_of_pos (by simp [htoken]), QuoteStaysOpen, QuoteStaysOpen, hlater,
          ih hrest]

/-! ## Scopes -/

namespace Scope

theorem afterItem_of_other {item : Token × List Char} (hopen : item.1 ≠ .commentOpen)
    (htext : item.1 = .text → '\"' ∉ item.2) (scope : Scope) : scope.afterItem item = scope := by
  rw [afterItem, if_neg hopen, if_neg]
  exact fun hquote => htext hquote.1 hquote.2

def Includes (scope other : Scope) : Prop :=
  ∀ kind, scope.Ignores kind → other.Ignores kind

/-- An item never adds to what is looked for. -/
theorem Includes.afterItem {scope other : Scope} (hincludes : scope.Includes other)
    (item : Token × List Char) : (scope.afterItem item).Includes (other.afterItem item) := by
  unfold Scope.afterItem
  split
  · exact fun _ => id
  split
  · intro kind hignores
    have hstring := hincludes .string
    have hcomment := hincludes .blockComment
    cases kind <;> cases scope <;> cases other <;> simp_all [Ignores, Scope.without]
  · exact hincludes

theorem includes_without (scope : Scope) (kind : Literal.Kind) :
    scope.Includes (scope.without kind) :=
  fun _ hignores => hignores.without kind

end Scope

theorem InScope.mono {scope other : Scope} {items : List (Token × List Char)}
    (hitems : InScope other items) (hincludes : scope.Includes other) : InScope scope items := by
  induction items generalizing scope other with
  | nil => trivial
  | cons item rest ih =>
      refine ⟨fun htoken => ?_, ih hitems.2 (hincludes.afterItem item)⟩
      obtain ⟨kind, hscope, hliteral⟩ := hitems.1 htoken
      exact ⟨kind, mt (hincludes kind) hscope, hliteral⟩

/-- Items that open nothing change no scope. -/
theorem inScope_append {scope : Scope} {front back : List (Token × List Char)}
    (hfront : ∀ item ∈ front, item.1 ≠ .placeholder ∧ scope.afterItem item = scope)
    (hback : InScope scope back) : InScope scope (front ++ back) := by
  induction front with
  | nil => exact hback
  | cons item front ih =>
      obtain ⟨⟨htoken, hafter⟩, hrest⟩ := List.forall_mem_cons.mp hfront
      refine ⟨fun hplaceholder => absurd hplaceholder htoken, ?_⟩
      rw [hafter]
      exact ih hrest

end ChuckLayout
