import ChuckLayout.Proofs.Fidelity

/-!
# What the table of a document holds

The table lists the strings of its source, then the block comments, then the line comments, and hands
out a placeholder of its own to each.  The stream has each of these placeholders once, and looking
them up in the order of the stream gives the literals in the order of the source.
-/

namespace ChuckLayout

open Mark (Extends IsMasked showAll)
open Word (separator)

namespace LiteralTable

def catalogue (table : LiteralTable) : List (Literal.Kind × List Char) :=
  table.literals.map fun literal => (literal.kind, literal.value)

def names (table : LiteralTable) : List (List Char) :=
  table.literals.map Literal.placeholder

/-- The kind and value of the literal behind a placeholder. -/
def literalOf? (table : LiteralTable) (name : List Char) : Option (Literal.Kind × List Char) :=
  (table.literals.find? fun literal => literal.placeholder = name).map fun literal =>
    (literal.kind, literal.value)

structure IsDistinct (table : LiteralTable) : Prop where
  numbered : table.IsNumbered
  nodup : table.names.Nodup

variable {table : LiteralTable} (kind : Literal.Kind) (start : Nat) (value : List Char)

theorem catalogue_add : (table.add kind start value).catalogue = table.catalogue ++ [(kind, value)] := by
  simp [catalogue, add]

theorem names_add :
    (table.add kind start value).names = table.names ++ [table.nextPlaceholder kind] := by
  simp [names, add]

/-- The next number of a kind has not been handed out. -/
theorem IsNumbered.nextPlaceholder_not_mem (hnumbered : table.IsNumbered) :
    table.nextPlaceholder kind ∉ table.names := by
  intro hmem
  obtain ⟨literal, hliteral, hname⟩ := List.mem_map.mp hmem
  obtain ⟨number, hnumber, hplaceholder⟩ := hnumbered literal hliteral
  have hsame : Placeholder.numbered literal.kind table.salt number =
      Placeholder.numbered kind table.salt (table.count kind + 1) :=
    hplaceholder.symm.trans hname
  obtain ⟨rfl, rfl⟩ := Placeholder.numbered_injective hsame
  omega

/-- Adding a literal leaves the placeholders distinct, as the new one is fresh. -/
theorem IsDistinct.add (hdistinct : table.IsDistinct) : (table.add kind start value).IsDistinct where
  numbered := hdistinct.numbered.add kind start value
  nodup := by
    rw [names_add, List.nodup_append]
    refine ⟨hdistinct.nodup, by simp, fun name hname other hother => ?_⟩
    rw [List.mem_singleton.mp hother]
    rintro rfl
    exact hdistinct.numbered.nextPlaceholder_not_mem kind hname

theorem isDistinct_forSource (source : List Char) : (forSource source).IsDistinct :=
  ⟨isNumbered_forSource source, List.nodup_nil⟩

end LiteralTable

/-- On the way from one table to a later one `found` has been put into the table, and the
placeholders that were there `before` have been kept, `after` together with those of `found`. -/
structure Gathers (earlier later : LiteralTable) (found : List (Literal.Kind × List Char))
    (before after : List (List Char)) : Prop where
  catalogue : later.catalogue = earlier.catalogue ++ found
  names : (earlier.names ++ after).Perm (before ++ later.names)
  distinct : earlier.IsDistinct → later.IsDistinct

namespace Gathers

variable {first second third : LiteralTable} {found later : List (Literal.Kind × List Char)}
  {before between after : List (List Char)}

theorem refl (table : LiteralTable) (names : List (List Char)) : Gathers table table [] names names where
  catalogue := (List.append_nil _).symm
  names := List.perm_append_comm
  distinct := id

/-- One pass after the other, over all of a text. -/
theorem trans (hfirst : Gathers first second found before between)
    (hsecond : Gathers second third later between after) :
    Gathers first third (found ++ later) before after where
  catalogue := by rw [hsecond.catalogue, hfirst.catalogue, List.append_assoc]
  names := by
    rw [List.perm_iff_count]
    intro name
    have hcount := hfirst.names.count_eq name
    have hcount' := hsecond.names.count_eq name
    simp only [List.count_append] at hcount hcount' ⊢
    omega
  distinct := hsecond.distinct ∘ hfirst.distinct

/-- One pass over a text and then over what follows it. -/
theorem append {before' after' : List (List Char)} (hfirst : Gathers first second found before after)
    (hsecond : Gathers second third later before' after') :
    Gathers first third (found ++ later) (before ++ before') (after ++ after') where
  catalogue := by rw [hsecond.catalogue, hfirst.catalogue, List.append_assoc]
  names := by
    rw [List.perm_iff_count]
    intro name
    have hcount := hfirst.names.count_eq name
    have hcount' := hsecond.names.count_eq name
    simp only [List.count_append] at hcount hcount' ⊢
    omega
  distinct := hsecond.distinct ∘ hfirst.distinct

/-- One literal goes into the table, and its placeholder into the text. -/
theorem add (table : LiteralTable) (kind : Literal.Kind) (start : Nat) (value : List Char) :
    Gathers table (table.add kind start value) [(kind, value)] [] [table.nextPlaceholder kind] where
  catalogue := LiteralTable.catalogue_add kind start value
  names := by rw [LiteralTable.names_add, List.nil_append]
  distinct hdistinct := hdistinct.add kind start value

end Gathers

/-! ## Masking -/

namespace Mark

def holes (marks : List Mark) : List (List Char) :=
  marks.filterMap fun
    | hole name _ => some name
    | _ => none

/-- The literals of one kind among marks, as they go into the table. -/
def literalsIn (kind : Literal.Kind) (marks : List Mark) : List (Literal.Kind × List Char) :=
  marks.filterMap fun
    | literal other text => if other = kind then some (kind, kind.trimmed text) else none
    | _ => none

theorem holes_append (front back : List Mark) : holes (front ++ back) = holes front ++ holes back :=
  List.filterMap_append

theorem holes_codes (text : List Char) : holes (codes text) = [] := by
  simp [holes, codes, List.filterMap_map]

theorem holes_hole (name value : List Char) (rest : List Mark) :
    holes (hole name value :: rest) = name :: holes rest := rfl

theorem literalsIn_append (kind : Literal.Kind) (front back : List Mark) :
    literalsIn kind (front ++ back) = literalsIn kind front ++ literalsIn kind back :=
  List.filterMap_append

theorem literalsIn_codes (kind : Literal.Kind) (text : List Char) : literalsIn kind (codes text) = [] := by
  simp [literalsIn, codes, List.filterMap_map]

theorem literalsIn_hole (kind : Literal.Kind) (name value : List Char) (rest : List Mark) :
    literalsIn kind (hole name value :: rest) = literalsIn kind rest := rfl

theorem literalsIn_literal_of_ne {kind other : Literal.Kind} (hne : other ≠ kind) (text : List Char)
    (rest : List Mark) : literalsIn kind (literal other text :: rest) = literalsIn kind rest :=
  List.filterMap_cons_none (if_neg hne)

theorem literalsIn_literal_self (kind : Literal.Kind) (text : List Char) (rest : List Mark) :
    literalsIn kind (literal kind text :: rest) =
      (kind, kind.trimmed text) :: literalsIn kind rest :=
  List.filterMap_cons_some (if_pos rfl)

/-- A pass puts the literals of its kind into the table, and their placeholders into the text in
their stead. -/
theorem gathers_hide {kind : Literal.Kind} (hkind : kind ≠ .lineComment) (marks : List Mark)
    (before : Option Char) (offset : Nat) (table : LiteralTable) :
    Gathers table (hide kind before offset table marks).2 (literalsIn kind marks) (holes marks)
      (holes (hide kind before offset table marks).1) := by
  induction marks generalizing before offset table with
  | nil => exact Gathers.refl table []
  | cons mark rest ih =>
      cases mark with
      | code char => exact ih _ _ _
      | hole name value => exact (Gathers.refl table [name]).append (ih _ _ _)
      | unclosed other char =>
          rw [hide, keep]
          split <;> exact ih _ _ _
      | literal other text =>
          by_cases hother : other = kind
          · subst hother
            have htrimmed : other.trimmed text = text := if_neg hkind
            rw [hide_literal_self, literalsIn_literal_self, htrimmed, holes_append, holes_codes,
              holes_hole, holes_append, holes_codes]
            exact (Gathers.add table other offset text).append (ih _ _ _)
          · rw [hide, if_neg hother, literalsIn_literal_of_ne hother]
            exact ih _ _ _

/-- A pass keeps the literals of other kinds. -/
theorem literalsIn_hide {kind other : Literal.Kind} (hother : kind ≠ other) (marks : List Mark)
    (before : Option Char) (offset : Nat) (table : LiteralTable) :
    literalsIn other (hide kind before offset table marks).1 = literalsIn other marks := by
  induction marks generalizing before offset table with
  | nil => rfl
  | cons mark rest ih =>
      cases mark with
      | code char => exact ih _ _ _
      | hole name value => exact ih _ _ _
      | unclosed third char =>
          rw [hide, keep]
          split <;> exact ih _ _ _
      | literal third text =>
          by_cases hthird : third = kind
          · subst hthird
            rw [hide_literal_self, literalsIn_literal_of_ne hother, literalsIn_append,
              literalsIn_codes, literalsIn_hole, literalsIn_append, literalsIn_codes]
            exact ih _ _ _
          · rw [hide, if_neg hthird, keep]
            by_cases hsame : third = other
            · subst hsame
              rw [literalsIn_literal_self, literalsIn_literal_self, ih]
            · rw [literalsIn_literal_of_ne hsame, literalsIn_literal_of_ne hsame, ih]

end Mark

/-! ## Lines -/

open Mark (holes literalsIn)

/-- Every hole of a line is lexed as a placeholder, and nothing else is. -/
theorem placeholderTexts_lexPlain {line : List Mark} (code : List Char)
    (hplain : ∀ mark ∈ line, mark.IsPlain) :
    placeholderTexts ((lexPlain code (line.map Mark.hidden)).map Lexeme.item) = holes line := by
  induction hplain using Mark.plain_induction generalizing code with
  | nil => exact placeholderTexts_codeOf code
  | code char rest _ _ ih => exact ih _
  | hole name value rest _ ih =>
      rw [List.map_cons, Mark.hidden, lexPlain, List.map_append, placeholderTexts_append,
        placeholderTexts_codeOf, List.nil_append, List.map_cons, Mark.holes_hole,
        placeholderTexts_cons_of_eq rfl, ih []]
      rfl

theorem literalsIn_plain {line : List Mark} (hplain : ∀ mark ∈ line, mark.IsPlain)
    (kind : Literal.Kind) : literalsIn kind line = [] := by
  rw [literalsIn, List.filterMap_eq_nil_iff]
  intro mark hmark
  have hplain := hplain mark hmark
  cases mark with
  | literal _ _ => exact hplain.elim
  | unclosed _ _ => rfl
  | code _ => rfl
  | hole _ _ => rfl

theorem gathers_lexedLine {line : List Mark} (hplain : ∀ mark ∈ line, mark.IsPlain)
    (comment : Option (List Char)) (table : LiteralTable) :
    Gathers table (lexedLine table line comment).table
      (literalsIn .lineComment (withComment line comment)) (holes (withComment line comment))
      (placeholderTexts ((lexedLine table line comment).lexemes.map Lexeme.item)) := by
  have hnames := placeholderTexts_lexPlain [] hplain
  rw [withComment, Mark.literalsIn_append, literalsIn_plain hplain, Mark.holes_append]
  cases comment with
  | none =>
      rw [lexedLine, List.map_append, placeholderTexts_append, hnames]
      exact (Gathers.refl table (holes line)).append (Gathers.refl table [])
  | some comment =>
      rw [lexedLine, List.map_append, placeholderTexts_append, hnames]
      exact (Gathers.refl table (holes line)).append (Gathers.add table .lineComment _ _)

/-- Lexing the lines puts all their comments into the table, in order. -/
theorem gathers_lexLines {table : LiteralTable} {marks : List Mark}
    (hmasked : IsMasked .lineComments table marks) :
    Gathers table (table.lexLines (Line.split (showAll marks))).table
      (literalsIn .lineComment marks) (holes marks)
      (placeholderTexts ((table.lexLines (Line.split (showAll marks))).lexemes.map Lexeme.item)) := by
  refine lexLines_induction (motive := fun table marks lexed =>
    Gathers table lexed.table (literalsIn .lineComment marks) (holes marks)
      (placeholderTexts (lexed.lexemes.map Lexeme.item))) ?_ ?_ hmasked
  · intro table line comment rest hplain hmasked
    rw [(lexemes_withComment hplain hmasked).1]
    exact gathers_lexedLine hplain comment table
  · intro table front back first second hfirst hsecond
    rw [Mark.literalsIn_append, Mark.holes_append, List.map_append, placeholderTexts_append]
    exact hfirst.append hsecond

/-! ## The document -/

theorem literalsIn_ofSegment (kind : Literal.Kind) (source : List Char) :
    literalsIn kind ((segments .all source).map Mark.ofSegment) =
      (literalsOf source).filter fun literal => literal.1 = kind := by
  rw [literalsIn, literalsOf, List.filterMap_map, List.filter_filterMap]
  apply List.filterMap_congr
  intro segment _
  cases segment with
  | code _ => rfl
  | unclosed _ _ => rfl
  | literal other text => cases other <;> cases kind <;> rfl

/-- The pass for strings leaves the literals of other kinds for later. -/
theorem literalsIn_hiddenStrings {kind : Literal.Kind} (hkind : .string ≠ kind) (source : List Char) :
    literalsIn kind (hiddenStrings source).1 =
      (literalsOf source).filter fun literal => literal.1 = kind := by
  rw [hiddenStrings, Mark.literalsIn_hide hkind, literalsIn_ofSegment]

theorem literalsIn_hiddenLiterals {kind : Literal.Kind} (hstring : .string ≠ kind)
    (hcomment : .blockComment ≠ kind) (source : List Char) :
    literalsIn kind (hiddenLiterals source).1 =
      (literalsOf source).filter fun literal => literal.1 = kind := by
  rw [hiddenLiterals, Mark.literalsIn_hide hcomment, literalsIn_hiddenStrings hstring]

/-- Lexing a document puts its literals into the table kind by kind, and their placeholders into the
stream. -/
theorem gathers_lex (source : List Char) :
    Gathers (LiteralTable.forSource source) (Document.lex source).table
      (Literal.Kind.all.flatMap fun kind => (literalsOf source).filter fun literal => literal.1 = kind)
      [] (placeholderTexts ((Document.lex source).lexemes.map Lexeme.item)) := by
  have hnone : holes ((segments .all source).map Mark.ofSegment) = [] := by
    rw [holes, List.filterMap_map, List.filterMap_eq_nil_iff]
    intro segment _
    cases segment <;> rfl
  have hstrings := Mark.gathers_hide (show Literal.Kind.string ≠ .lineComment by decide)
    ((segments .all source).map Mark.ofSegment) none 0 (LiteralTable.forSource source)
  have hcomments := Mark.gathers_hide (show Literal.Kind.blockComment ≠ .lineComment by decide)
    (hiddenStrings source).1 none 0 (hiddenStrings source).2
  have hlines := gathers_lexLines (isMasked_hiddenLiterals source)
  rw [hnone, literalsIn_ofSegment] at hstrings
  rw [literalsIn_hiddenStrings (by decide)] at hcomments
  rw [literalsIn_hiddenLiterals (by decide) (by decide)] at hlines
  have hall := (hstrings.trans hcomments).trans hlines
  rw [Document.lex, mask_eq, LiteralTable.lex, lexLines_dropReturn]
  simpa [Literal.Kind.all] using hall

/-- The table holds the literals of the source, kind by kind and each kind in its order in the
source. -/
theorem catalogue_lex (source : List Char) :
    (Document.lex source).table.catalogue =
      Literal.Kind.all.flatMap fun kind => (literalsOf source).filter fun literal => literal.1 = kind :=
  (gathers_lex source).catalogue

/-- The placeholders of the stream are those of the table. -/
theorem perm_names_lex (source : List Char) :
    (placeholderTexts ((Document.lex source).lexemes.map Lexeme.item)).Perm
      (Document.lex source).table.names :=
  (gathers_lex source).names

theorem isDistinct_lex (source : List Char) : (Document.lex source).table.IsDistinct :=
  (gathers_lex source).distinct (LiteralTable.isDistinct_forSource source)

theorem mem_literalsOf {source : List Char} {literal : Literal}
    (hliteral : literal ∈ (Document.lex source).table.literals) :
    (literal.kind, literal.value) ∈ literalsOf source := by
  have hmem : (literal.kind, literal.value) ∈ (Document.lex source).table.catalogue :=
    List.mem_map_of_mem hliteral
  rw [catalogue_lex, List.mem_flatMap] at hmem
  obtain ⟨kind, -, hmem⟩ := hmem
  exact List.mem_of_mem_filter hmem

theorem exists_of_mem_literalsOf {source value : List Char} {kind : Literal.Kind}
    (hmem : (kind, value) ∈ literalsOf source) :
    ∃ literal ∈ (Document.lex source).table.literals, literal.value = value := by
  have hlisted : (kind, value) ∈ (Document.lex source).table.catalogue := by
    rw [catalogue_lex, List.mem_flatMap]
    exact ⟨kind, by cases kind <;> decide, List.mem_filter.mpr ⟨hmem, decide_eq_true rfl⟩⟩
  obtain ⟨literal, hliteral, hsame⟩ := List.mem_map.mp hlisted
  exact ⟨literal, hliteral, (Prod.mk.inj hsame).2⟩

/-- What a reading finds as a literal is one by itself, without what stands around it. -/
theorem isLiteral_of_mem_reads {scope : Scope} {text literal : List Char} {kind : Literal.Kind}
    {found : List Segment} (hreads : Reads scope text found) (hmem : .literal kind literal ∈ found) :
    IsLiteral kind (kind.trimmed literal) ∧ kind.trimmed literal <:+: text := by
  induction hreads with
  | done => exact absurd hmem List.not_mem_nil
  | code _ _ ih =>
      obtain ⟨hliteral, hinfix⟩ := ih (by simpa using hmem)
      exact ⟨hliteral, List.infix_cons hinfix⟩
  | unclosed _ _ _ ih =>
      obtain ⟨hliteral, hinfix⟩ := ih (by simpa using hmem)
      exact ⟨hliteral, List.infix_cons hinfix⟩
  | @literal scope other char tail rest found hopening hwhole hrest ih =>
      rcases List.mem_cons.mp hmem with heq | hlater
      · obtain ⟨rfl, rfl⟩ := Segment.literal.inj heq
        refine ⟨isLiteral_trimmed hopening hwhole, ?_⟩
        exact ((isPrefix_trimmed kind (char :: tail)).trans (List.prefix_append _ rest)).isInfix
      · obtain ⟨hliteral, hinfix⟩ := ih hlater
        exact ⟨hliteral, hinfix.trans (List.suffix_append _ rest).isInfix⟩

/-- A literal of a source is whole, and stands in the source. -/
theorem isLiteral_of_mem_literalsOf {source value : List Char} {kind : Literal.Kind}
    (hmem : (kind, value) ∈ literalsOf source) : IsLiteral kind value ∧ value <:+: source := by
  obtain ⟨segment, hsegment, hvalue⟩ := List.mem_filterMap.mp hmem
  cases segment with
  | code _ => exact absurd hvalue.symm (Option.some_ne_none _)
  | unclosed _ _ => exact absurd hvalue.symm (Option.some_ne_none _)
  | literal other text =>
      have hpair : (other, other.trimmed text) = (kind, value) := by
        cases other <;> exact Option.some.inj hvalue
      obtain ⟨rfl, rfl⟩ := Prod.mk.inj hpair
      exact isLiteral_of_mem_reads (reads_segments .all source) hsegment

theorem Lexeme.dropped_reveal (table : LiteralTable) (lexeme : Lexeme) :
    (lexeme.reveal table).dropped = lexeme.dropped := by
  rw [Lexeme.reveal]
  split <;> rfl

theorem dropped_of_mem_lex {source : List Char} :
    ∀ lexeme ∈ (Document.lex source).lexemes, lexeme.dropped = false := by
  intro lexeme hlexeme
  have hmem := List.mem_map_of_mem (f := Lexeme.reveal (Document.lex source).table) hlexeme
  rw [(lexesTo_document source).revealed] at hmem
  rw [← Lexeme.dropped_reveal (Document.lex source).table, isFresh_of_mem_lexAtoms hmem]

/-- The passes over the lexemes leave the placeholders. -/
theorem placeholderTexts_stream (source : List Char) :
    placeholderTexts ((Document.stream source).map Lexeme.item) =
      placeholderTexts ((Document.lex source).lexemes.map Lexeme.item) := by
  rw [← placeholderTexts_filter ((Document.stream source).map Lexeme.item), Document.stream,
    filter_map_item_applyAll dropped_of_mem_lex, placeholderTexts_filter]

/-! ## Looking literals up -/

theorem valueOf?_eq (table : LiteralTable) (name : List Char) :
    table.valueOf? name = (table.literalOf? name).map Prod.snd := by
  rw [LiteralTable.valueOf?, LiteralTable.literalOf?, Option.map_map]
  rfl

/-- The kind of a literal that the table knows is told by its value. -/
theorem literalOf?_eq_of_knows {source name value : List Char}
    (hknows : (Document.lex source).table.Knows name value) :
    (Document.lex source).table.literalOf? name =
      (literalKind? value).map fun kind => (kind, value) := by
  rw [LiteralTable.Knows, LiteralTable.valueOf?] at hknows
  obtain ⟨literal, hfound, rfl⟩ := Option.map_eq_some_iff.mp hknows
  have hmem := mem_literalsOf (List.mem_of_find?_eq_some hfound)
  rw [LiteralTable.literalOf?, hfound,
    (isLiteral_of_mem_literalsOf hmem).1.literalKind?_eq]
  rfl

/-- The values of the placeholders are what stands in their place once they are revealed. -/
theorem placeholderTexts_reveal {table : LiteralTable} {lexemes : List Lexeme}
    (hsound : ∀ lexeme ∈ lexemes, lexeme.IsSound table) :
    (placeholderTexts (lexemes.map Lexeme.item)).map table.valueOf? =
      (placeholderTexts ((lexemes.map (Lexeme.reveal table)).map Lexeme.item)).map some := by
  induction lexemes with
  | nil => rfl
  | cons lexeme rest ih =>
      obtain ⟨hlexeme, hrest⟩ := List.forall_mem_cons.mp hsound
      by_cases htoken : lexeme.token = .placeholder
      · obtain ⟨value, hknows⟩ := hlexeme.known htoken
        have hreveal : (lexeme.reveal table).item = (.placeholder, value) := by
          rw [LiteralTable.Knows] at hknows
          simp [Lexeme.reveal, htoken, Lexeme.item, hknows]
        have hshown : (lexeme.reveal table).item.1 = .placeholder := by rw [hreveal]
        rw [List.map_cons, List.map_cons, List.map_cons, placeholderTexts_cons_of_eq hshown,
          placeholderTexts_cons_of_eq htoken, List.map_cons, List.map_cons, ih hrest, hreveal]
        exact congrArg (· :: _) hknows
      · have hreveal : lexeme.reveal table = lexeme := if_neg htoken
        rw [List.map_cons, List.map_cons, List.map_cons, hreveal, placeholderTexts_cons_of_ne htoken,
          placeholderTexts_cons_of_ne htoken, ih hrest]

/-- Placeholders with these values behind them have the literals behind them that the values are. -/
theorem map_literalOf?_eq {source : List Char} {names values : List (List Char)}
    (hvalues : names.map (Document.lex source).table.valueOf? = values.map some) :
    names.map (Document.lex source).table.literalOf? =
      (values.filterMap fun value => (literalKind? value).map fun kind => (kind, value)).map some := by
  induction names generalizing values with
  | nil =>
      rw [List.map_nil, eq_comm, List.map_eq_nil_iff] at hvalues
      rw [hvalues]
      rfl
  | cons name names ih =>
      cases values with
      | nil => exact absurd hvalues (List.cons_ne_nil _ _)
      | cons value values =>
          obtain ⟨hknows, hlater⟩ := List.cons.inj hvalues
          have hliteral := literalOf?_eq_of_knows hknows
          rw [valueOf?_eq] at hknows
          obtain ⟨literal, hfound, rfl⟩ := Option.map_eq_some_iff.mp hknows
          rw [hfound] at hliteral
          rw [List.map_cons, ih hlater, hfound, List.filterMap_cons, ← hliteral]
          rfl

/-- The placeholders of the lexemes, in their order, stand for the literals of the source, in its
order, before the passes as after them, and no literal holds a placeholder. -/
theorem literalOf?_placeholders (source : List Char) :
    (placeholderTexts ((Document.lex source).lexemes.map Lexeme.item)).map
        (Document.lex source).table.literalOf? = (literalsOf source).map some ∧
      (placeholderTexts ((Document.stream source).map Lexeme.item)).map
        (Document.lex source).table.literalOf? = (literalsOf source).map some ∧
      ∀ literal ∈ (Document.lex source).table.literals, ∀ other ∈ (Document.lex source).table.literals,
        ¬other.placeholder <:+: literal.value := by
  have hlex := lexesTo_document source
  have hvalues := placeholderTexts_reveal hlex.sound
  rw [hlex.revealed, placeholderTexts_lexAtoms] at hvalues
  have hliterals := map_literalOf?_eq hvalues
  rw [← literalsOf_eq] at hliterals
  refine ⟨hliterals, by rw [placeholderTexts_stream, hliterals], ?_⟩
  intro literal hliteral other hother hinfix
  obtain ⟨number, -, hplaceholder⟩ := (isDistinct_lex source).numbered other hother
  have hunused : Placeholder.IsUnused (Document.lex source).table.salt literal.value := by
    rw [LiteralTable.salt, hlex.extends'.saltSize]
    exact (LiteralTable.isUnused_forSource source).of_isInfix
      (isLiteral_of_mem_literalsOf (mem_literalsOf hliteral)).2
  rw [hplaceholder, Placeholder.numbered] at hinfix
  exact hunused other.kind ((List.prefix_append _ _).isInfix.trans hinfix)

end ChuckLayout
