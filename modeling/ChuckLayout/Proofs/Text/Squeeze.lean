import ChuckLayout.Proofs.Text.Solid
import ChuckLayout.Text.Line

/-!
# Squeezed text and the content of a line

Squeezing works line by line, and what is left of a line once it is squeezed and trimmed is its
content.  The content of a line that begins with a tight piece is that piece, squeezed, and then the
content of the rest of the line, set off by one space when a blank stands between them.
-/

namespace ChuckLayout.Blank

def padding (padded : Bool) : List Char :=
  if padded then [' '] else []

def startsBlank (text : List Char) : Bool :=
  text.head?.any isBlank

def content (line : List Char) : List Char :=
  trim (squeeze line)

theorem allBlank_padding (padded : Bool) : AllBlank (padding padded) := by
  cases padded <;> simp [padding, AllBlank, isBlank_space]

theorem isHorizontal_eq_isBlank {char : Char} (hchar : char ≠ '\n') :
    isHorizontal char = isBlank char := by
  simp [isHorizontal, hchar]

theorem isBlank_of_isHorizontal {char : Char} (hchar : isHorizontal char) : isBlank char := by
  simp only [isHorizontal, Bool.and_eq_true] at hchar
  exact hchar.1

/-! ## Squeezing a text in parts -/

/-- A character that is not blank ends every run, so the text after it is squeezed by itself. -/
theorem squeezeFrom_append_cons {last : Char} (hlast : isHorizontal last = false)
    (afterBlank : Bool) (front back : List Char) :
    squeezeFrom afterBlank (front ++ last :: back) =
      squeezeFrom afterBlank front ++ last :: squeezeFrom false back := by
  induction front generalizing afterBlank with
  | nil => simp [squeezeFrom, hlast]
  | cons char front ih =>
      simp only [List.cons_append, squeezeFrom]
      split
      · split <;> simp [ih]
      · simp [ih]

theorem squeezeFrom_concat {last : Char} (hlast : isHorizontal last = false) (afterBlank : Bool)
    (front : List Char) :
    squeezeFrom afterBlank (front ++ [last]) = squeezeFrom afterBlank front ++ [last] :=
  squeezeFrom_append_cons hlast afterBlank front []

/-- What is left of the back of a text depends on the front only by whether a blank ends it. -/
theorem exists_squeezeFrom_append (afterBlank : Bool) (front back : List Char) :
    ∃ after, squeezeFrom afterBlank (front ++ back) =
      squeezeFrom afterBlank front ++ squeezeFrom after back := by
  induction front generalizing afterBlank with
  | nil => exact ⟨afterBlank, rfl⟩
  | cons char front ih =>
      rw [List.cons_append, squeezeFrom, squeezeFrom]
      split
      · obtain ⟨after, hrest⟩ := ih true
        rw [hrest]
        split <;> exact ⟨after, rfl⟩
      · obtain ⟨after, hrest⟩ := ih false
        exact ⟨after, by rw [hrest]; rfl⟩

/-- A run of blanks is one space, if it is not the end of a run. -/
theorem squeezeFrom_run_append {run : List Char} (hne : run ≠ [])
    (hrun : ∀ char ∈ run, isHorizontal char) (afterBlank : Bool) (back : List Char) :
    squeezeFrom afterBlank (run ++ back) = padding (!afterBlank) ++ squeezeFrom true back := by
  obtain ⟨first, rest, rfl⟩ := List.exists_cons_of_ne_nil hne
  obtain ⟨hfirst, hrest⟩ := List.forall_mem_cons.mp hrun
  have htail : squeezeFrom true (rest ++ back) = squeezeFrom true back := by
    clear hrun hne
    induction rest with
    | nil => rfl
    | cons char rest ih =>
        obtain ⟨hchar, hrest⟩ := List.forall_mem_cons.mp hrest
        rw [List.cons_append, squeezeFrom, if_pos hchar, if_pos rfl, ih hrest]
  rw [List.cons_append, squeezeFrom, if_pos hfirst, htail]
  cases afterBlank <;> rfl

theorem squeezeFrom_append_congr {back back' : List Char}
    (hback : ∀ afterBlank, squeezeFrom afterBlank back = squeezeFrom afterBlank back')
    (afterBlank : Bool) (front : List Char) :
    squeezeFrom afterBlank (front ++ back) = squeezeFrom afterBlank (front ++ back') := by
  induction front generalizing afterBlank with
  | nil => exact hback afterBlank
  | cons char front ih => simp only [List.cons_append, squeezeFrom, ih]

theorem squeezeFrom_of_head {text : List Char}
    (hhead : text.head?.any fun char => !isHorizontal char) (afterBlank : Bool) :
    squeezeFrom afterBlank text = squeeze text := by
  cases text with
  | nil => rfl
  | cons char rest =>
      simp only [List.head?_cons, Option.any_some, Bool.not_eq_true'] at hhead
      simp [squeeze, squeezeFrom, hhead]

theorem solid_squeezeFrom (afterBlank : Bool) (text : List Char) :
    solid (squeezeFrom afterBlank text) = solid text := by
  induction text generalizing afterBlank with
  | nil => rfl
  | cons char rest ih =>
      rw [squeezeFrom]
      split
      · rename_i hhorizontal
        rw [solid_cons_of_blank (isBlank_of_isHorizontal hhorizontal)]
        split
        · exact ih true
        · rw [solid_cons_of_blank isBlank_space, ih]
      · cases hblank : isBlank char
        · rw [solid_cons_of_not_blank hblank, solid_cons_of_not_blank hblank, ih]
        · rw [solid_cons_of_blank hblank, solid_cons_of_blank hblank, ih]

theorem solid_squeeze (text : List Char) : solid (squeeze text) = solid text :=
  solid_squeezeFrom false text

theorem mem_squeeze_iff {char : Char} (hsolid : isBlank char = false) {text : List Char} :
    char ∈ squeeze text ↔ char ∈ text := by
  have hmem : ∀ text : List Char, char ∈ solid text ↔ char ∈ text := by
    simp [solid, hsolid]
  rw [← hmem, solid_squeeze, hmem]

/-- Of the horizontal blanks nothing is left but spaces. -/
theorem mem_of_mem_squeezeFrom {char : Char} {afterBlank : Bool} {text : List Char}
    (hchar : char ∈ squeezeFrom afterBlank text) :
    char = ' ' ∨ char ∈ text ∧ isHorizontal char = false := by
  induction text generalizing afterBlank with
  | nil => exact absurd hchar List.not_mem_nil
  | cons first rest ih =>
      have hlater : char = ' ' ∨ char ∈ rest ∧ isHorizontal char = false →
          char = ' ' ∨ char ∈ first :: rest ∧ isHorizontal char = false :=
        Or.imp_right fun hmem => ⟨List.mem_cons_of_mem first hmem.1, hmem.2⟩
      rw [squeezeFrom] at hchar
      split at hchar
      · split at hchar
        · exact hlater (ih hchar)
        · rcases List.mem_cons.mp hchar with rfl | hmem
          · exact Or.inl rfl
          · exact hlater (ih hmem)
      · rename_i hfirst
        rcases List.mem_cons.mp hchar with rfl | hmem
        · exact Or.inr ⟨List.mem_cons_self, Bool.eq_false_iff.mpr hfirst⟩
        · exact hlater (ih hmem)

theorem mem_of_mem_squeeze {char : Char} {text : List Char} (hchar : char ∈ squeeze text) :
    char = ' ' ∨ char ∈ text :=
  (mem_of_mem_squeezeFrom hchar).imp_right And.left

theorem AllBlank.squeezeFrom {text : List Char} (hblank : AllBlank text) (afterBlank : Bool) :
    AllBlank (squeezeFrom afterBlank text) := by
  rw [← solid_eq_nil_iff, solid_squeezeFrom, hblank.solid_eq_nil]

theorem isPrefix_of_isPrefix_squeeze {pattern text : List Char}
    (hpattern : ∀ char ∈ pattern, isBlank char = false) (hstarts : pattern <+: squeeze text) :
    pattern <+: text := by
  induction text generalizing pattern with
  | nil => exact hstarts
  | cons char rest ih =>
      cases pattern with
      | nil => exact List.nil_prefix
      | cons first pattern =>
          obtain ⟨hfirst, hrest⟩ := List.forall_mem_cons.mp hpattern
          rw [squeeze, squeezeFrom] at hstarts
          split at hstarts
          · simp only [Bool.false_eq_true, if_false, List.cons_prefix_cons] at hstarts
            rw [hstarts.1] at hfirst
            exact absurd hfirst (by decide)
          · rw [List.cons_prefix_cons] at hstarts ⊢
            exact ⟨hstarts.1, ih hrest hstarts.2⟩

/-- Squeezing brings no characters together that stand apart. -/
theorem isInfix_of_isInfix_squeeze {pattern text : List Char}
    (hpattern : ∀ char ∈ pattern, isBlank char = false) (hoccurs : pattern <:+: squeeze text) :
    pattern <:+: text := by
  rw [squeeze] at hoccurs
  generalize hafter : false = afterBlank at hoccurs
  clear hafter
  induction text generalizing afterBlank with
  | nil => exact hoccurs
  | cons char rest ih =>
      rw [List.infix_cons_iff]
      rw [squeezeFrom] at hoccurs
      split at hoccurs
      · split at hoccurs
        · exact Or.inr (ih _ hoccurs)
        · rcases List.infix_cons_iff.mp hoccurs with hstarts | hlater
          · cases pattern with
            | nil => exact Or.inl List.nil_prefix
            | cons first pattern =>
                have hfirst := hpattern first List.mem_cons_self
                rw [(List.cons_prefix_cons.mp hstarts).1] at hfirst
                exact absurd hfirst (by decide)
          · exact Or.inr (ih _ hlater)
      · rename_i hhorizontal
        rcases List.infix_cons_iff.mp hoccurs with hstarts | hlater
        · left
          apply isPrefix_of_isPrefix_squeeze hpattern
          rwa [squeeze, squeezeFrom, if_neg hhorizontal]
        · exact Or.inr (ih _ hlater)

/-- Squeezed text has nothing left to squeeze. -/
theorem squeezeFrom_squeezeFrom_append (afterBlank : Bool) (front back : List Char) :
    squeezeFrom afterBlank (squeezeFrom afterBlank front ++ back) =
      squeezeFrom afterBlank (front ++ back) := by
  induction front generalizing afterBlank with
  | nil => rfl
  | cons char rest ih =>
      rw [List.cons_append, squeezeFrom, squeezeFrom]
      cases hhorizontal : isHorizontal char with
      | false =>
          rw [if_neg Bool.false_ne_true, if_neg Bool.false_ne_true, List.cons_append, squeezeFrom,
            hhorizontal, if_neg Bool.false_ne_true, ih]
      | true =>
          rw [if_pos rfl, if_pos rfl]
          cases afterBlank with
          | true => exact ih true
          | false =>
              have hspace : isHorizontal ' ' := by decide
              rw [if_neg Bool.false_ne_true, if_neg Bool.false_ne_true, List.cons_append, squeezeFrom,
                if_pos hspace, if_neg Bool.false_ne_true, ih]

theorem squeeze_append_of_eq {front front' : List Char} (hfront : squeeze front = squeeze front')
    (back : List Char) : squeeze (front ++ back) = squeeze (front' ++ back) :=
  calc squeeze (front ++ back)
      = squeeze (squeeze front ++ back) := (squeezeFrom_squeezeFrom_append false front back).symm
    _ = squeeze (squeeze front' ++ back) := by rw [hfront]
    _ = squeeze (front' ++ back) := squeezeFrom_squeezeFrom_append false front' back

theorem squeezeFrom_squeezeFrom (afterBlank : Bool) (text : List Char) :
    squeezeFrom afterBlank (squeezeFrom afterBlank text) = squeezeFrom afterBlank text := by
  have happend := squeezeFrom_squeezeFrom_append afterBlank text []
  rwa [List.append_nil, List.append_nil] at happend

theorem squeeze_squeeze (text : List Char) : squeeze (squeeze text) = squeeze text :=
  squeezeFrom_squeezeFrom false text

theorem head?_squeeze_of_not_blank {char : Char} (hsolid : isBlank char = false)
    (rest : List Char) : (squeeze (char :: rest)).head? = some char := by
  simp [squeeze, squeezeFrom, isHorizontal, hsolid]

theorem getLast?_squeezeFrom_concat {char : Char} (hsolid : isBlank char = false)
    (front : List Char) (afterBlank : Bool) :
    (squeezeFrom afterBlank (front ++ [char])).getLast? = some char := by
  rw [squeezeFrom_concat (by simp [isHorizontal, hsolid]), List.getLast?_concat]

theorem IsTight.exists_cons {text : List Char} (htight : IsTight text) :
    ∃ char rest, text = char :: rest ∧ isBlank char = false := by
  cases text with
  | nil => simp [IsTight] at htight
  | cons char rest => exact ⟨char, rest, rfl, by simpa using htight.1⟩

theorem IsTight.exists_concat {text : List Char} (htight : IsTight text) :
    ∃ front char, text = front ++ [char] ∧ isBlank char = false := by
  rcases text.eq_nil_or_concat' with rfl | ⟨front, char, rfl⟩
  · simp [IsTight] at htight
  · exact ⟨front, char, rfl, by simpa using htight.2⟩

theorem IsTight.ne_nil {text : List Char} (htight : IsTight text) : text ≠ [] := by
  obtain ⟨char, rest, rfl, -⟩ := htight.exists_cons
  exact List.cons_ne_nil _ _

theorem IsTight.not_allBlank {text : List Char} (htight : IsTight text) : ¬AllBlank text := by
  obtain ⟨char, rest, rfl, hsolid⟩ := htight.exists_cons
  intro hblank
  simp [allBlank_cons, hsolid] at hblank

theorem isTight_squeeze {text : List Char} (htight : IsTight text) : IsTight (squeeze text) := by
  constructor
  · obtain ⟨char, rest, rfl, hsolid⟩ := htight.exists_cons
    simp [head?_squeeze_of_not_blank hsolid, hsolid]
  · obtain ⟨front, char, rfl, hsolid⟩ := htight.exists_concat
    simp [squeeze, getLast?_squeezeFrom_concat hsolid, hsolid]

theorem head?_squeeze {text : List Char} (htight : IsTight text) :
    (squeeze text).head? = text.head? := by
  obtain ⟨char, rest, rfl, hsolid⟩ := htight.exists_cons
  exact head?_squeeze_of_not_blank hsolid rest

theorem getLast?_squeeze {text : List Char} (htight : IsTight text) :
    (squeeze text).getLast? = text.getLast? := by
  obtain ⟨front, char, rfl, hsolid⟩ := htight.exists_concat
  rw [List.getLast?_concat]
  exact getLast?_squeezeFrom_concat hsolid front false

theorem isTight_trim {text : List Char} (htext : ¬AllBlank text) : IsTight (trim text) := by
  have hne : trim text ≠ [] := by
    intro hnil
    apply htext
    rw [← solid_eq_nil_iff, ← solid_trim, hnil, solid_nil]
  obtain ⟨trail, -, hstart⟩ := exists_trimEnd (trimStart text)
  obtain ⟨char, rest, htrim⟩ := List.exists_cons_of_ne_nil hne
  constructor
  · rw [htrim, List.head?_cons, Option.any_some, Bool.not_eq_true']
    apply head?_trimStart text
    rw [hstart, ← trim, htrim]
    rfl
  · rw [List.getLast?_eq_some_getLast hne, Option.any_some, Bool.not_eq_true']
    exact getLast?_trimEnd (trimStart text) _ (List.getLast?_eq_some_getLast hne)

theorem trim_trim (text : List Char) : trim (trim text) = trim text := by
  by_cases hblank : AllBlank text
  · rw [trim_eq_nil_iff.mpr hblank]
    rfl
  · exact trim_of_tight (isTight_trim hblank)

/-! ## Lines -/

theorem split_cons (char : Char) (rest : List Char) :
    Line.split (char :: rest) =
      if char = '\n' then [] :: Line.split rest
      else (Line.split rest).modifyHead (char :: ·) := by
  simp [Line.split, List.splitOn_cons_eq_if_modifyHead]

theorem split_ne_nil (text : List Char) : Line.split text ≠ [] :=
  List.splitOn_ne_nil _ _

theorem lineFeed_not_mem_split (text : List Char) : ∀ line ∈ Line.split text, '\n' ∉ line := by
  induction text with
  | nil => simp [Line.split]
  | cons char rest ih =>
      rw [split_cons]
      split
      · exact List.forall_mem_cons.mpr ⟨List.not_mem_nil, ih⟩
      · rename_i hfeed
        obtain ⟨first, lines, hlines⟩ := List.exists_cons_of_ne_nil (split_ne_nil rest)
        rw [hlines] at ih ⊢
        obtain ⟨hfirst, hothers⟩ := List.forall_mem_cons.mp ih
        rw [List.modifyHead_cons]
        refine List.forall_mem_cons.mpr ⟨?_, hothers⟩
        rw [List.mem_cons, not_or]
        exact ⟨Ne.symm hfeed, hfirst⟩

theorem split_append_of_not_mem {front : List Char} (hfront : '\n' ∉ front) (back : List Char) :
    Line.split (front ++ back) = (Line.split back).modifyHead (front ++ ·) := by
  induction front with
  | nil => cases hback : Line.split back <;> simp [hback]
  | cons char front ih =>
      rw [List.mem_cons, not_or] at hfront
      rw [List.cons_append, split_cons, if_neg (Ne.symm hfront.1), ih hfront.2]
      cases Line.split back <;> simp

/-- Line breaks are kept, so only the first line can go on with a run of blanks. -/
theorem split_squeezeFrom (afterBlank : Bool) (text : List Char) :
    Line.split (squeezeFrom afterBlank text) =
      ((Line.split text).tail.map squeeze).cons
        (squeezeFrom afterBlank ((Line.split text).headD [])) := by
  induction text generalizing afterBlank with
  | nil => simp [Line.split, squeezeFrom]
  | cons char rest ih =>
      obtain ⟨first, lines, hlines⟩ := List.exists_cons_of_ne_nil (split_ne_nil rest)
      rw [split_cons char rest, squeezeFrom]
      by_cases hfeed : char = '\n'
      · subst hfeed
        have hhorizontal : isHorizontal '\n' = false := by decide
        simp only [hhorizontal, if_true, Bool.false_eq_true, if_false]
        rw [split_cons, if_pos rfl, ih, hlines]
        simp [squeezeFrom, squeeze]
      · simp only [if_neg hfeed, hlines, List.modifyHead_cons, List.tail_cons, List.headD_cons]
        rw [squeezeFrom]
        split
        · split
          · rw [ih true, hlines]; rfl
          · rw [split_cons, if_neg (by decide), ih true, hlines]; rfl
        · rw [split_cons, if_neg hfeed, ih false, hlines]; rfl

theorem split_squeeze (text : List Char) :
    Line.split (squeeze text) = (Line.split text).map squeeze := by
  obtain ⟨first, lines, hlines⟩ := List.exists_cons_of_ne_nil (split_ne_nil text)
  rw [squeeze, split_squeezeFrom, hlines]
  rfl

/-! ## The content of a line -/

theorem squeeze_eq_padding_append {line : List Char} (hfeed : '\n' ∉ line) :
    squeeze line = padding (startsBlank line) ++ squeezeFrom true line := by
  cases line with
  | nil => rfl
  | cons char rest =>
      rw [List.mem_cons, not_or] at hfeed
      have hhorizontal := isHorizontal_eq_isBlank (Ne.symm hfeed.1)
      cases hblank : isBlank char <;>
        simp [squeeze, squeezeFrom, startsBlank, padding, hhorizontal, hblank]

theorem head?_squeezeFrom_true {line : List Char} (hfeed : '\n' ∉ line) :
    ∀ char, (squeezeFrom true line).head? = some char → isBlank char = false := by
  induction line with
  | nil => simp [squeezeFrom]
  | cons first rest ih =>
      rw [List.mem_cons, not_or] at hfeed
      have hhorizontal := isHorizontal_eq_isBlank (Ne.symm hfeed.1)
      intro char hhead
      cases hblank : isBlank first
      · have hchar : first = char := by
          simpa [squeezeFrom, hhorizontal, hblank] using hhead
        rw [← hchar, hblank]
      · apply ih hfeed.2 char
        simpa [squeezeFrom, hhorizontal, hblank] using hhead

theorem trimStart_of_head_not_blank {text : List Char}
    (hhead : ∀ char, text.head? = some char → isBlank char = false) : trimStart text = text := by
  cases text with
  | nil => rfl
  | cons char rest => exact trimStart_of_head (by simp [hhead char rfl])

theorem content_eq_trimEnd {line : List Char} (hfeed : '\n' ∉ line) :
    content line = trimEnd (squeezeFrom true line) := by
  rw [content, trim, squeeze_eq_padding_append hfeed,
    trimStart_of_blank_append (allBlank_padding _),
    trimStart_of_head_not_blank (head?_squeezeFrom_true hfeed)]

theorem content_eq_nil_iff {line : List Char} : content line = [] ↔ AllBlank line := by
  constructor
  · intro hcontent
    rw [← solid_eq_nil_iff, ← solid_squeeze, ← solid_trim, ← content, hcontent, solid_nil]
  · intro hblank
    by_contra hcontent
    have hsqueeze : ¬AllBlank (squeeze line) := by
      intro hsqueeze
      apply hcontent
      rw [content, trim, ← List.append_nil (squeeze line), trimStart_of_blank_append hsqueeze]
      rfl
    apply (isTight_trim hsqueeze).not_allBlank
    rw [← solid_eq_nil_iff, solid_trim, solid_squeeze, hblank.solid_eq_nil]

theorem trimEnd_append_of_not_allBlank {back : List Char} (hback : ¬AllBlank back)
    (front : List Char) : trimEnd (front ++ back) = front ++ trimEnd back := by
  obtain ⟨trail, htrail, hend⟩ := exists_trimEnd back
  have hne : trimEnd back ≠ [] := by
    intro hnil
    rw [hnil, List.nil_append] at hend
    exact hback (hend ▸ htrail)
  conv_lhs => rw [hend, ← List.append_assoc, trimEnd_append_of_blank htrail]
  apply trimEnd_of_getLast
  rw [List.getLast?_append, List.getLast?_eq_some_getLast hne]
  simp [getLast?_trimEnd back _ (List.getLast?_eq_some_getLast hne)]

/-- Trimming the end of a text leaves what comes before a character that is not blank. -/
theorem isPrefix_trimEnd_append {front : List Char}
    (hfront : front.getLast?.any fun char => !isBlank char) (back : List Char) :
    front <+: trimEnd (front ++ back) := by
  by_cases hback : AllBlank back
  · rw [trimEnd_append_of_blank hback, trimEnd_of_getLast hfront]
  · rw [trimEnd_append_of_not_allBlank hback]
    exact List.prefix_append _ _

/-- A tight text and what follows it are squeezed apart: no run goes across the place where they
meet. -/
theorem squeezeFrom_tight_append {core : List Char} (htight : IsTight core) (afterBlank : Bool)
    (back : List Char) :
    squeezeFrom afterBlank (core ++ back) = squeeze core ++ squeeze back := by
  obtain ⟨first, rest, hcore, hfirst⟩ := htight.exists_cons
  obtain ⟨front, last, hlast, hsolid⟩ := htight.exists_concat
  have hhead : core.head?.any fun char => !isHorizontal char := by
    simp [hcore, isHorizontal, hfirst]
  have hhorizontal : isHorizontal last = false := by simp [isHorizontal, hsolid]
  rw [← squeezeFrom_of_head hhead afterBlank, hlast, List.append_assoc, List.singleton_append,
    squeezeFrom_append_cons hhorizontal, squeezeFrom_concat hhorizontal, List.append_assoc]
  rfl

/-- A text is trimmed and squeezed in either order. -/
theorem squeeze_trim (text : List Char) : squeeze (trim text) = content text := by
  by_cases hblank : AllBlank text
  · rw [content_eq_nil_iff.mpr hblank, trim_eq_nil_iff.mpr hblank]
    rfl
  · obtain ⟨lead, trail, hlead, htrail, htext⟩ := exists_trim text
    have htight := isTight_trim hblank
    obtain ⟨after, hsqueeze⟩ := exists_squeezeFrom_append false lead (trim text ++ trail)
    rw [squeezeFrom_tight_append htight, ← List.append_assoc lead, ← htext, ← squeeze] at hsqueeze
    have hend : AllBlank (squeeze trail) := htrail.squeezeFrom false
    rw [content, hsqueeze, trim_of_blank_append (hlead.squeezeFrom false),
      trim_append_of_blank hend, trim_of_tight (isTight_squeeze htight)]

/-- A line that begins with a tight piece, with or without a space on either side of it. -/
theorem content_padded_append {core back : List Char} (htight : IsTight core)
    (hback : '\n' ∉ back) (before after : Bool) :
    content (padding before ++ core ++ padding after ++ back) =
      squeeze core ++
        if content back = [] then [] else padding (after || startsBlank back) ++ content back := by
  have hsqueeze : squeeze (padding before ++ core ++ padding after ++ back) =
      padding before ++ (squeeze core ++ squeeze (padding after ++ back)) := by
    rw [List.append_assoc, List.append_assoc, squeeze]
    cases before
    · exact squeezeFrom_tight_append htight false _
    · rw [padding, if_pos rfl, List.singleton_append, squeezeFrom, if_pos (by decide),
        if_neg (by decide), squeezeFrom_tight_append htight]
      rfl
  have hstart : (squeeze core ++ squeeze (padding after ++ back)).head?.any
      fun char => !isBlank char := by
    rw [List.head?_append]
    have hcore := (isTight_squeeze htight).1
    cases hhead : (squeeze core).head? with
    | none => simp [hhead] at hcore
    | some char => simpa [hhead] using hcore
  rw [content, trim, hsqueeze, trimStart_of_blank_append (allBlank_padding _),
    trimStart_of_head hstart]
  split
  · rename_i hcontent
    have hblank : AllBlank (squeeze (padding after ++ back)) :=
      (allBlank_append.mpr ⟨allBlank_padding _, content_eq_nil_iff.mp hcontent⟩).squeezeFrom false
    rw [trimEnd_append_of_blank hblank, List.append_nil,
      trimEnd_of_getLast (isTight_squeeze htight).2]
  · rename_i hcontent
    have hfeed : '\n' ∉ padding after ++ back := by
      cases after <;> simpa [padding] using hback
    have hsolid : ¬AllBlank (squeezeFrom true back) := by
      intro hblank
      apply hcontent
      rw [content_eq_nil_iff, ← solid_eq_nil_iff, ← solid_squeezeFrom true, hblank.solid_eq_nil]
    have hpadding : squeeze (padding after ++ back) =
        padding (after || startsBlank back) ++ squeezeFrom true back := by
      rw [squeeze_eq_padding_append hfeed]
      cases after
      · rfl
      · simp [padding, startsBlank, squeezeFrom, isBlank_space, isHorizontal]
    rw [hpadding, ← List.append_assoc, trimEnd_append_of_not_allBlank hsolid,
      ← content_eq_trimEnd hback, List.append_assoc]

end ChuckLayout.Blank
