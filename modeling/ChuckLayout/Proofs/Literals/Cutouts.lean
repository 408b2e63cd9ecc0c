import ChuckLayout.Proofs.Masking.ByteScan
import ChuckLayout.Proofs.Masking.Mark

/-!
# Cutting regions out of a text

A pass cuts a text into the regions that it takes away, the code between them and what follows the
last region.  What it writes and what it records both follow from the regions alone.
-/

namespace ChuckLayout

open Placeholder (numbered)
open ChuckLayout.Units (bytes)

/-! ## The tiles of a text -/

namespace Tile

variable {rule : RegionRule} {source : List Char}

/-- What tells apart the tiles that start with a region. -/
theorem leading_cases (rule : RegionRule) (char : Char) (rest : List Char) :
    (∃ inside, leading rule char rest = .region (rule.opener ++ inside) ∧
      throughCloser? rule.closer rule.escape false ((char :: rest).drop rule.opener.length) =
        some inside) ∨
    (leading rule char rest = .openRegion (char :: rest) ∧ rule.opener <+: char :: rest) ∨
    ∀ value, leading rule char rest ≠ .region value ∧ leading rule char rest ≠ .openRegion value := by
  unfold leading
  split
  · split
    · exact Or.inr (Or.inr fun value => ⟨Tile.noConfusion, Tile.noConfusion⟩)
    · split <;> exact Or.inr (Or.inr fun value => ⟨Tile.noConfusion, Tile.noConfusion⟩)
  · split
    · rename_i hopener
      split
      · exact Or.inl ⟨_, rfl, ‹_›⟩
      · exact Or.inr (Or.inl ⟨rfl, List.isPrefixOf_iff_prefix.mp hopener⟩)
    · exact Or.inr (Or.inr fun value => ⟨Tile.noConfusion, Tile.noConfusion⟩)

theorem closer_isSuffix {closer text inside : List Char} {escape : Option UInt8} {hidden : Bool}
    (hinside : throughCloser? closer escape hidden text = some inside) : closer <:+ inside := by
  fun_induction throughCloser? closer escape hidden text generalizing inside with
  | case1 => simp at hinside
  | case2 hidden char rest hcloses => exact Option.some.inj hinside ▸ List.suffix_rfl
  | case3 hidden char rest hcloses ih =>
      obtain ⟨later, hlater, rfl⟩ := Option.map_eq_some_iff.mp hinside
      exact (ih hlater).trans (List.suffix_cons _ _)

/-- A tile is the leading tile of the text from it on. -/
theorem leading_of_isSuffix {tile : Tile} {rest : List Tile}
    (hsuffix : tile :: rest <:+ tiles rule source) :
    ∃ char later, tile.text ++ rest.flatMap Tile.text = char :: later ∧
      leading rule char later = tile := by
  obtain ⟨front, hfront⟩ := hsuffix
  have hself := Cut.cut_flatMap_of_back (leading_isFront rule) hfront.symm
  rw [List.flatMap_cons] at hself
  cases htext : tile.text ++ rest.flatMap Tile.text with
  | nil => simp [htext, Cut.cut_nil] at hself
  | cons char later =>
      rw [htext, Cut.cut_cons, List.cons.injEq] at hself
      exact ⟨char, later, rfl, hself.1⟩

theorem text_ne_nil_of_mem {tile : Tile} (hmem : tile ∈ tiles rule source) : tile.text ≠ [] := by
  obtain ⟨char, rest, -, rfl⟩ := Cut.mem_cut (leading_isFront rule) hmem
  exact (leading_isFront rule char rest).1

/-- A region is an opener and what follows it through the first closer. -/
theorem region_of_isSuffix {value : List Char} {rest : List Tile}
    (hsuffix : .region value :: rest <:+ tiles rule source) :
    ∃ inside, value = rule.opener ++ inside ∧
      throughCloser? rule.closer rule.escape false (inside ++ rest.flatMap Tile.text) =
        some inside := by
  obtain ⟨char, later, htext, hleading⟩ := leading_of_isSuffix hsuffix
  rcases leading_cases rule char later with ⟨inside, hregion, hinside⟩ | ⟨hopen, -⟩ | hother
  · rw [hregion, region.injEq] at hleading
    subst hleading
    rw [← htext, Tile.text, List.append_assoc, List.drop_left] at hinside
    exact ⟨inside, rfl, hinside⟩
  · exact Tile.noConfusion (hopen.symm.trans hleading)
  · exact absurd hleading (hother value).1

/-- A region that is never closed is the last tile. -/
theorem openRegion_of_isSuffix {value : List Char} {rest : List Tile}
    (hsuffix : .openRegion value :: rest <:+ tiles rule source) :
    rest = [] ∧ rule.opener <+: value := by
  obtain ⟨char, later, htext, hleading⟩ := leading_of_isSuffix hsuffix
  rcases leading_cases rule char later with ⟨inside, hregion, -⟩ | ⟨hopen, hopener⟩ | hother
  · exact Tile.noConfusion (hregion.symm.trans hleading)
  · rw [hopen, Tile.openRegion.injEq] at hleading
    subst hleading
    refine ⟨?_, hopener⟩
    have hrest : rest.flatMap Tile.text = [] := by simpa [Tile.text] using htext
    rw [List.flatMap_eq_nil_iff] at hrest
    refine List.eq_nil_iff_forall_not_mem.mpr fun tile htile => ?_
    exact text_ne_nil_of_mem (hsuffix.mem (List.mem_cons_of_mem _ htile)) (hrest tile htile)
  · exact absurd hleading (hother value).2

end Tile

/-! ## Cutouts -/

/-- A region that is cut out of a text, and the code before it. -/
structure Cutout where
  code : List Char
  region : List Char
  deriving DecidableEq, Repr

namespace Cutout

def text (cutout : Cutout) : List Char :=
  cutout.code ++ cutout.region

/-- What is recorded of some regions.  `number` is the number of the first of them and `offset` the
number of bytes before it and its code. -/
def literals (kind : Literal.Kind) (salt : List Char) (number offset : Nat) :
    List Cutout → List Literal
  | [] => []
  | cutout :: rest =>
      let start := offset + (bytes cutout.code).length
      let length := (bytes cutout.region).length
      { kind, start, length, value := cutout.region, placeholder := numbered kind salt number } ::
        literals kind salt (number + 1) (start + length) rest

/-- What is written once all regions have given way to placeholders, `written` being there
already.  A space keeps a placeholder apart from a word character before it, which may be one that
has been written before, and from one that follows in the text. -/
def write (kind : Literal.Kind) (salt : List Char) (number : Nat) (written : List Char) :
    List Cutout → List Char → List Char
  | [], last => written ++ last
  | cutout :: rest, last =>
      let before := written ++ cutout.code
      let after := rest.flatMap text ++ last
      write kind salt (number + 1)
        (before ++ Word.separator before.getLast? ++ numbered kind salt number ++
          Word.separator after.head?)
        rest last

/-- The cutouts among some tiles that follow the code `pending`, and what follows the last. -/
def ofTiles (pending : List Char) : List Tile → List Cutout × List Char
  | [] => ([], pending)
  | .region value :: rest =>
      let later := ofTiles [] rest
      (⟨pending, value⟩ :: later.1, later.2)
  | tile :: rest => ofTiles (pending ++ tile.text) rest

/-! ## The regions among some tiles -/

/-- Cutting loses nothing: the cutouts and the code behind them spell the text. -/
theorem flatMap_ofTiles (pending : List Char) (cut : List Tile) :
    (ofTiles pending cut).1.flatMap text ++ (ofTiles pending cut).2 =
      pending ++ cut.flatMap Tile.text := by
  fun_induction ofTiles pending cut with
  | case1 pending => simp
  | case2 pending value rest later ih =>
      rw [List.flatMap_cons, List.append_assoc, ih]
      simp [text, Tile.text]
  | case3 pending tile rest hregion ih => simp [ih]

variable {kind : Literal.Kind} {rule : RegionRule}

/-- What is not a region is copied, and the table stays as it is. -/
theorem maskTiles_code {tile : Tile} (hregion : ∀ value, tile = .region value → False)
    (before : Option Char) (offset : Nat) (table : LiteralTable) (rest : List Tile) :
    table.maskTiles kind before offset (tile :: rest) =
      let masked := table.maskTiles kind (tile.text.getLast?.or before)
        (offset + Units.utf8Length tile.text) rest
      ⟨tile.text ++ masked.text, masked.table⟩ := by
  rw [LiteralTable.maskTiles]
  exact hregion

/-- Masking puts the literals of the cutouts into the table, one after the other. -/
theorem maskTiles_table (pending : List Char) (cut : List Tile) (before : Option Char)
    (start : Nat) (table : LiteralTable) :
    (table.maskTiles kind before (start + (bytes pending).length) cut).table =
      { table with
        literals := table.literals ++
          literals kind table.salt (table.count kind + 1) start (ofTiles pending cut).1 } := by
  fun_induction ofTiles pending cut generalizing before start table with
  | case1 pending => simp [LiteralTable.maskTiles, literals]
  | case2 pending value rest later ih =>
      have hlater := ih (Word.separator before ++ table.nextPlaceholder kind ++ Word.separator
        (rest.head?.bind fun tile => tile.text.head?)).getLast?
        (start + (bytes pending).length + (bytes value).length)
        (table.add kind (start + (bytes pending).length) value)
      rw [LiteralTable.count_add, if_pos rfl] at hlater
      rw [LiteralTable.maskTiles, ← Units.length_bytes]
      simpa [literals, LiteralTable.add, LiteralTable.salt, LiteralTable.nextPlaceholder, numbered,
        Units.length_bytes] using hlater
  | case3 pending tile rest hregion ih =>
      rw [maskTiles_code hregion, ← Units.length_bytes, Nat.add_assoc, ← List.length_append,
        ← Units.bytes_append, ih]

/-- Tiles are not empty, so the first character after a tile is the one the next tile starts with. -/
theorem head?_flatMap_tiles {cut : List Tile} (hcut : ∀ tile ∈ cut, tile.text ≠ []) :
    (cut.flatMap Tile.text).head? = cut.head?.bind fun tile => tile.text.head? := by
  cases cut with
  | nil => rfl
  | cons tile rest =>
      rw [List.flatMap_cons, List.head?_append_of_ne_nil _ (hcut tile List.mem_cons_self)]
      rfl

/-- The masked text is the code of the cutouts with placeholders and separators between them. -/
theorem maskTiles_text (pending : List Char) (cut : List Tile) (hcut : ∀ tile ∈ cut, tile.text ≠ [])
    (written : List Char) (offset : Nat) (table : LiteralTable) :
    written ++ pending ++
        (table.maskTiles kind (written ++ pending).getLast? offset cut).text =
      write kind table.salt (table.count kind + 1) written (ofTiles pending cut).1
        (ofTiles pending cut).2 := by
  fun_induction ofTiles pending cut generalizing written offset table with
  | case1 pending => simp [LiteralTable.maskTiles, write]
  | case2 pending value rest later ih =>
      rw [List.forall_mem_cons] at hcut
      have hafter : (later.1.flatMap text ++ later.2).head? =
          rest.head?.bind fun tile => tile.text.head? := by
        rw [flatMap_ofTiles, List.nil_append, head?_flatMap_tiles hcut.2]
      rw [LiteralTable.maskTiles, write, hafter]
      generalize rest.head?.bind (fun tile => tile.text.head?) = following
      let shown := Word.separator (written ++ pending).getLast? ++ table.nextPlaceholder kind ++
        Word.separator following
      have hshown : shown ≠ [] := by simp [shown, Mark.nextPlaceholder_ne_nil]
      have hlater := ih hcut.2 (written ++ pending ++ shown) (offset + Units.utf8Length value)
        (table.add kind offset value)
      rw [LiteralTable.count_add, if_pos rfl, List.append_nil,
        List.getLast?_append_of_ne_nil _ hshown] at hlater
      simpa [shown, LiteralTable.add, LiteralTable.salt, LiteralTable.nextPlaceholder, numbered]
        using hlater
  | case3 pending tile rest hregion ih =>
      rw [List.forall_mem_cons] at hcut
      rw [maskTiles_code hregion, ← ih hcut.2 written (offset + Units.utf8Length tile.text),
        ← List.getLast?_append]
      simp

/-! ## The regions of a text -/

variable {source : List Char} {cut : List Tile}

/-- The literals start and end where the regions of the scan do. -/
theorem regions_extents (pending : List Char) (hcut : cut <:+ tiles rule source)
    (salt : List Char) (number start : Nat) :
    (ByteScan.extents (start + (bytes pending).length) cut).regions =
      (literals kind salt number start (ofTiles pending cut).1).map fun literal =>
        (literal.start, literal.start + literal.length) := by
  fun_induction ofTiles pending cut generalizing number start with
  | case1 pending => rfl
  | case2 pending value rest later ih =>
      have hlater := ih ((List.suffix_cons _ _).trans hcut) (number + 1)
        (start + (bytes pending).length + (bytes value).length)
      rw [Units.bytes_nil, List.length_nil, Nat.add_zero] at hlater
      simp only [ByteScan.extents, ByteScan.Extents.cons, literals, List.map_cons, hlater, later]
  | case3 pending tile rest hregion ih =>
      have hlater := ih ((List.suffix_cons _ _).trans hcut) number start
      rw [Units.bytes_append, List.length_append, ← Nat.add_assoc] at hlater
      cases tile with
      | region value => exact absurd rfl (hregion value)
      | openRegion value =>
          obtain ⟨rfl, -⟩ := Tile.openRegion_of_isSuffix hcut
          rfl
      | plain char => exact hlater
      | passedOver value => exact hlater
      | openPassedOver value => exact hlater

/-- A region that is never closed stands at the end of what follows the cutouts. -/
theorem openFrom_extents (pending : List Char) (hcut : cut <:+ tiles rule source)
    (start : Nat) {position : Nat}
    (hopen : (ByteScan.extents (start + (bytes pending).length) cut).openFrom = some position) :
    ∃ front back, (ofTiles pending cut).2 = front ++ back ∧ rule.opener <+: back ∧
      position = start + (bytes ((ofTiles pending cut).1.flatMap text ++ front)).length := by
  fun_induction ofTiles pending cut generalizing start with
  | case1 pending => cases hopen
  | case2 pending value rest later ih =>
      obtain ⟨front, back, hlast, hopener, rfl⟩ := ih ((List.suffix_cons _ _).trans hcut)
        (start + (bytes pending).length + (bytes value).length) hopen
      exact ⟨front, back, hlast, hopener, by simp [text, later, Nat.add_assoc]⟩
  | case3 pending tile rest hregion ih =>
      have hrest := (List.suffix_cons _ _).trans hcut
      have hlater := ih hrest start
      rw [Units.bytes_append, List.length_append, ← Nat.add_assoc] at hlater
      cases tile with
      | region value => exact absurd rfl (hregion value)
      | openRegion value =>
          obtain ⟨rfl, hopener⟩ := Tile.openRegion_of_isSuffix hcut
          cases hopen
          exact ⟨pending, value, rfl, hopener, rfl⟩
      | plain char => exact hlater hopen
      | passedOver value => exact hlater hopen
      | openPassedOver value => exact hlater hopen

/-- A cutout is the region of some tile, and what follows it is what follows the tile. -/
theorem isSuffix_of_ofTiles (pending : List Char) {cutout : Cutout} (front : List Cutout)
    {back : List Cutout} (hcutouts : (ofTiles pending cut).1 = front ++ cutout :: back) :
    ∃ rest, .region cutout.region :: rest <:+ cut ∧
      rest.flatMap Tile.text = back.flatMap text ++ (ofTiles pending cut).2 := by
  fun_induction ofTiles pending cut generalizing front with
  | case1 pending => simp at hcutouts
  | case2 pending value rest later ih =>
      cases front with
      | nil =>
          obtain ⟨rfl, rfl⟩ := List.cons.inj hcutouts
          exact ⟨rest, List.suffix_rfl, (flatMap_ofTiles [] rest).symm⟩
      | cons first front =>
          obtain ⟨others, hsuffix, htext⟩ := ih front (List.cons.inj hcutouts).2
          exact ⟨others, hsuffix.trans (List.suffix_cons _ _), htext⟩
  | case3 pending tile rest hregion ih =>
      obtain ⟨others, hsuffix, htext⟩ := ih front hcutouts
      exact ⟨others, hsuffix.trans (List.suffix_cons _ _), htext⟩

/-- A literal starts and ends between two characters of the text that it has been cut from. -/
theorem exists_split_of_mem_literals {salt : List Char} {number start : Nat} {cutouts : List Cutout}
    {literal : Literal} (hliteral : literal ∈ literals kind salt number start cutouts) :
    ∃ front back, cutouts.flatMap text = front ++ literal.value ++ back ∧
      literal.start = start + (bytes front).length ∧
      literal.length = (bytes literal.value).length := by
  induction cutouts generalizing number start with
  | nil => cases hliteral
  | cons cutout cutouts ih =>
      rcases List.mem_cons.mp hliteral with rfl | hlater
      · exact ⟨cutout.code, cutouts.flatMap text, by simp [text], rfl, rfl⟩
      · obtain ⟨front, back, htext, hstart, hlength⟩ := ih hlater
        refine ⟨cutout.text ++ front, back, by simp [htext], ?_, hlength⟩
        simp [hstart, text, Nat.add_assoc]

end Cutout

/-- A pass cuts a text into cutouts and what follows the last.  It records each region under the
next placeholder of its kind, with the bytes that the region takes up, and writes the text with a
placeholder in place of each region.  The regions are those that a scan of the bytes finds, and they
start and end between two characters; each is an opener and what follows through the first closer
that the scan meets.  Where a region is never closed, everything from its opener on stays as it is. -/
theorem LiteralTable.mask_cuts_regions (table : LiteralTable) (rule : RegionRule)
    (source : List Char) :
    let masked := table.mask rule source
    let found := ByteScan.scan rule 0 (bytes source)
    let first := table.count rule.kind + 1
    ∃ cutouts last,
      let recorded := Cutout.literals rule.kind table.salt first 0 cutouts
      source = cutouts.flatMap Cutout.text ++ last ∧
      masked.table = { table with literals := table.literals ++ recorded } ∧
      masked.text = Cutout.write rule.kind table.salt first [] cutouts last ∧
      (found.regions = recorded.map fun literal =>
        (literal.start, literal.start + literal.length)) ∧
      (∀ literal ∈ recorded, ∃ front back,
        source = front ++ literal.value ++ back ∧ literal.start = (bytes front).length ∧
          literal.length = (bytes literal.value).length) ∧
      (∀ front cutout back, cutouts = front ++ cutout :: back → ∃ inside,
        cutout.region = rule.opener ++ inside ∧ rule.closer <:+ inside ∧
          ByteScan.EndsWithCloser (bytes rule.closer) rule.escape
            (bytes (inside ++ (back.flatMap Cutout.text ++ last))) (bytes inside).length) ∧
      ∀ start, found.openFrom = some start → ∃ front back,
        last = front ++ back ∧ rule.opener <+: back ∧
          start = (bytes (cutouts.flatMap Cutout.text ++ front)).length := by
  intro masked found first
  let cut := tiles rule source
  have hsource : source =
      (Cutout.ofTiles [] cut).1.flatMap Cutout.text ++ (Cutout.ofTiles [] cut).2 := by
    rw [Cutout.flatMap_ofTiles, List.nil_append, flatMap_tiles]
  have hfound : found = ByteScan.extents 0 cut := ByteScan.scan_bytes rule 0 source
  refine ⟨(Cutout.ofTiles [] cut).1, (Cutout.ofTiles [] cut).2, hsource,
    Cutout.maskTiles_table [] cut none 0 table,
    Cutout.maskTiles_text [] cut (fun _ => Tile.text_ne_nil_of_mem) [] 0 table, ?_, ?_, ?_, ?_⟩
  · rw [hfound]
    exact Cutout.regions_extents [] List.suffix_rfl table.salt first 0
  · intro literal hliteral
    obtain ⟨front, back, htext, hstart, hlength⟩ := Cutout.exists_split_of_mem_literals hliteral
    refine ⟨front, back ++ (Cutout.ofTiles [] cut).2, ?_, by rw [hstart, Nat.zero_add], hlength⟩
    rw [← List.append_assoc, ← htext, ← hsource]
  · intro front cutout back hcutouts
    obtain ⟨rest, hsuffix, htext⟩ := Cutout.isSuffix_of_ofTiles [] front hcutouts
    obtain ⟨inside, hregion, hinside⟩ := Tile.region_of_isSuffix hsuffix
    refine ⟨inside, hregion, Tile.closer_isSuffix hinside, ?_⟩
    apply ByteScan.endsWithCloser_of_throughCloser?
    rw [← htext, ← ByteScan.throughCloserFrom?_false,
      ByteScan.throughCloserFrom?_bytes rule.closer_ne_nil, hinside]
    rfl
  · intro start hopen
    rw [hfound] at hopen
    obtain ⟨front, back, hlast, hopener, hstart⟩ :=
      Cutout.openFrom_extents [] (List.suffix_rfl (l := cut)) 0 hopen
    exact ⟨front, back, hlast, hopener, by rw [hstart, Nat.zero_add]⟩

end ChuckLayout
