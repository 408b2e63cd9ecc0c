import ChuckLayout.Literal.Tiling
import ChuckLayout.Proofs.Reading.Closers
import ChuckLayout.Proofs.Text.Bytes
import ChuckLayout.Proofs.Text.Cutting

/-!
# Scanning bytes for regions

The regions of a text can be looked for byte by byte, with no regard to characters: an escape passes
over two bytes, which may end inside a character or beyond the end of the text.  The scan finds what
the tiles of the text are, so every region that it finds begins and ends between two characters.
-/

namespace ChuckLayout.ByteScan

open ChuckLayout.Units (bytes IsInner)

/-- How far the first `closer` reaches into some bytes, none of which is escaped yet. -/
def throughCloser? (closer : List UInt8) (escape : Option UInt8) : List UInt8 → Option Nat
  | [] => none
  | byte :: rest =>
      if escape = some byte then (throughCloser? closer escape (rest.drop 1)).map (· + 2)
      else if closer.isPrefixOf (byte :: rest) then some closer.length
      else (throughCloser? closer escape rest).map (· + 1)
termination_by bytes => bytes.length
decreasing_by
  all_goals
    simp only [List.length_drop, List.length_cons]
    omega

/-- The places that a scan comes to: an escape takes it past two bytes, any other byte past one. -/
inductive Meets (escape : Option UInt8) : List UInt8 → Nat → Prop where
  | start (text : List UInt8) : Meets escape text 0
  | escaped {byte : UInt8} {rest : List UInt8} {place : Nat} (hescape : escape = some byte)
      (hmeets : Meets escape (rest.drop 1) place) : Meets escape (byte :: rest) (place + 2)
  | next {byte : UInt8} {rest : List UInt8} {place : Nat} (hescape : escape ≠ some byte)
      (hmeets : Meets escape rest place) : Meets escape (byte :: rest) (place + 1)

/-- The `closer` stands at a place of `text`, and not an escape. -/
def ClosesAt (closer : List UInt8) (escape : Option UInt8) (text : List UInt8) (place : Nat) : Prop :=
  closer <+: text.drop place ∧ ∀ byte, escape = some byte → text[place]? ≠ some byte

/-- The text through `reach` ends with the first `closer` that a scan of the text comes to. -/
def EndsWithCloser (closer : List UInt8) (escape : Option UInt8) (text : List UInt8)
    (reach : Nat) : Prop :=
  ∃ place, reach = place + closer.length ∧ Meets escape text place ∧
    ClosesAt closer escape text place ∧
    ∀ earlier, earlier < place → Meets escape text earlier → ¬ClosesAt closer escape text earlier

/-- Where the closed regions start and end, and where a region starts that is never closed. -/
structure Extents where
  regions : List (Nat × Nat)
  openFrom : Option Nat
  deriving DecidableEq, Repr

def Extents.cons (start length : Nat) (later : Extents) : Extents :=
  { later with regions := (start, start + length) :: later.regions }

def passedOverAt? (rule : RegionRule) (text : List UInt8) : Option (List Char × List Char) :=
  rule.passedOver.find? fun pair => (bytes pair.1).isPrefixOf text

/-- Looks for the regions of a rule from left to right.  `offset` is the number of bytes before. -/
def scan (rule : RegionRule) (offset : Nat) : List UInt8 → Extents
  | [] => ⟨[], none⟩
  | byte :: rest =>
      match passedOverAt? rule (byte :: rest) with
      | some (opener, closer) =>
          match throughCloser? (bytes closer) none ((byte :: rest).drop (bytes opener).length) with
          | some reach =>
              let length := (bytes opener).length + reach
              scan rule (offset + length) (rest.drop (length - 1))
          | none => ⟨[], none⟩
      | none =>
          if (bytes rule.opener).isPrefixOf (byte :: rest) then
            match throughCloser? (bytes rule.closer) rule.escape
                ((byte :: rest).drop (bytes rule.opener).length) with
            | some reach =>
                let length := (bytes rule.opener).length + reach
                (scan rule (offset + length) (rest.drop (length - 1))).cons offset length
            | none => ⟨[], some offset⟩
          else scan rule (offset + 1) rest
termination_by bytes => bytes.length
decreasing_by
  all_goals
    simp only [List.length_drop, List.length_cons]
    omega

/-! ## The closer -/

section Closer

variable {closer : List UInt8} {escape : Option UInt8} {hidden : Bool} {byte : UInt8}
  {rest : List UInt8}

theorem closesAt_succ {place : Nat} :
    ClosesAt closer escape (byte :: rest) (place + 1) ↔ ClosesAt closer escape rest place := by
  simp [ClosesAt]

theorem closesAt_drop_one {text : List UInt8} {place : Nat} :
    ClosesAt closer escape (text.drop 1) place ↔ ClosesAt closer escape text (place + 1) := by
  simp [ClosesAt]

/-- The scan stops at the first closer that it comes to, where bytes behind an escape do not
count. -/
theorem endsWithCloser_of_throughCloser? {text : List UInt8} {reach : Nat}
    (hreach : throughCloser? closer escape text = some reach) :
    EndsWithCloser closer escape text reach := by
  fun_induction throughCloser? closer escape text generalizing reach with
  | case1 => cases hreach
  | case2 byte rest hescape ih =>
      obtain ⟨_, hlater, rfl⟩ := Option.map_eq_some_iff.mp hreach
      obtain ⟨place, rfl, hmeets, hcloses, hfirst⟩ := ih hlater
      rw [closesAt_drop_one] at hcloses
      refine ⟨place + 2, by omega, .escaped hescape hmeets, closesAt_succ.mpr hcloses, ?_⟩
      intro earlier hless hmeets hcloses
      cases hmeets with
      | start => exact hcloses.2 byte hescape rfl
      | escaped _ hmeets =>
          refine hfirst _ (by omega) hmeets ?_
          exact closesAt_drop_one.mpr (closesAt_succ.mp hcloses)
      | next hother => exact hother hescape
  | case3 byte rest hescape hcloses =>
      obtain rfl := Option.some.inj hreach
      refine ⟨0, by omega, .start _, ⟨List.isPrefixOf_iff_prefix.mp hcloses, ?_⟩, by simp⟩
      rintro other rfl hbyte
      exact hescape hbyte.symm
  | case4 byte rest hescape hopen ih =>
      obtain ⟨_, hlater, rfl⟩ := Option.map_eq_some_iff.mp hreach
      obtain ⟨place, rfl, hmeets, hcloses, hfirst⟩ := ih hlater
      refine ⟨place + 1, by omega, .next hescape hmeets, closesAt_succ.mpr hcloses, ?_⟩
      intro earlier hless hmeets hcloses
      cases hmeets with
      | start => exact hopen (List.isPrefixOf_iff_prefix.mpr hcloses.1)
      | escaped hother => exact hescape hother
      | next _ hmeets => exact hfirst _ (by omega) hmeets (closesAt_succ.mp hcloses)

def throughCloserFrom? (closer : List UInt8) (escape : Option UInt8) (hidden : Bool)
    (text : List UInt8) : Option Nat :=
  (throughCloser? closer escape (text.drop hidden.toNat)).map (· + hidden.toNat)

theorem throughCloserFrom?_false (text : List UInt8) :
    throughCloserFrom? closer escape false text = throughCloser? closer escape text := by
  simp [throughCloserFrom?]

/-- A byte is passed over unless a closer that is not escaped starts with it. -/
theorem throughCloserFrom?_cons
    (hclear : hidden = false → escape ≠ some byte → closer.isPrefixOf (byte :: rest) = false) :
    throughCloserFrom? closer escape hidden (byte :: rest) =
      (throughCloserFrom? closer escape (!hidden && escape == some byte) rest).map (· + 1) := by
  cases hidden with
  | true => simp [throughCloserFrom?]
  | false =>
      rw [throughCloserFrom?_false, throughCloser?]
      by_cases hescape : escape = some byte
      · rw [if_pos hescape]
        simp [throughCloserFrom?, hescape, Function.comp_def]
      · have hfront := hclear rfl hescape
        have hshown : (escape == some byte) = false := beq_eq_false_iff_ne.mpr hescape
        rw [if_neg hescape, if_neg (by simp [hfront]), hshown]
        simp [throughCloserFrom?]

/-- The bytes inside a character are passed over, for no closer starts there. -/
theorem throughCloserFrom?_inner {pattern : List Char} (hne : pattern ≠ []) {inner : List UInt8}
    (hinner : ∀ byte ∈ inner, IsInner byte) (hidden : Bool) (rest : List UInt8) :
    throughCloserFrom? (bytes pattern) escape hidden (inner ++ rest) =
      (throughCloserFrom? (bytes pattern) escape (Tile.hiddenAfter escape hidden inner) rest).map
        (· + inner.length) := by
  induction inner generalizing hidden with
  | nil => simp [Tile.hiddenAfter]
  | cons byte inner ih =>
      rw [List.forall_mem_cons] at hinner
      rw [List.cons_append,
        throughCloserFrom?_cons fun _ _ => hinner.1.not_isPrefixOf hne _, ih hinner.2]
      simp [Tile.hiddenAfter, Function.comp_def, Nat.add_assoc]

theorem startsWithEscape_eq {char : Char} {first : UInt8} {inner : List UInt8}
    (hbytes : String.utf8EncodeChar char = first :: inner) :
    Tile.startsWithEscape escape char = (escape == some first) := by
  cases escape with
  | none => rfl
  | some byte => simp [Tile.startsWithEscape, hbytes, Bool.beq_comm (a := first)]

/-- The closer that is found among the bytes is the one that is found among the characters. -/
theorem throughCloserFrom?_bytes {pattern : List Char} (hne : pattern ≠ []) (hidden : Bool)
    (text : List Char) :
    throughCloserFrom? (bytes pattern) escape hidden (bytes text) =
      (Tile.throughCloser? pattern escape hidden text).map fun inside => (bytes inside).length := by
  fun_induction Tile.throughCloser? pattern escape hidden text with
  | case1 hidden => simp [throughCloserFrom?, throughCloser?]
  | case2 hidden char rest hcloses =>
      obtain ⟨first, inner, hchar, -, -⟩ := Units.utf8EncodeChar_eq_cons char
      simp only [Bool.and_eq_true, Bool.not_eq_true', startsWithEscape_eq hchar,
        beq_eq_false_iff_ne] at hcloses
      obtain ⟨⟨rfl, hescape⟩, hfront⟩ := hcloses
      rw [← Units.isPrefixOf_bytes, Units.bytes_cons, hchar, List.cons_append] at hfront
      rw [throughCloserFrom?_false, Units.bytes_cons, hchar, List.cons_append, throughCloser?,
        if_neg hescape, if_pos hfront]
      rfl
  | case3 hidden char rest hcloses ih =>
      obtain ⟨first, inner, hchar, -, hinner⟩ := Units.utf8EncodeChar_eq_cons char
      have hclear : hidden = false → escape ≠ some first →
          (bytes pattern).isPrefixOf (first :: (inner ++ bytes rest)) = false := by
        rintro rfl hescape
        rw [← List.cons_append, ← hchar, ← Units.bytes_cons, Units.isPrefixOf_bytes,
          Bool.eq_false_iff]
        simpa [startsWithEscape_eq hchar, hescape] using hcloses
      have hafter : Tile.hiddenAfter escape hidden (String.utf8EncodeChar char) =
          Tile.hiddenAfter escape (!hidden && escape == some first) inner := by
        rw [hchar, Tile.hiddenAfter]
      rw [hafter] at ih ⊢
      rw [Units.bytes_cons, hchar, List.cons_append, throughCloserFrom?_cons hclear,
        throughCloserFrom?_inner hne hinner, ih]
      simp only [Option.map_map, Function.comp_def, Units.bytes_cons, hchar, List.length_append,
        List.length_cons]
      exact congrArg (Option.map · _) (funext fun inside => by omega)

/-- The closer of a text that stands after an opener, among its bytes. -/
theorem throughCloser?_bytes_drop {pattern opener text : List Char} (hne : pattern ≠ [])
    (hopener : opener <+: text) :
    throughCloser? (bytes pattern) escape ((bytes text).drop (bytes opener).length) =
      (Tile.throughCloser? pattern escape false (text.drop opener.length)).map
        fun inside => (bytes inside).length := by
  obtain ⟨later, rfl⟩ := hopener
  rw [Units.bytes_append, List.drop_left, List.drop_left, ← throughCloserFrom?_false,
    throughCloserFrom?_bytes hne]

end Closer

/-! ## The tiles -/

/-- The extents of the regions among some tiles, the first of which starts at `offset`. -/
def extents (offset : Nat) : List Tile → Extents
  | [] => ⟨[], none⟩
  | .region text :: rest =>
      (extents (offset + (bytes text).length) rest).cons offset (bytes text).length
  | .openRegion _ :: _ => ⟨[], some offset⟩
  | tile :: rest => extents (offset + (bytes tile.text).length) rest

variable {rule : RegionRule}

theorem passedOverAt?_bytes (rule : RegionRule) (text : List Char) :
    passedOverAt? rule (bytes text) = rule.passedOverAt? text := by
  simp only [passedOverAt?, RegionRule.passedOverAt?, Units.isPrefixOf_bytes]

theorem passedOverAt?_of_inner {byte : UInt8} (hinner : IsInner byte) (rest : List UInt8) :
    passedOverAt? rule (byte :: rest) = none := by
  rw [passedOverAt?, List.find?_eq_none]
  intro pair hpair
  simp [hinner.not_isPrefixOf (rule.passedOver_ne_nil pair hpair).1]

theorem scan_of_clear {byte : UInt8} {rest : List UInt8}
    (hpassed : passedOverAt? rule (byte :: rest) = none)
    (hopener : (bytes rule.opener).isPrefixOf (byte :: rest) = false) (offset : Nat) :
    scan rule offset (byte :: rest) = scan rule (offset + 1) rest := by
  rw [scan, hpassed]
  simp [hopener]

/-- Nothing starts inside a character. -/
theorem scan_inner {inner : List UInt8} (hinner : ∀ byte ∈ inner, IsInner byte) (offset : Nat)
    (rest : List UInt8) :
    scan rule offset (inner ++ rest) = scan rule (offset + inner.length) rest := by
  induction inner generalizing offset with
  | nil => rfl
  | cons byte inner ih =>
      rw [List.forall_mem_cons] at hinner
      rw [List.cons_append, scan_of_clear (passedOverAt?_of_inner hinner.1 _)
        (hinner.1.not_isPrefixOf rule.opener_ne_nil _), ih hinner.2, List.length_cons,
        Nat.add_right_comm, Nat.add_assoc]

/-- What is left of the bytes of a text after an opener and what follows it through a closer. -/
theorem drop_bytes {opener inside text : List Char} (hne : opener ≠ [])
    (hfront : opener ++ inside <+: text) {byte : UInt8} {rest : List UInt8}
    (hbytes : bytes text = byte :: rest) :
    rest.drop ((bytes opener).length + (bytes inside).length - 1) =
      bytes (text.drop (opener ++ inside).length) := by
  obtain ⟨later, rfl⟩ := hfront
  obtain ⟨first, others, hopener⟩ := List.exists_cons_of_ne_nil (Units.bytes_ne_nil hne)
  rw [Units.bytes_append, Units.bytes_append, hopener, List.cons_append, List.cons_append,
    List.cons.injEq] at hbytes
  obtain ⟨-, rfl⟩ := hbytes
  rw [List.drop_left, hopener, List.length_cons, Nat.add_right_comm, Nat.add_sub_cancel,
    ← List.length_append, List.drop_left]

/-- What is passed over is skipped through its closer, and to the end of the text where there is
none. -/
theorem scan_passedOver {char : Char} {rest opener closer : List Char}
    (hpair : rule.passedOverAt? (char :: rest) = some (opener, closer)) (offset : Nat) :
    scan rule offset (bytes (char :: rest)) =
      match Tile.throughCloser? closer none false ((char :: rest).drop opener.length) with
      | some inside =>
          scan rule (offset + (bytes (opener ++ inside)).length)
            (bytes ((char :: rest).drop (opener ++ inside).length))
      | none => ⟨[], none⟩ := by
  obtain ⟨hmem, hopener⟩ := rule.passedOverAt?_front hpair
  obtain ⟨hopenerne, hcloserne⟩ := rule.passedOver_ne_nil _ hmem
  obtain ⟨byte, tail, hbytes⟩ :=
    List.exists_cons_of_ne_nil (Units.bytes_ne_nil (List.cons_ne_nil char rest))
  rw [hbytes, scan, ← hbytes, passedOverAt?_bytes, hpair]
  simp only [throughCloser?_bytes_drop hcloserne hopener]
  cases hinside : Tile.throughCloser? closer none false ((char :: rest).drop opener.length) with
  | none => rfl
  | some inside =>
      have hfront := Tile.isPrefix_opener_append hopener (Tile.isPrefix_of_throughCloser? hinside)
      simp only [Option.map_some]
      rw [drop_bytes hopenerne hfront hbytes]
      simp only [Units.bytes_append, List.length_append]

/-- A region goes from its opener through its closer; without one the scan ends. -/
theorem scan_opener {char : Char} {rest : List Char}
    (hpassed : rule.passedOverAt? (char :: rest) = none) (hopener : rule.opener <+: char :: rest)
    (offset : Nat) :
    scan rule offset (bytes (char :: rest)) =
      match Tile.throughCloser? rule.closer rule.escape false
          ((char :: rest).drop rule.opener.length) with
      | some inside =>
          (scan rule (offset + (bytes (rule.opener ++ inside)).length)
            (bytes ((char :: rest).drop (rule.opener ++ inside).length))).cons offset
              (bytes (rule.opener ++ inside)).length
      | none => ⟨[], some offset⟩ := by
  obtain ⟨byte, tail, hbytes⟩ :=
    List.exists_cons_of_ne_nil (Units.bytes_ne_nil (List.cons_ne_nil char rest))
  rw [hbytes, scan, ← hbytes, passedOverAt?_bytes, hpassed, Units.isPrefixOf_bytes]
  simp only [List.isPrefixOf_iff_prefix, hopener, if_true,
    throughCloser?_bytes_drop rule.closer_ne_nil hopener]
  cases hinside : Tile.throughCloser? rule.closer rule.escape false
      ((char :: rest).drop rule.opener.length) with
  | none => rfl
  | some inside =>
      have hfront := Tile.isPrefix_opener_append hopener (Tile.isPrefix_of_throughCloser? hinside)
      simp only [Option.map_some]
      rw [drop_bytes rule.opener_ne_nil hfront hbytes]
      simp only [Units.bytes_append, List.length_append]

theorem scan_plain {char : Char} {rest : List Char}
    (hpassed : rule.passedOverAt? (char :: rest) = none) (hopener : ¬rule.opener <+: char :: rest)
    (offset : Nat) :
    scan rule offset (bytes (char :: rest)) =
      scan rule (offset + (bytes [char]).length) (bytes rest) := by
  obtain ⟨first, inner, hchar, -, hinner⟩ := Units.utf8EncodeChar_eq_cons char
  rw [← passedOverAt?_bytes, Units.bytes_cons, hchar, List.cons_append] at hpassed
  rw [← List.isPrefixOf_iff_prefix, ← Units.isPrefixOf_bytes, Units.bytes_cons, hchar,
    List.cons_append, Bool.not_eq_true] at hopener
  rw [Units.bytes_cons, hchar, List.cons_append, scan_of_clear hpassed hopener, scan_inner hinner]
  simp [hchar, Nat.add_assoc, Nat.add_comm 1]

/-- A byte scan sees the tile at the front of a text. -/
theorem scan_leading {char : Char} {rest later : List Char}
    (hlater : char :: rest = (Tile.leading rule char rest).text ++ later) (offset : Nat) :
    scan rule offset (bytes (char :: rest)) =
      match Tile.leading rule char rest with
      | .region text =>
          (scan rule (offset + (bytes text).length) (bytes later)).cons offset (bytes text).length
      | .openRegion _ => ⟨[], some offset⟩
      | tile => scan rule (offset + (bytes tile.text).length) (bytes later) := by
  have hdrop (front : List Char) (hfront : (Tile.leading rule char rest).text = front) :
      (char :: rest).drop front.length = later := by
    rw [← hfront, hlater, List.drop_left]
  cases hpassed : rule.passedOverAt? (char :: rest) with
  | some pair =>
      rw [scan_passedOver hpassed]
      cases hinside : Tile.throughCloser? pair.2 none false ((char :: rest).drop pair.1.length) with
      | some inside =>
          have hleading : Tile.leading rule char rest = .passedOver (pair.1 ++ inside) := by
            simp [Tile.leading, hpassed, hinside]
          simp only [hleading]
          rw [hdrop _ (by rw [hleading]; rfl)]
          rfl
      | none =>
          have hleading : Tile.leading rule char rest = .passedOver (char :: rest) ∨
              Tile.leading rule char rest = .openPassedOver (char :: rest) := by
            simp only [Tile.leading, hpassed, hinside]
            split <;> simp
          have hnil : later = [] := by
            rcases hleading with hleading | hleading <;> simpa [hleading, Tile.text] using hlater
          rcases hleading with hleading | hleading <;> simp [hleading, hnil, scan]
  | none =>
      by_cases hopener : rule.opener <+: char :: rest
      · rw [scan_opener hpassed hopener]
        cases hinside : Tile.throughCloser? rule.closer rule.escape false
            ((char :: rest).drop rule.opener.length) with
        | some inside =>
            have hleading : Tile.leading rule char rest = .region (rule.opener ++ inside) := by
              simp [Tile.leading, hpassed, hopener, hinside]
            simp only [hleading]
            rw [hdrop _ (by rw [hleading]; rfl)]
        | none =>
            have hleading : Tile.leading rule char rest = .openRegion (char :: rest) := by
              simp [Tile.leading, hpassed, hopener, hinside]
            rw [hleading]
      · have hleading : Tile.leading rule char rest = .plain char := by
          simp [Tile.leading, hpassed, hopener]
        rw [scan_plain hpassed hopener, hleading, ← hdrop [char] (by rw [hleading]; rfl)]
        rfl

/-- The bytes are scanned as the text is cut into tiles. -/
theorem scan_bytes (rule : RegionRule) (offset : Nat) (text : List Char) :
    scan rule offset (bytes text) = extents offset (tiles rule text) := by
  induction hlength : text.length using Nat.strong_induction_on generalizing text offset with
  | _ length ih =>
      cases text with
      | nil => rw [tiles_nil, Units.bytes_nil, scan, extents]
      | cons char rest =>
          obtain ⟨later, hlater, hshorter⟩ :=
            Cut.exists_later (Tile.leading_isFront rule) char rest
          have ih' := fun offset => ih later.length (hlength ▸ hshorter) offset later rfl
          rw [scan_leading hlater, tiles_of_leading rfl later hlater]
          cases Tile.leading rule char rest <;> simp only [extents, ih']

end ChuckLayout.ByteScan
