import ChuckLayout.Text.Units
import Mathlib.Data.List.Infix
import Mathlib.Tactic.Common

/-!
# The bytes of a text

UTF-8 can be read from any place on: a byte inside a character is never the first byte of one.  So
one text stands at the front of another just when its bytes do, and no text stands at a byte inside
a character.  Texts are ordered by their characters as they are by their bytes.
-/

namespace ChuckLayout.Units

def bytes (text : List Char) : List UInt8 :=
  text.flatMap String.utf8EncodeChar

def IsInner (byte : UInt8) : Prop :=
  ¬byte.IsUTF8FirstByte

@[simp]
theorem bytes_nil : bytes [] = [] := rfl

@[simp]
theorem bytes_cons (char : Char) (rest : List Char) :
    bytes (char :: rest) = String.utf8EncodeChar char ++ bytes rest := rfl

@[simp]
theorem bytes_append (front back : List Char) : bytes (front ++ back) = bytes front ++ bytes back :=
  List.flatMap_append

theorem length_bytes (text : List Char) : (bytes text).length = utf8Length text := by
  induction text with
  | nil => rfl
  | cons char rest ih =>
      rw [bytes_cons, List.length_append, String.length_utf8EncodeChar, ih, utf8Length]

theorem bytes_ne_nil {text : List Char} (hne : text ≠ []) : bytes text ≠ [] := by
  obtain ⟨char, rest, rfl⟩ := List.exists_cons_of_ne_nil hne
  simp [String.utf8EncodeChar_ne_nil]

/-- A character can be read back whatever follows it. -/
theorem utf8EncodeChar_append_inj {first second : Char} {left right : List UInt8}
    (hbytes : String.utf8EncodeChar first ++ left = String.utf8EncodeChar second ++ right) :
    first = second ∧ left = right := by
  have hread := congrArg (fun all => all.toByteArray.utf8DecodeChar? 0) hbytes
  simp only [List.toByteArray_append, ByteArray.utf8DecodeChar?_utf8EncodeChar_append,
    Option.some.injEq] at hread
  subst hread
  exact ⟨rfl, List.append_cancel_left hbytes⟩

/-- UTF-8 delimits itself: the bytes of one text begin those of another only where the texts begin
alike. -/
theorem bytes_prefix_iff {front text : List Char} : bytes front <+: bytes text ↔ front <+: text := by
  induction front generalizing text with
  | nil => simp
  | cons char front ih =>
      cases text with
      | nil => simp [String.utf8EncodeChar_ne_nil]
      | cons first rest =>
          rw [List.cons_prefix_cons, ← ih]
          constructor
          · rintro ⟨later, hlater⟩
            rw [bytes_cons, bytes_cons, List.append_assoc] at hlater
            obtain ⟨rfl, hrest⟩ := utf8EncodeChar_append_inj hlater
            exact ⟨rfl, later, hrest⟩
          · rintro ⟨rfl, hrest⟩
            exact (List.prefix_append_right_inj _).mpr hrest

theorem isPrefixOf_bytes (front text : List Char) :
    (bytes front).isPrefixOf (bytes text) = front.isPrefixOf text := by
  rw [Bool.eq_iff_iff, List.isPrefixOf_iff_prefix, List.isPrefixOf_iff_prefix, bytes_prefix_iff]

/-- Only the first byte of a character can start one. -/
theorem utf8EncodeChar_eq_cons (char : Char) :
    ∃ first inner, String.utf8EncodeChar char = first :: inner ∧ ¬IsInner first ∧
      ∀ byte ∈ inner, IsInner byte := by
  obtain ⟨first, inner, hbytes⟩ :=
    List.exists_cons_of_ne_nil (String.utf8EncodeChar_ne_nil (c := char))
  have hstarts : ∀ (index : Nat) (hindex : index < (first :: inner).length),
      (first :: inner)[index].IsUTF8FirstByte ↔ index = 0 := by
    rw [← hbytes]
    exact fun index hindex => UInt8.isUTF8FirstByte_getElem_utf8EncodeChar
  refine ⟨first, inner, hbytes, not_not.mpr ((hstarts 0 (Nat.zero_lt_succ _)).mpr rfl), ?_⟩
  intro byte hbyte
  obtain ⟨index, hindex, rfl⟩ := List.getElem_of_mem hbyte
  intro hfirst
  exact absurd ((hstarts _ (Nat.succ_lt_succ hindex)).mp hfirst) (Nat.succ_ne_zero index)

/-- No text stands at a byte inside a character. -/
theorem IsInner.not_isPrefixOf {pattern : List Char} (hne : pattern ≠ []) {byte : UInt8}
    (hinner : IsInner byte) (rest : List UInt8) :
    (bytes pattern).isPrefixOf (byte :: rest) = false := by
  obtain ⟨char, pattern, rfl⟩ := List.exists_cons_of_ne_nil hne
  obtain ⟨first, inner, hbytes, hfirst, -⟩ := utf8EncodeChar_eq_cons char
  rw [bytes_cons, hbytes, List.cons_append, List.isPrefixOf_cons_cons, Bool.and_eq_false_iff]
  left
  rw [beq_eq_false_iff_ne]
  rintro rfl
  exact hfirst hinner

/-! ## Order -/

/-- The bytes of two characters are in the order of the characters, whatever follows them. -/
theorem utf8EncodeChar_append_lt {first second : Char} (hless : first < second)
    (left right : List UInt8) :
    String.utf8EncodeChar first ++ left < String.utf8EncodeChar second ++ right := by
  have hcode : first.val.toNat < second.val.toNat := hless
  have hbound : second.val.toNat < 1114112 := second.valid.elim (by omega) (by omega)
  have hdigits : ∀ code : Nat,
      code / 4096 = code / 64 / 64 ∧ code / 262144 = code / 64 / 64 / 64 := by omega
  simp only [String.utf8EncodeChar, hdigits]
  generalize first.val.toNat = low at *
  generalize second.val.toNat = high at *
  -- One case for each length of either encoding: a longer one begins with a greater byte.
  split_ifs <;>
    simp only [List.cons_append, List.nil_append, List.cons_lt_cons_iff, UInt8.lt_iff_toNat_lt,
      ← UInt8.toNat_inj, UInt8.toNat_ofNat'] <;> omega

theorem bytes_lt_of_lt {first second : List Char} (hless : first < second) :
    bytes first < bytes second := by
  induction first generalizing second with
  | nil =>
      cases second with
      | nil => exact absurd hless (List.not_lt_nil _)
      | cons char rest =>
          obtain ⟨byte, later, hbytes⟩ :=
            List.exists_cons_of_ne_nil (bytes_ne_nil (List.cons_ne_nil char rest))
          rw [hbytes]
          exact List.nil_lt_cons _ _
  | cons char rest ih =>
      cases second with
      | nil => exact absurd hless (List.not_lt_nil _)
      | cons first others =>
          rcases List.cons_lt_cons_iff.mp hless with hchar | ⟨rfl, hrest⟩
          · exact utf8EncodeChar_append_lt hchar _ _
          · exact List.append_left_lt (ih hrest)

end ChuckLayout.Units
