/-!
# Lengths in code units

Offsets of literals count UTF-8 bytes; columns of editor positions count UTF-16 units.
-/

namespace ChuckLayout.Units

def utf8Length : List Char → Nat
  | [] => 0
  | char :: rest => char.utf8Size + utf8Length rest

/-- Two units beyond the Basic Multilingual Plane, one within it. -/
def utf16Size (char : Char) : Nat :=
  if char.toNat < 0x10000 then 1 else 2

def utf16Length : List Char → Nat
  | [] => 0
  | char :: rest => utf16Size char + utf16Length rest

end ChuckLayout.Units
