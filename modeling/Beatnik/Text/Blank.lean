import Beatnik.Text.CharSet

/-!
# Blank characters

The characters with the Unicode property White_Space, and texts without the blanks at their ends.
-/

namespace Beatnik.Text

/-- The characters with the property White_Space. -/
def blank : CharSet where
  ranges := [
    (0x09, 0x0D), (0x20, 0x20), (0x85, 0x85), (0xA0, 0xA0), (0x1680, 0x1680), (0x2000, 0x200A),
    (0x2028, 0x2029), (0x202F, 0x202F), (0x205F, 0x205F), (0x3000, 0x3000)]

def isBlank (c : Char) : Bool := blank.contains c

/-- A text without the blanks at its two ends. -/
def trim (cs : List Char) : List Char :=
  ((cs.dropWhile isBlank).reverse.dropWhile isBlank).reverse

end Beatnik.Text
