/-!
# Sets of characters

A set of characters is a list of ranges of code points; a character belongs to the set when one of the
ranges holds its code point.
-/

namespace Beatnik.Text

/-- A set of characters, as ranges of code points with both ends included. -/
structure CharSet where
  ranges : List (Nat × Nat)
deriving DecidableEq

def CharSet.contains (s : CharSet) (c : Char) : Bool :=
  s.ranges.any fun r => r.1 ≤ c.toNat && c.toNat ≤ r.2

end Beatnik.Text
