/-!
# Columns

Texts filled up with spaces to a width, counted in characters.  A longer text stays as it is.
-/

namespace Beatnik.Text

/-- The spaces that a text lacks to a width. -/
def padding (width : Nat) (s : String) : String := String.ofList (List.replicate (width - s.length) ' ')

def padRight (width : Nat) (s : String) : String := s ++ padding width s

def padLeft (width : Nat) (s : String) : String := padding width s ++ s

end Beatnik.Text
