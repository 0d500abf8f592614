/-!
# Places in a text

A location names a text, a line and a column, both counted from one.  Reading a character moves the
location on (`Location.after`): a line feed to the start of the next line, any other character one
column to the right.
-/

namespace Beatnik

/-- A place in a named text. -/
structure Location where
  path : String
  line : Nat
  column : Nat
deriving DecidableEq, Repr, Inhabited

namespace Location

/-- The place of a text's first character. -/
def start (path : String) : Location := ⟨path, 1, 1⟩

/-- The place after reading one character. -/
def after (l : Location) (c : Char) : Location :=
  if c = '\n' then { l with line := l.line + 1, column := 1 }
  else { l with column := l.column + 1 }

def afterText (l : Location) (cs : List Char) : Location := cs.foldl after l

def render (l : Location) : String := s!"{l.path} ({l.line}, {l.column})"

/-- Locations are ordered by path, then line, then column; paths by their code points. -/
instance : Ord Location where
  compare a b :=
    (compare a.path b.path).then ((compare a.line b.line).then (compare a.column b.column))

/-! ## Lemmas -/

theorem afterText_append (l : Location) (a b : List Char) :
    l.afterText (a ++ b) = (l.afterText a).afterText b := by
  rw [afterText, List.foldl_append]
  rfl

end Location

end Beatnik
