import Beatnik.Text.LowerCase
import Beatnik.Value
import Std.Data.ExtTreeMap

/-!
# Points of characters

A table gives points to characters, each under its lower case.  The score of a word is the sum of the
points of its characters in lower case; characters outside of the table have no points.
-/

namespace Beatnik

/-- The points of characters. -/
structure LetterScores where
  table : Std.ExtTreeMap Char UInt32 := ∅

namespace LetterScores

/-- Gives points to a character: to each character of its lower case, in place of earlier points. -/
def insert (s : LetterScores) (c : Char) (points : UInt32) : LetterScores :=
  ⟨(Text.lower c).foldl (fun t d => t.insert d points) s.table⟩

/-- The table of a list of characters and their points; later points replace earlier ones. -/
def ofList (entries : List (Char × UInt32)) : LetterScores :=
  entries.foldl (fun s e => s.insert e.1 e.2) {}

/-- The characters with their points, by code point. -/
def entries (s : LetterScores) : List (Char × UInt32) := s.table.toList

def size (s : LetterScores) : Nat := s.table.size

/-- The points of a character as it stands, not of its lower case. -/
def points (s : LetterScores) (c : Char) : UInt32 := s.table[c]?.getD 0

/-- The sum of the points of a word's characters in lower case. -/
def total (s : LetterScores) (word : String) : Nat :=
  (Text.lowerText word.toList).foldl (fun n c => n + (s.points c).toNat) 0

def score (s : LetterScores) (word : String) : Value := Int64.ofNat (s.total word)

/-- The points of the letters in the game of Scrabble. -/
def scrabble : LetterScores := ofList [
  ('a', 1), ('b', 3), ('c', 3), ('d', 2), ('e', 1), ('f', 4), ('g', 2), ('h', 4), ('i', 1),
  ('j', 8), ('k', 5), ('l', 1), ('m', 3), ('n', 1), ('o', 1), ('p', 3), ('q', 10), ('r', 1),
  ('s', 1), ('t', 1), ('u', 1), ('v', 4), ('w', 4), ('x', 8), ('y', 4), ('z', 10)]

/-! ## Lemmas -/

theorem foldl_points (s : LetterScores) (cs : List Char) (n : Nat) :
    cs.foldl (fun n c => n + (s.points c).toNat) n =
      n + cs.foldl (fun n c => n + (s.points c).toNat) 0 := by
  induction cs generalizing n with
  | nil => rfl
  | cons c cs ih =>
    rw [List.foldl_cons, List.foldl_cons, ih, ih (0 + (s.points c).toNat)]
    omega

theorem total_append (s : LetterScores) (u v : String) :
    s.total (u ++ v) = s.total u + s.total v := by
  unfold total Text.lowerText
  rw [String.toList_append, List.flatMap_append, List.foldl_append, foldl_points]

end LetterScores

end Beatnik
