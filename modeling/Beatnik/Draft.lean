import Beatnik.ActionScores
import Beatnik.Spelling

/-!
# Writing programs

A draft is a program being written word by word: words as given, words that select an action and words
of a wanted score.  The last two are spelled with the draft's tables, so the program is to run with
the same ones; and they fail if there is no such word.
-/

namespace Beatnik

structure Draft where
  letters : LetterScores := .scrabble
  actions : ActionScores := .standard
  words : Array String := #[]

namespace Draft

def size (d : Draft) : Nat := d.words.size

def word (d : Draft) (w : String) : Draft := { d with words := d.words.push w }

def append (d : Draft) (ws : List String) : Draft := ws.foldl word d

/-- A change of a draft that may fail. -/
abbrev Edit := EStateM Fault Draft Unit

/-- Adds a word of a score. -/
def number (score : Value) : Edit := fun d =>
  match d.letters.spell score with
  | .ok w => .ok () (d.word w)
  | .error fault => .error fault d

/-- Adds a word that selects an action, by the lowest score that does. -/
def instruction (a : Action) : Edit := fun d =>
  match d.actions.score? a with
  | some score => number score d
  | none => .error (.unselectedAction a) d

/-- The text of the program: the words with single spaces between them. -/
def text (d : Draft) : String := " ".intercalate d.words.toList

end Draft

end Beatnik
