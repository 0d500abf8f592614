import Beatnik.ActionScores
import Beatnik.Fault
import Beatnik.LetterScores
import Beatnik.Text.Alphabetic
import Beatnik.Text.Numeral

/-!
# Tables in text form

A table is written with one entry to a line, `key = value`.  Blank lines are skipped, and a `#` starts
a comment that goes on to the end of the line.  A table of points has letters for keys, a table of
actions has scores.  The lines are taken apart before any entry is read, so a line without `=` is
reported before a bad entry above it.
-/

namespace Beatnik

namespace TableFile

/-- One entry of a table, without the blanks around its key and its value. -/
structure Entry where
  location : Location
  key : List Char
  value : List Char
deriving DecidableEq, Repr

def Entry.fail {α : Type} (e : Entry) (fault : Fault) : Except Failure α :=
  .error ⟨fault, some e.location⟩

/-- The entry on a line, or nothing on a blank line. -/
def entry? (location : Location) (line : List Char) : Except Failure (Option Entry) :=
  let content := line.takeWhile (· ≠ '#')
  if Text.trim content = [] then .ok none
  else match content.dropWhile (· ≠ '=') with
    | [] => .error ⟨.notAnEntry (String.ofList (Text.trim content)), some location⟩
    | _ :: value => .ok (some ⟨location, Text.trim (content.takeWhile (· ≠ '=')), Text.trim value⟩)

/-- The entries of a table, in order. -/
def entries (path text : String) : Except Failure (List Entry) := do
  let lines := text.toList.splitOn '\n'
  let found ← lines.zipIdx.mapM fun (line, i) => entry? ⟨path, i + 1, 1⟩ line
  return found.filterMap id

/-! ## Points of letters -/

/-- The letter of an entry: a single alphabetic character. -/
def Entry.letter (e : Entry) : Except Failure Char :=
  match e.key with
  | [c] => if Text.isAlphabetic c then .ok c else e.fail (.notALetter (String.ofList e.key))
  | _ => e.fail (.notALetter (String.ofList e.key))

def maxPoints : Nat := 4294967295

def Entry.points (e : Entry) : Except Failure UInt32 :=
  match Text.natural? maxPoints e.value with
  | some n => .ok (UInt32.ofNat n)
  | none => e.fail (.notPoints (String.ofList e.value))

end TableFile

def LetterScores.parse (path text : String) : Except Failure LetterScores := do
  (← TableFile.entries path text).foldlM
    (fun s e => do
      let letter ← e.letter
      let points ← e.points
      return s.insert letter points)
    {}

/-! ## Scores of actions -/

/-- Reads the name of an action. -/
def Action.parse (text : String) : Except Fault Action :=
  match Action.ofText? text.toList with
  | some a => .ok a
  | none => .error (.unknownAction (String.ofList (Text.trim text.toList)))

namespace TableFile

def Entry.score (e : Entry) : Except Failure Value :=
  match Text.value? e.key with
  | some v => .ok v
  | none => e.fail (.notAScore (String.ofList e.key))

def Entry.action (e : Entry) : Except Failure Action :=
  match Action.parse (String.ofList e.value) with
  | .ok a => .ok a
  | .error fault => e.fail fault

end TableFile

def ActionScores.parse (path text : String) : Except Failure ActionScores := do
  (← TableFile.entries path text).foldlM
    (fun s e => do
      let score ← e.score
      let action ← e.action
      return s.insert score action)
    {}

/-! ## Tables in files -/

namespace TableFile

def read (files : Files) (path : String) : Except Failure String :=
  match files path with
  | .ok text => .ok text
  | .error reason => .error { fault := .unreadableTable path reason }

end TableFile

def LetterScores.load (files : Files) (path : String) : Except Failure LetterScores := do
  LetterScores.parse path (← TableFile.read files path)

def ActionScores.load (files : Files) (path : String) : Except Failure ActionScores := do
  ActionScores.parse path (← TableFile.read files path)

end Beatnik
