import Beatnik.Fault
import Beatnik.LetterScores

/-!
# Spelling scores

A word of a wanted score, with as few letters as possible (`LetterScores.spell`).  Scores are counted
in steps, the greatest common divisor of the points.  Of a large score, the part above the square of
the largest letter's steps is spelled with that letter alone.  For the rest, a search over all totals up
to it notes how few letters each total takes and which letter comes last (`Search`), and the way back
from the rest to zero gives the letters.  Among letters that lead to equally few, the one with the most
points is taken, and of several with the same points the first in the alphabet.
-/

namespace Beatnik

namespace Spelling

structure Letter where
  char : Char
  points : Nat
deriving DecidableEq, Repr

/-- Of two letters the one with more points is preferred, and of two with the same points the first in
the alphabet. -/
def Letter.precedes (a b : Letter) : Bool :=
  b.points < a.points || (a.points == b.points && a.char ≤ b.char)

/-- The ASCII letters among some entries that are worth points, in the order of preference. -/
def lettersIn (entries : List (Char × UInt32)) : List Letter :=
  let worth := (entries.filter fun e => e.1.isAlpha && 0 < e.2).map fun e => ⟨e.1, e.2.toNat⟩
  worth.mergeSort Letter.precedes

/-- The ASCII letters of a table that are worth points, those with the most points first. -/
def letters (s : LetterScores) : List Letter := lettersIn s.entries

/-- The greatest common divisor of the points of the letters. -/
def step (ls : List Letter) : Nat := ls.foldl (fun d l => d.gcd l.points) 0

/-- The letters with their points counted in steps. -/
def inSteps (ls : List Letter) : List Letter :=
  ls.map fun l => { l with points := l.points / step ls }

/-! ## Small totals -/

/-- What is known of the totals from zero to a bound. -/
structure Search where
  /-- the fewest letters of each total, if any letters add up to it -/
  fewest : Array (Option Nat)
  /-- the place of the letter that was added last to get to a total, zero where nothing was found -/
  last : Array Nat
deriving DecidableEq, Repr

namespace Search

/-- Only zero is reached at first, by no letters. -/
def start (bound : Nat) : Search where
  fewest := (Array.replicate (bound + 1) none).setIfInBounds 0 (some 0)
  last := Array.replicate (bound + 1) 0

/-- Tries to get to a total by a letter, and notes it if that takes fewer letters than so far. -/
def attempt (s : Search) (total : Nat) (l : Letter) (place : Nat) : Search :=
  if total < l.points then s
  else match s.fewest[total - l.points]? with
    | some (some count) =>
      if s.fewest[total]?.join.all (count + 1 < ·) then
        ⟨s.fewest.setIfInBounds total (some (count + 1)), s.last.setIfInBounds total place⟩
      else s
    | _ => s

/-- Tries all letters for a total, one after another. -/
def visit (ls : List Letter) (s : Search) (total : Nat) : Search :=
  ls.zipIdx.foldl (fun s l => s.attempt total l.1 l.2) s

/-- Visits all totals from one to a bound. -/
def run (ls : List Letter) (bound : Nat) : Search :=
  bound.fold (fun i _ s => s.visit ls (i + 1)) (start bound)

def fewest? (s : Search) (total : Nat) : Option Nat := s.fewest[total]?.join

/-- One round of the way back: the letter that was added last, and the total before it.  There is none
outside of the tables and below zero. -/
def back? (s : Search) (ls : List Letter) (total : Nat) : Option (Letter × Nat) := do
  let place ← s.last[total]?
  let l ← ls[place]?
  if l.points ≤ total then some (l, total - l.points) else none

/-- Writes the letters on the way back from a total to zero behind a word, unless the way ends before or
gets no further. -/
def walk? (s : Search) (ls : List Letter) (total : Nat) (word : String) : Option String :=
  if total = 0 then some word
  else match s.back? ls total with
    | none => none
    | some (l, before) => if before < total then s.walk? ls before (word.push l.char) else none
termination_by total

end Search

/-- A word and behind it the best spelling of a total, if that has one. -/
def find? (ls : List Letter) (total : Nat) (word : String) : Option String :=
  let found := Search.run ls total
  match found.fewest? total with
  | none => none
  | some _ => found.walk? ls total word

/-! ## Large totals -/

/-- The totals that are left to the search: up to the square of the largest letter, as far as there are
values. -/
def window (unit : Value) : Value := .nearest (unit.toInt * unit.toInt)

/-- How often the largest letter is used before the search. -/
def bulk (unit target : Value) : Value :=
  if window unit < target then (target - window unit) / unit else 0

/-- What is left of a total for the search. -/
def remainder (unit target : Value) : Value := target - bulk unit target * unit

/-- The word of the score zero: a word character without points. -/
def zeroWord : String := "_"

end Spelling

open Spelling in
/-- A word of a score in some letters, with as few of them as possible. -/
def LetterScores.spellWith (s : LetterScores) (ls : List Letter) (score : Value) :
    Except Fault String := do
  if score = 0 then
    if s.score zeroWord = 0 then return zeroWord
    throw (.unspellable score)
  if score < 0 then throw (.unspellable score)
  let some big := ls.head? | throw (.unspellable score)
  let largest := Int64.ofNat big.points
  let step := Int64.ofNat (step ls)
  if score % step ≠ 0 then throw (.unspellable score)
  if Int64.ofNat maxLetters < score / largest then throw (.wordTooLong score)
  let target := score / step
  let unit := largest / step
  let rest := remainder unit target
  if Int64.ofNat maxTotals < rest then
    throw (.searchTooLong score big.points rest.toInt.toNat)
  let front := String.ofList (List.replicate (bulk unit target).toInt.toNat big.char)
  match find? (inSteps ls) rest.toInt.toNat front with
  | some word => return word
  | none => throw (.unspellable score)

/-- A word of a score, with as few letters as possible. -/
def LetterScores.spell (s : LetterScores) (score : Value) : Except Fault String :=
  s.spellWith (Spelling.letters s) score

end Beatnik
