import Beatnik.ActionScores
import Beatnik.Dictionary
import Beatnik.LetterScores
import Beatnik.Program
import Beatnik.Sink
import Beatnik.Source
import Beatnik.ValueStack

/-!
# The machine

A machine holds a program, a program counter, a stack, the tables that score words and select actions,
and the source and the sink of characters.  The program counter is the index of the word last fetched,
and -1 before the first word.  The operations here are those that actions are made of; a failure is
placed at the word last fetched, and leaves the machine as the operation has changed it by then.
-/

namespace Beatnik

structure Machine where
  letters : LetterScores := .scrabble
  actions : ActionScores := .standard
  dictionary : Dictionary := .builtIn
  stack : ValueStack := {}
  source : Source := []
  sink : Sink := {}
  words : Array Word := #[]
  /-- the index of the word last fetched, -1 before the first one -/
  index : Int := -1
  /-- whether the program was asked to stop -/
  halted : Bool := false

namespace Machine

/-- A computation on a machine. -/
abbrev Step (α : Type) := EStateM Failure Machine α

/-- The word last fetched. -/
def current? (m : Machine) : Option Word :=
  match m.index with
  | .ofNat i => m.words[i]?
  | .negSucc _ => none

def here (m : Machine) : Option Location := m.current?.map (·.location)

/-- The score of the word last fetched, or zero before the first word. -/
def currentScore (m : Machine) : Value :=
  match m.current? with
  | some w => m.letters.score w.text
  | none => 0

/-- Fails at the word last fetched. -/
def fail {α : Type} (fault : Fault) : Step α := fun m => .error ⟨fault, m.here⟩ m

/-! ## The stack -/

def push (v : Value) : Step Unit := fun m =>
  match m.stack.push v with
  | .ok stack => .ok () { m with stack }
  | .error fault => fail fault m

def pop : Step Value := fun m =>
  match m.stack.pop with
  | .ok (v, stack) => .ok v { m with stack }
  | .error fault => fail fault m

/-- The value on top of the stack, which stays. -/
def peek : Step Value := fun m =>
  match m.stack.peek with
  | .ok v => .ok v m
  | .error fault => fail fault m

/-! ## The program counter -/

/-- Puts a program in place, before its first word.  The stack stays as it is. -/
def load (m : Machine) (program : Program) : Machine :=
  { m with words := program.toArray, index := -1, halted := false }

/-- Moves the program counter and gives the score of the word it comes to.  The counter stays in the
program, or before its first word. -/
def advance (offset : Value) : Step Value := fun m =>
  let target := m.index + offset.toInt
  if -1 ≤ target ∧ target < m.words.size then
    let moved := { m with index := target }
    .ok moved.currentScore moved
  else fail (.counterOutOfBounds offset m.index m.words.size) m

/-- Fetches the next word and gives its score. -/
def nextScore : Step Value := advance 1

def halt : Step Unit := modify fun m => { m with halted := true }

/-! ## Characters -/

/-- Reads a character, or nothing at the end of the input. -/
def readChar : Step (Option Char) := fun m =>
  match Source.readChar m.source with
  | .ok c source => .ok c { m with source }
  | .error fault source => .error ⟨fault, m.here⟩ { m with source }

def writeChar (c : Char) : Step Unit := fun m =>
  match m.sink.write (Text.Utf8.encode c) with
  | (none, sink) => .ok () { m with sink }
  | (some reason, sink) => .error ⟨.transfer reason, m.here⟩ { m with sink }

end Machine

end Beatnik
