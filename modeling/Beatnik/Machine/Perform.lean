import Beatnik.Machine.Basic

/-!
# What actions do

Each action in terms of the machine's operations.  An operand is the score of the word after the
action's own word, which is fetched with it.  A branch fetches its distance and pops its condition,
whether it is taken or not.
-/

namespace Beatnik.Machine

/-- Pushes the result of an operation on the two topmost values, the topmost being the second operand;
an operation without a result fails. -/
def arithmetic (operation : Value → Value → Option Value) (fault : Value → Value → Fault) :
    Step Unit := do
  let b ← pop
  let a ← pop
  match operation a b with
  | some v => push v
  | none => fail (fault a b)

/-- The way of a taken branch. -/
inductive Direction where
  | forward
  | backward
deriving DecidableEq, Repr

/-- How far a taken branch moves the program counter.  A branch back by a distance goes one word
further, so that the next word fetched is the one at that distance before the operand. -/
def Direction.offset? : Direction → Value → Option Value
  | forward, distance => some distance
  | backward, distance => (Value.sub? 0 distance).bind (Value.sub? · 1)

/-- Branches by the next word's score if the popped value meets the condition. -/
def branch (direction : Direction) (condition : Value → Bool) : Step Unit := do
  let distance ← nextScore
  let v ← pop
  if condition v then
    match direction.offset? distance with
    | some offset =>
      let _ ← advance offset
      return ()
    | none => fail (.distanceOverflow distance)

def charOfValue? (v : Value) : Option Char :=
  if 0 ≤ v.toInt ∧ v.toInt.toNat.isValidChar then some (Char.ofNat v.toInt.toNat) else none

/-- Carries out the built-in behaviour of an action. -/
def perform : Action → Step Unit
  | .push => do push (← nextScore)
  | .pop => do
    let _ ← pop
    return ()
  | .add => arithmetic Value.add? .sumOverflow
  | .input => do
    match ← readChar with
    | some c => push (Int64.ofNat c.toNat)
    | none => fail .endOfInput
  | .output => do
    let v ← pop
    match charOfValue? v with
    | some c => writeChar c
    | none => fail (.invalidCharacter v)
  | .subtract => arithmetic Value.sub? .differenceOverflow
  | .swap => do
    let a ← pop
    let b ← pop
    push a
    push b
  | .dup => do push (← peek)
  | .forwardIfZero => branch .forward (· = 0)
  | .forwardIfNonzero => branch .forward (· ≠ 0)
  | .backwardIfZero => branch .backward (· = 0)
  | .backwardIfNonzero => branch .backward (· ≠ 0)
  | .quit => halt

end Beatnik.Machine
