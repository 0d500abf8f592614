import Beatnik.Machine.Perform

/-!
# Running a program

The machine fetches word after word and carries out the action that the word's score selects; a word
whose score selects nothing is passed over.  A program stops after its last word, or when an action
finds that it was asked to stop.  It need not stop at all, so a run is given a number of words to
fetch, and has no result (`none`) if that number does not suffice.
-/

namespace Beatnik.Machine

/-- Whether the machine goes on after a word. -/
inductive Progress where
  | running
  | stopped
deriving DecidableEq, Repr

/-- Carries out an action as if a word had selected it. -/
def execute (a : Action) : Step Progress := do
  match (← get).dictionary.find? a with
  | none => return .running
  | some e =>
    perform e.behaviour
    return if (← get).halted then .stopped else .running

/-- Fetches the next word, if there is one, and carries out the action it selects. -/
def dispatch : Step Progress := do
  let m ← get
  if m.index = m.words.size - 1 then return .stopped
  let score ← nextScore
  match m.actions.action? score with
  | none => return .running
  | some a => execute a

/-- Whether the word to be fetched next reads a character. -/
def readsNext (m : Machine) : Bool :=
  match m.words[(m.index + 1).toNat]? with
  | none => false
  | some w =>
    ((m.actions.action? (m.letters.score w.text)).bind m.dictionary.find?).any (·.behaviour = .input)

abbrev Outcome := EStateM.Result Failure Machine Unit

/-- Fetches words until the program stops or fails, but at most `fuel` words. -/
def resume : Nat → Machine → Option Outcome
  | 0, _ => none
  | fuel + 1, m =>
    match dispatch m with
    | .ok .running m' => resume fuel m'
    | .ok .stopped m' => some (.ok () m')
    | .error failure m' => some (.error failure m')

/-- A program in place on an empty stack. -/
def start (m : Machine) (program : Program) : Machine :=
  { m with stack := m.stack.clear }.load program

def run (fuel : Nat) (m : Machine) (text : String) : Option Outcome :=
  resume fuel (m.start (.ofText text))

/-- Runs a program in a file.  If the file cannot be read the machine stays as it is. -/
def runFile (fuel : Nat) (files : Files) (m : Machine) (path : String) : Option Outcome :=
  match Program.load files path with
  | .ok program => resume fuel (m.start program)
  | .error failure => some (.error failure m)

end Beatnik.Machine
