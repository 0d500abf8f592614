import Beatnik.Action
import Beatnik.Text.Padding
import Std.Data.ExtTreeMap

/-!
# The dictionary of actions

The dictionary has an entry for each action: the built-in behaviour that the action carries out, and a
description with a stack signature for listings.  An action can be given the behaviour that another one
has at that moment (`Dictionary.rebind`); later changes to the other one do not matter to it.
-/

namespace Beatnik

namespace Dictionary

/-- What an action does, and how it is described. -/
structure Entry where
  action : Action
  /-- the action whose built-in behaviour is carried out -/
  behaviour : Action
  description : String
  /-- the top of the stack before and after -/
  signature : String
deriving DecidableEq, Repr

/-- An entry as a line of a listing: name, signature and description in columns. -/
def Entry.render (e : Entry) : String :=
  let signature := "( " ++ String.ofList (Text.trim e.signature.toList) ++ " )"
  s!"{Text.padRight 9 e.action.name} {Text.padRight 18 signature} {e.description}"

end Dictionary

structure Dictionary where
  table : Std.ExtTreeMap Action Dictionary.Entry := ∅

namespace Dictionary

def find? (d : Dictionary) (a : Action) : Option Entry := d.table[a]?

/-- Adds an entry, in place of an earlier one for the same action. -/
def insert (d : Dictionary) (e : Entry) : Dictionary := ⟨d.table.insert e.action e⟩

/-- Some entries in the order of actions. -/
def inOrder (es : List Entry) : List Entry := es.mergeSort fun e f => e.action.rank ≤ f.action.rank

/-- The entries, in the order of actions. -/
def entries (d : Dictionary) : List Entry := inOrder (d.table.toList.map (·.2))

def size (d : Dictionary) : Nat := d.table.size

/-- Gives an action the behaviour that another one has now. -/
def rebind (d : Dictionary) (action source : Action) (description signature : String) :
    Dictionary :=
  match d.find? source with
  | none => d
  | some e => d.insert ⟨action, e.behaviour, description, signature⟩

/-! ## Built-in actions -/

def describe : Action → String
  | .push => "Push the score of the next word, which is consumed."
  | .pop => "Discard the top value on the data stack."
  | .add => "Replace the top two values with their sum."
  | .input => "Read one character and push its code."
  | .output => "Write the top value as a character."
  | .subtract => "Replace the top two values with y - x."
  | .swap => "Swap the top 2 values on the data stack."
  | .dup => "Duplicate the top value on the data stack."
  | .forwardIfZero => "Skip ahead by the next word's score if the top value is zero."
  | .forwardIfNonzero => "Skip ahead by the next word's score if the top value is not zero."
  | .backwardIfZero => "Go back by the next word's score if the top value is zero."
  | .backwardIfNonzero => "Go back by the next word's score if the top value is not zero."
  | .quit => "Stop the program."

def signatureOf : Action → String
  | .push => " -- score"
  | .pop => "value -- "
  | .add => "n1 n2 -- n"
  | .input => " -- character"
  | .output => "character -- "
  | .subtract => "y x -- n"
  | .swap => "a b -- b a"
  | .dup => "value -- value value"
  | .forwardIfZero | .forwardIfNonzero | .backwardIfZero | .backwardIfNonzero => "condition -- "
  | .quit => " -- "

/-- The dictionary in which each action carries out its own behaviour. -/
def builtIn : Dictionary :=
  Action.all.foldl (fun d a => d.insert ⟨a, a, describe a, signatureOf a⟩) {}

end Dictionary

end Beatnik
