import Beatnik.Action
import Beatnik.Files
import Beatnik.Location
import Beatnik.Text.Hex
import Beatnik.Value

/-!
# What can go wrong

A fault is the cause of a failure: each has a kind (`Fault.kind`) and a description (`Fault.message`).
A failure is a fault with the place in a text that it belongs to, if there is one.
-/

namespace Beatnik

/-! ## Kinds -/

inductive FaultKind where
  | stackUnderflow
  | stackOverflow
  | counterOutOfBounds
  | arithmeticOverflow
  | invalidCharacter
  | endOfInput
  | transfer
  | configuration
  | unspellable
deriving DecidableEq, Repr

def FaultKind.name : FaultKind → String
  | stackUnderflow => "stack underflow"
  | stackOverflow => "stack overflow"
  | counterOutOfBounds => "program counter out of bounds"
  | arithmeticOverflow => "arithmetic overflow"
  | invalidCharacter => "invalid character"
  | endOfInput => "end of input"
  | transfer => "i/o error"
  | configuration => "configuration error"
  | unspellable => "unspellable score"

/-! ## Causes -/

/-- How often the largest letter may fit into a score that is to be spelled. -/
def Spelling.maxLetters : Nat := 1048576

/-- How many totals the search for the rest of a score may cover. -/
def Spelling.maxTotals : Nat := 1048576

/-- The cause of a failure. -/
inductive Fault where
  /-- a value was wanted of an empty stack -/
  | stackUnderflow
  /-- a value was pushed on a stack at its limit -/
  | stackOverflow (limit : Nat)
  /-- the program counter was moved by `offset` from `index`, out of a program of `count` words -/
  | counterOutOfBounds (offset : Value) (index : Int) (count : Nat)
  /-- a sum is no value -/
  | sumOverflow (a b : Value)
  /-- a difference is no value -/
  | differenceOverflow (a b : Value)
  /-- the way back by a distance is no value -/
  | distanceOverflow (distance : Value)
  /-- a value is no character code -/
  | invalidCharacter (value : Value)
  /-- a character was wanted after the last one -/
  | endOfInput
  /-- the input could not be read -/
  | unreadableInput (reason : String)
  /-- the input holds bytes that encode no character -/
  | undecodableInput (bytes : List UInt8)
  /-- the output, or something else outside of the program, failed -/
  | transfer (reason : String)
  /-- a program could not be read -/
  | unreadableProgram (path : String) (reason : FileFault)
  /-- a table could not be read -/
  | unreadableTable (path : String) (reason : FileFault)
  /-- a line of a table is no entry -/
  | notAnEntry (line : String)
  /-- the key of an entry is no letter -/
  | notALetter (key : String)
  /-- the value of an entry is no number of points -/
  | notPoints (value : String)
  /-- the key of an entry is no score -/
  | notAScore (key : String)
  /-- a text names no action -/
  | unknownAction (name : String)
  /-- no score selects an action -/
  | unselectedAction (action : Action)
  /-- no word has a score -/
  | unspellable (score : Value)
  /-- the largest letter fits into a score too often -/
  | wordTooLong (score : Value)
  /-- the search for a word would cover too many totals -/
  | searchTooLong (score : Value) (largest totals : Nat)
  /-- a fault of a stated kind with a stated description -/
  | stated (kind : FaultKind) (text : String)
deriving DecidableEq, Repr

namespace Fault

def kind : Fault → FaultKind
  | stackUnderflow => .stackUnderflow
  | stackOverflow _ => .stackOverflow
  | counterOutOfBounds .. => .counterOutOfBounds
  | sumOverflow .. | differenceOverflow .. | distanceOverflow _ => .arithmeticOverflow
  | invalidCharacter _ => .invalidCharacter
  | endOfInput => .endOfInput
  | unreadableInput _ | undecodableInput _ | transfer _ => .transfer
  | unreadableProgram .. | unreadableTable .. => .transfer
  | notAnEntry _ | notALetter _ | notPoints _ | notAScore _ | unknownAction _ => .configuration
  | unselectedAction _ | unspellable _ | wordTooLong _ | searchTooLong .. => .unspellable
  | stated kind _ => kind

/-- The place that a move of the program counter would lead to. -/
def renderTarget (offset : Value) (index : Int) : String :=
  match Value.ofInt? (index + offset.toInt) with
  | some target => target.render
  | none => "an overflowing position"

def message : Fault → String
  | stackUnderflow => "Stack underflow."
  | stackOverflow limit => s!"Stack overflow, the depth limit is {limit}."
  | counterOutOfBounds offset index count =>
    s!"Moving the program counter by {offset.render} from word {index} lands on " ++
      s!"{renderTarget offset index}, outside of the {count} word program."
  | sumOverflow a b => s!"{a.render} + {b.render} overflows a 64 bit integer."
  | differenceOverflow a b => s!"{a.render} - {b.render} overflows a 64 bit integer."
  | distanceOverflow distance =>
    s!"Branch distance {distance.render} overflows a 64 bit integer."
  | invalidCharacter value => s!"{value.render} is not a valid character code."
  | endOfInput => "No more input to read."
  | unreadableInput reason => s!"Failed to read input: {reason}"
  | undecodableInput bytes => s!"Input bytes {Text.hexList bytes} are not valid UTF-8."
  | transfer reason => s!"I/O error: {reason}"
  | unreadableProgram path reason => s!"Could not read file {path}: {reason.message}"
  | unreadableTable path reason => s!"Could not read score table {path}: {reason.message}"
  | notAnEntry line => s!"Expected `key = value`, found {line}."
  | notALetter key => s!"Expected a single letter, found {key}."
  | notPoints value => s!"Expected a non-negative number of points, found {value}."
  | notAScore key => s!"Expected an integer score, found {key}."
  | unknownAction name => s!"Unknown action {name}."
  | unselectedAction action => s!"No score selects the {action.name} action."
  | unspellable score => s!"No word can be spelled with a score of {score.render}."
  | wordTooLong score => s!"A word scoring {score.render} needs more than {Spelling.maxLetters} letters."
  | searchTooLong score largest totals =>
    s!"Spelling {score.render} with letters worth up to {largest} needs a search over " ++
      s!"{totals} totals, more than the {Spelling.maxTotals} allowed."
  | stated _ text => text

end Fault

/-! ## Failures -/

/-- A fault and the place that it belongs to. -/
structure Failure where
  fault : Fault
  location : Option Location := none
deriving DecidableEq, Repr

namespace Failure

/-- Places a failure, unless it has a place already. -/
def withLocation (f : Failure) (location : Option Location) : Failure :=
  { f with location := f.location <|> location }

/-- A failure as shown to the user: its place, if it has one, and the description of its fault. -/
def render (f : Failure) : String :=
  match f.location with
  | some l => s!"{l.render}: {f.fault.message}"
  | none => f.fault.message

end Failure

end Beatnik
