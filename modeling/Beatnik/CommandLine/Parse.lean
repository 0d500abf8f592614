import Beatnik.Fault
import Beatnik.Text.Numeral

/-!
# Reading the command line

The arguments ask for one thing: to run a script, to score words or to list the actions.  Options that
name tables and a stack depth may stand anywhere; of an option given twice the last one counts.  The
words to score follow `--score` up to the next option.  A request for help ends the reading at once,
whatever follows it.
-/

namespace Beatnik.CommandLine

/-! ## Usage -/

def usage : String :=
"Usage: beatnik [--scores FILE] [--actions FILE] [--max-depth N] SCRIPT
       beatnik [--scores FILE] --score WORD...
       beatnik --words

Options:
  --scores FILE    Character score table, `letter = points` per line.
  --actions FILE   Action score table, `score = action` per line.
  --max-depth N    Fail with a stack overflow past N values.
  --score          Print the score of each WORD instead of running a script.  The words run up
                   to the next option.
  --words          List the actions and what they do.
  --help, -h       Print this message."

/-- What can be wrong with the arguments. -/
inductive Misuse where
  | missingValue (option : String)
  | invalidDepth (value : String)
  | unknownOption (option : String)
  | unexpectedArgument (argument : String)
  | noScript
  | severalJobs
deriving DecidableEq, Repr

/-- The complaint about misuse, followed by the help text. -/
def Misuse.message (m : Misuse) : String :=
  let complaint := match m with
    | missingValue option => s!"{option} expects a value."
    | invalidDepth value => s!"Invalid stack depth {value}."
    | unknownOption option => s!"Unknown option {option}."
    | unexpectedArgument argument => s!"Unexpected argument {argument}."
    | noScript => "No script given."
    | severalJobs => "Choose one of a script, --score or --words."
  complaint ++ "\n\n" ++ usage

def Misuse.fault (m : Misuse) : Fault := .stated .configuration m.message

/-! ## Commands -/

/-- The files of the tables and the largest stack depth. -/
structure Options where
  scores : Option String := none
  actions : Option String := none
  maxDepth : Option Nat := none
deriving DecidableEq, Repr

inductive Job where
  | run (script : String)
  | score (arguments : List String)
  | list
deriving DecidableEq, Repr

/-- What the arguments ask for. -/
inductive Command where
  | help
  | perform (options : Options) (job : Job)
deriving DecidableEq, Repr

/-! ## Reading -/

/-- Whether an argument is an option and not a word. -/
def isOption (argument : String) : Bool := "--".toList.isPrefixOf argument.toList

/-- What the arguments have asked for so far. -/
structure Request where
  options : Options := {}
  words : Option (List String) := none
  list : Bool := false
  script : Option String := none
deriving DecidableEq, Repr

/-- The command of a whole request, which asks for exactly one thing. -/
def Request.command (r : Request) : Except Misuse Command :=
  match r.words, r.list, r.script with
  | some arguments, false, none => .ok (.perform r.options (.score arguments))
  | none, true, none => .ok (.perform r.options .list)
  | none, false, some script => .ok (.perform r.options (.run script))
  | none, false, none => .error .noScript
  | _, _, _ => .error .severalJobs

/-- The largest stack depth that can be asked for. -/
def maxLimit : Nat := 18446744073709551615

def Request.read (r : Request) : List String → Except Misuse Command
  | [] => r.command
  | "--scores" :: rest =>
    match rest with
    | [] => .error (.missingValue "--scores")
    | file :: rest => read { r with options.scores := some file } rest
  | "--actions" :: rest =>
    match rest with
    | [] => .error (.missingValue "--actions")
    | file :: rest => read { r with options.actions := some file } rest
  | "--max-depth" :: rest =>
    match rest with
    | [] => .error (.missingValue "--max-depth")
    | value :: rest =>
      match Text.natural? maxLimit value.toList with
      | some depth => read { r with options.maxDepth := some depth } rest
      | none => .error (.invalidDepth value)
  | "--score" :: rest =>
    have := (List.dropWhile_sublist (l := rest) (!isOption ·)).length_le
    read { r with words := some (rest.takeWhile (!isOption ·)) } (rest.dropWhile (!isOption ·))
  | "--words" :: rest => read { r with list := true } rest
  | "--help" :: _ => .ok .help
  | "-h" :: _ => .ok .help
  | argument :: rest =>
    if isOption argument then .error (.unknownOption argument)
    else match r.script with
      | none => read { r with script := some argument } rest
      | some _ => .error (.unexpectedArgument argument)
termination_by arguments => arguments.length

def parse (arguments : List String) : Except Misuse Command := Request.read {} arguments

end Beatnik.CommandLine
