import Beatnik.CommandLine.Parse
import Beatnik.Machine.Run
import Beatnik.TableFile

/-!
# Carrying out a command

A command either prints a text or runs a program.  Tables that no option names are those that the
environment names, or else the standard ones.  Both tables are read before anything is done, also by
commands that do not need them.
-/

namespace Beatnik.CommandLine

/-- The files of tables that the environment names. -/
structure Environment where
  scores : Option String := none
  actions : Option String := none
deriving DecidableEq, Repr

/-- The environment variable that names a table of points. -/
def Environment.scoresVariable : String := "BEATNIK_CHARACTER_SCORES"

/-- The environment variable that names a table of actions. -/
def Environment.actionsVariable : String := "BEATNIK_ACTION_SCORES"

/-! ## Texts to print -/

/-- The name under which the words of arguments stand. -/
def argumentsName : String := "<arguments>"

/-- Each word of the arguments with its score. -/
def scoreListing (s : LetterScores) (arguments : List String) : String :=
  String.join <| arguments.flatMap fun argument =>
    (Word.scan argumentsName argument).map fun w => s!"{w.text}: {(s.score w.text).render}\n"

def actionLine (e : Dictionary.Entry) (scores : List Value) : String :=
  let column := Text.padLeft 8 (",".intercalate (scores.map Value.render))
  s!"{column}  {e.render}\n"

/-- The lines of some entries, with the scores that select their actions among some bindings. -/
def actionLines (es : List Dictionary.Entry) (bindings : List (Value × Action)) : String :=
  String.join (es.map fun e => actionLine e (ActionScores.scoresIn bindings e.action))

def actionListing (d : Dictionary) (s : ActionScores) : String := actionLines d.entries s.entries

/-! ## Commands -/

/-- What is left to do once the files are read. -/
inductive Work where
  | print (text : String)
  | resume (m : Machine)

/-- The machine for some options, without a program. -/
def Options.machine (o : Options) (files : Files) (env : Environment) (source : Source) :
    Except Failure Machine := do
  let letters ← match o.scores <|> env.scores with
    | some path => LetterScores.load files path
    | none => pure .scrabble
  let actions ← match o.actions <|> env.actions with
    | some path => ActionScores.load files path
    | none => pure .standard
  return { letters, actions, source, stack := .withLimit o.maxDepth }

def Command.paths (env : Environment) : Command → List String
  | .help => []
  | .perform options job =>
    let script := match job with
      | .run script => some script
      | _ => none
    [options.scores <|> env.scores, options.actions <|> env.actions, script].filterMap id

def Command.prepare (files : Files) (env : Environment) (source : Source) :
    Command → Except Failure Work
  | .help => .ok (.print (usage ++ "\n"))
  | .perform options job => do
    let m ← options.machine files env source
    match job with
    | .run script => return .resume (m.start (← Program.load files script))
    | .score arguments => return .print (scoreListing m.letters arguments)
    | .list => return .print (actionListing m.dictionary m.actions)

/-! ## Whole runs -/

/-- How a run of the command line ends. -/
structure Exit where
  code : Nat
  output : List UInt8
  errors : String
deriving DecidableEq, Repr

def errorText (failure : Failure) : String := s!"Error: {failure.render}\n"

def Exit.failed (output : List UInt8) (failure : Failure) : Exit := ⟨1, output, errorText failure⟩

/-- Does the work, running a program for at most `fuel` words. -/
def Work.finish (fuel : Nat) : Work → Option Exit
  | .print text => some ⟨0, text.toUTF8.toList, ""⟩
  | .resume m =>
    (m.resume fuel).map fun
      | .ok _ m => ⟨0, m.sink.bytes, ""⟩
      | .error failure m => .failed m.sink.bytes failure

/-- Carries out the arguments of a command line. -/
def run (fuel : Nat) (files : Files) (env : Environment) (input : List UInt8)
    (arguments : List String) : Option Exit :=
  match parse arguments with
  | .error misuse => some (.failed [] { fault := misuse.fault })
  | .ok command =>
    match command.prepare files env (.ofBytes input) with
    | .error failure => some (.failed [] failure)
    | .ok work => work.finish fuel

end Beatnik.CommandLine
