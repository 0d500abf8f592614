import Beatnik.CommandLine.Perform

/-!
# The program

Connects the command line to the outside: files and variables are read before a command is prepared,
characters are read when the next word wants one, and output is written after each word.
-/

namespace Beatnik.Main

/-- The number of an error of the operating system, which may be given with a minus sign. -/
def errorNumber (code : UInt32) : Nat := min code.toNat (4294967296 - code.toNat)

/-- The reason that a system call gives for failing. -/
def reason : IO.Error → String
  | .permissionDenied _ code details => s!"{details} (os error {errorNumber code})"
  | .resourceExhausted _ code details => s!"{details} (os error {errorNumber code})"
  | .otherError code details => s!"{details} (os error {errorNumber code})"
  | e => toString e

def fileFault : IO.Error → FileFault
  | .noFileOrDirectory .. => .notFound
  | .inappropriateType _ code _ => if errorNumber code = 21 then .isFolder else .notFolder
  | .invalidArgument _ code details =>
    if errorNumber code = 36 then .nameTooLong
    else .system s!"{details} (os error {errorNumber code})"
  | e => .system (reason e)

def readText (path : String) : IO (Except FileFault String) := do
  if path.toList.contains '\x00' then return .error .nulInName
  try
    return textOfBytes (← IO.FS.readBinFile path)
  catch e => return .error (fileFault e)

/-- Reads files, so that their texts can be looked up. -/
def readFiles (paths : List String) : IO Files := do
  let texts ← paths.mapM fun path => do return (path, ← readText path)
  return fun path => (texts.lookup path).getD (.error .notFound)

/-- Reads bytes until the source has a whole character or a reason for having none. -/
partial def refill (input : IO.FS.Stream) (source : Source) : IO Source := do
  if source.isReady then return source
  let delivery : Delivery ← try
      let bytes ← input.read 1
      pure (match bytes.toList with
        | [] => .finished
        | b :: _ => .byte b)
    catch e => pure (.failed (reason e))
  refill input (source ++ [delivery])

/-- Writes the output of a machine; gives the machine without it, and a failure to write. -/
def emit (output : IO.FS.Stream) (m : Machine) : IO (Option Failure × Machine) := do
  let (bytes, sink) := m.sink.drain
  let drained := { m with sink }
  if bytes.isEmpty then return (none, drained)
  try
    output.write (ByteArray.mk bytes.toArray)
    output.flush
    return (none, drained)
  catch e => return (some ⟨.transfer (reason e), m.here⟩, drained)

/-- Runs a program to its end; gives the failure that ends it. -/
partial def resume (input output : IO.FS.Stream) (m : Machine) : IO (Option Failure) := do
  let source ← if m.readsNext then refill input m.source else pure m.source
  match Machine.dispatch { m with source } with
  | .error failure m =>
    let (unwritten, _) ← emit output m
    return unwritten <|> some failure
  | .ok progress m =>
    match ← emit output m, progress with
    | (some failure, _), _ => return some failure
    | (none, _), .stopped => return none
    | (none, m), .running => resume input output m

def fail (failure : Failure) : IO UInt32 := do
  IO.eprint (CommandLine.errorText failure)
  return 1

end Beatnik.Main

open Beatnik Beatnik.Main in
def main (arguments : List String) : IO UInt32 := do
  match CommandLine.parse arguments with
  | .error misuse => fail { fault := misuse.fault }
  | .ok command =>
    let env : CommandLine.Environment := {
      scores := ← IO.getEnv CommandLine.Environment.scoresVariable
      actions := ← IO.getEnv CommandLine.Environment.actionsVariable }
    let files ← readFiles (command.paths env)
    match command.prepare files env [] with
    | .error failure => fail failure
    | .ok (.print text) =>
      IO.print text
      return 0
    | .ok (.resume m) =>
      match ← resume (← IO.getStdin) (← IO.getStdout) m with
      | none => return 0
      | some failure => fail failure
