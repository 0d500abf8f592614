import Beatnik.Fault
import Beatnik.Word

/-!
# Programs

A program is the list of words of a text.  The text is given as such, under the name `<program>`, or
read from a file, under the file's path.
-/

namespace Beatnik

/-- The words of a program, in order. -/
abbrev Program := List Word

namespace Program

/-- The name of a program that is not read from a file. -/
def unnamed : String := "<program>"

def ofText (text : String) : Program := Word.scan unnamed text

def load (files : Files) (path : String) : Except Failure Program :=
  match files path with
  | .ok text => .ok (Word.scan path text)
  | .error reason => .error { fault := .unreadableProgram path reason }

end Program

end Beatnik
