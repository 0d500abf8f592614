/-!
# Files

Texts are read from files by path.  A path that leads to no readable text fails for one of a few
reasons (`FileFault`).
-/

namespace Beatnik

/-! ## Reasons for failing -/

/-- Why a file could not be read as text. -/
inductive FileFault where
  | notFound
  | notFolder
  | isFolder
  | nameTooLong
  | nulInName
  | notText
  | system (reason : String)
deriving DecidableEq, Repr

/-- The reason in words, with the number that the operating system gives it. -/
def FileFault.message : FileFault → String
  | notFound => "No such file or directory (os error 2)"
  | notFolder => "Not a directory (os error 20)"
  | isFolder => "Is a directory (os error 21)"
  | nameTooLong => "File name too long (os error 36)"
  | nulInName => "file name contained an unexpected NUL byte"
  | notText => "stream did not contain valid UTF-8"
  | system reason => reason

/-- The texts of files, by path. -/
abbrev Files := String → Except FileFault String

/-- The text that the bytes of a file encode. -/
def textOfBytes (bytes : ByteArray) : Except FileFault String :=
  match String.fromUTF8? bytes with
  | some text => .ok text
  | none => .error .notText

end Beatnik
