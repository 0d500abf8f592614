import Beatnik.Location

/-!
# The words of a text

A word is a longest run of word characters: ASCII letters, digits and the underscore.  All other
characters only separate words.  `Word.scan` lists the words of a text with the place of their first
character.
-/

namespace Beatnik

structure Word where
  location : Location
  text : String
deriving DecidableEq, Repr, Inhabited

namespace Word

/-- ASCII letters, digits and the underscore make up words. -/
def isWordChar (c : Char) : Bool := c.isAlphanum || c == '_'

/-- A word with its place, as shown in listings. -/
def render (w : Word) : String := s!"{w.location.render}: {w.text}"

/-! ## Scanning -/

/-- A word being read: where it starts, and its characters so far, last one first. -/
structure Pending where
  start : Location
  letters : List Char

/-- The words read so far, last one first, the word being read and the place reached. -/
structure Scanner where
  location : Location
  pending : Option Pending := none
  found : List Word := []

/-- Ends the word being read, if there is one. -/
def Scanner.close (s : Scanner) : List Word :=
  match s.pending with
  | none => s.found
  | some p => ⟨p.start, String.ofList p.letters.reverse⟩ :: s.found

/-- Reads one character: a word character starts or goes on with a word, any other one ends it. -/
def Scanner.step (s : Scanner) (c : Char) : Scanner :=
  if isWordChar c then
    let letters := match s.pending with
      | none => ⟨s.location, [c]⟩
      | some p => { p with letters := c :: p.letters }
    { s with location := s.location.after c, pending := some letters }
  else
    { location := s.location.after c, found := s.close }

/-- The words of a text, in order. -/
def scan (path text : String) : List Word :=
  (text.toList.foldl Scanner.step { location := .start path }).close.reverse

end Word

end Beatnik
