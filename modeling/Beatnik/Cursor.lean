import Beatnik.Location

/-!
# Reading a text

A cursor goes through a text from its start.  Looking at the next character (`peek`) draws it from the
text and keeps it aside; taking a character (`next`) takes the one kept aside, if there is one, and only
then draws from the text.  The place of the cursor is that of the next character to be taken.  At the
end of the text both answer `none`, and the cursor stays where it is.
-/

namespace Beatnik

structure Cursor where
  /-- a character that was looked at and has not been taken -/
  ahead : Option Char := none
  /-- what has not been looked at -/
  rest : List Char
  /-- the place of the next character to be taken -/
  location : Location
deriving DecidableEq, Repr

namespace Cursor

/-- A cursor before the first character of a text. -/
def ofText (path text : String) : Cursor := { rest := text.toList, location := .start path }

/-- The next character, which stays to be taken. -/
def peek (c : Cursor) : Option Char × Cursor :=
  match c.ahead, c.rest with
  | some x, _ => (some x, c)
  | none, x :: rest => (some x, { c with ahead := some x, rest })
  | none, [] => (none, c)

def next (c : Cursor) : Option Char × Cursor :=
  match c.ahead, c.rest with
  | some x, rest => (some x, { rest, location := c.location.after x })
  | none, x :: rest => (some x, { rest, location := c.location.after x })
  | none, [] => (none, c)

end Cursor

end Beatnik
