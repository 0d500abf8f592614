import Beatnik.Value

/-!
# Numbers in decimal digits

Numbers are read from ASCII digits, at least one, leading zeros allowed.  A plus sign may stand before
a number, a minus sign only before an integer.
-/

namespace Beatnik.Text

def digitValue (c : Char) : Nat := c.toNat - '0'.toNat

/-- The number written by one or more decimal digits. -/
def digits? (cs : List Char) : Option Nat :=
  if cs ≠ [] ∧ cs.all Char.isDigit then some (cs.foldl (fun n c => 10 * n + digitValue c) 0)
  else none

/-- A natural number of at most `max`. -/
def natural? (max : Nat) (cs : List Char) : Option Nat :=
  (digits? (match cs with | '+' :: rest => rest | _ => cs)).filter (· ≤ max)

def integer? (cs : List Char) : Option Int :=
  match cs with
  | '-' :: rest => (digits? rest).map fun n : Nat => -(n : Int)
  | '+' :: rest => (digits? rest).map fun n : Nat => (n : Int)
  | _ => (digits? cs).map fun n : Nat => (n : Int)

/-- An integer in the range of values. -/
def value? (cs : List Char) : Option Value := (integer? cs).bind Value.ofInt?

end Beatnik.Text
