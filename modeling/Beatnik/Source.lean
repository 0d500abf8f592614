import Beatnik.Fault
import Beatnik.Text.Utf8

/-!
# Where characters come from

A source delivers bytes one at a time, each read once.  A read may also be interrupted, which is tried
again, or fail, or report the end of the input, after which later reads go on.  When nothing is left,
every read reports the end.  `Source.readChar` reads one character and no byte past it.
-/

namespace Beatnik

/-- What one read gives. -/
inductive Delivery where
  | byte (b : UInt8)
  | finished
  | interrupted
  | failed (reason : String)
deriving DecidableEq, Repr

/-- Whether a delivery ends the reading of a character that has begun. -/
def Delivery.isEnd : Delivery → Bool
  | .finished | .failed _ => true
  | .byte _ | .interrupted => false

/-- What the reads to come give, in order. -/
abbrev Source := List Delivery

namespace Source

def ofBytes (bytes : List UInt8) : Source := bytes.map .byte

/-- A computation that reads from a source.  What it has read is gone, also when it fails. -/
abbrev Reader (α : Type) := EStateM Fault Source α

/-- Reads one byte, or nothing at the end. -/
def readByte : Reader (Option UInt8)
  | [] => .ok none []
  | .byte b :: s => .ok (some b) s
  | .finished :: s => .ok none s
  | .interrupted :: s => readByte s
  | .failed reason :: s => .error (.unreadableInput reason) s

/-- Reads a number of bytes more, after those read already. -/
def readMore : Nat → List UInt8 → Reader (List UInt8)
  | 0, bytes => pure bytes
  | n + 1, bytes => do
    match ← readByte with
    | some b => readMore n (bytes ++ [b])
    | none => throw (.undecodableInput bytes)

def readChar : Reader (Option Char) := do
  match ← readByte with
  | none => pure none
  | some first =>
    match Text.Utf8.announcedLength first with
    | none => throw (.undecodableInput [first])
    | some length =>
      let bytes ← readMore (length - 1) [first]
      match Text.Utf8.decode? bytes with
      | some c => pure (some c)
      | none => throw (.undecodableInput bytes)

/-! ## Waiting for input -/

/-- Whether the deliveries at hand settle the next character: they hold all of its bytes, or something
that ends the reading before. -/
def isReady : Source → Bool
  | [] => false
  | .interrupted :: rest => isReady rest
  | .finished :: _ | .failed _ :: _ => true
  | .byte first :: rest =>
    (Text.Utf8.announcedLength first).getD 1 ≤ (rest.filter (· ≠ .interrupted)).length + 1 ||
      rest.any Delivery.isEnd

end Source

end Beatnik
