/-!
# Where characters go

A sink takes bytes, all of them or only as many as it has room for.  What fits is written, also when
the rest does not fit.  After each write the sink is flushed, which may fail as well.
-/

namespace Beatnik

/-- What a sink without room does with a write. -/
inductive WhenFull where
  /-- it takes no byte -/
  | takesNone
  /-- it fails -/
  | fails
deriving DecidableEq, Repr

/-- The reason that is given when the rest of a write does not fit. -/
def WhenFull.reason : WhenFull → String
  | takesNone => "failed to write whole buffer"
  | fails => "sink full"

@[ext]
structure Sink where
  /-- the bytes written, last one first -/
  written : List UInt8 := []
  /-- how many bytes still fit -/
  room : Option Nat := none
  whenFull : WhenFull := .fails
  /-- whether flushing works -/
  flushes : Bool := true
deriving DecidableEq, Repr

namespace Sink

def bytes (s : Sink) : List UInt8 := s.written.reverse

/-- The part of some bytes that fits. -/
def fitting (s : Sink) (bytes : List UInt8) : List UInt8 :=
  match s.room with
  | none => bytes
  | some n => bytes.take n

/-- The sink after taking bytes that fit. -/
def accept (s : Sink) (bytes : List UInt8) : Sink :=
  { s with written := bytes.reverse ++ s.written, room := s.room.map (· - bytes.length) }

/-- Writes bytes and flushes; gives the reason of a failure. -/
def write (s : Sink) (bytes : List UInt8) : Option String × Sink :=
  let taken := s.fitting bytes
  let after := s.accept taken
  if taken.length < bytes.length then (some s.whenFull.reason, after)
  else if s.flushes then (none, after)
  else (some "flush failed", after)

/-- Takes out the bytes written so far. -/
def drain (s : Sink) : List UInt8 × Sink := (s.bytes, { s with written := [] })

/-! ## Lemmas -/

theorem bytes_accept (s : Sink) (bs : List UInt8) : (s.accept bs).bytes = s.bytes ++ bs := by
  simp [bytes, accept]

end Sink

end Beatnik
