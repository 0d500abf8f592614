import Beatnik.Machine.Run

/-!
# The ideal machine

The machine as it is specified: a list of word scores, a counter, a stack of integers without bounds, a
limit on its depth, and the source and sink of characters.  Each action is given by what it does to a
state as a whole (`Ideal.act`), each fault by its kind and the state it leaves.  A taken branch from the
word `i` by `n` leads to `i + 1 + n` or to `i - n` (`Ideal.target`).  A distance is negative only if the
points of its word add up to more than the largest value; by any other distance a branch leaves the
program forward only at its end and backward only before its start (`Ideal.land_eq_jump`).
-/

namespace Beatnik

structure Ideal where
  /-- the scores of the program's words -/
  scores : List Int
  /-- the index of the word last fetched, -1 before the first one -/
  counter : Int
  /-- the values, top first -/
  stack : List Int
  /-- the largest depth allowed -/
  limit : Option Nat
  source : Source
  sink : Sink
  /-- whether the program was asked to stop -/
  halted : Bool
deriving DecidableEq

namespace Ideal

open Machine (Direction Progress)

/-- A state without a limit, with nothing to read and nothing written. -/
def plain (scores : List Int) (counter : Int) (stack : List Int) : Ideal where
  scores := scores
  counter := counter
  stack := stack
  limit := none
  source := []
  sink := {}
  halted := false

/-- A result or the kind of a fault, and the state that is left. -/
abbrev Effect (α : Type) := Except FaultKind α × Ideal

def score? (s : Ideal) (i : Int) : Option Int := if 0 ≤ i then s.scores[i.toNat]? else none

def isFull (s : Ideal) : Bool := s.limit.any (· ≤ s.stack.length)

/-- Whether an integer is a value. -/
def inRange (n : Int) : Bool := Value.least ≤ n && n ≤ Value.greatest

/-! ## Actions -/

/-- Puts a value on the stack, if there is room. -/
def put (n : Int) (s : Ideal) : Effect Unit :=
  if s.isFull then (.error .stackOverflow, s) else (.ok (), { s with stack := n :: s.stack })

/-- Replaces the two topmost values by the result of an operation, the topmost value being the second
operand.  Values taken off for a result that is no value are gone. -/
def arithmetic (operation : Int → Int → Int) (s : Ideal) : Effect Unit :=
  match s.stack with
  | b :: a :: rest =>
    if inRange (operation a b) then (.ok (), { s with stack := operation a b :: rest })
    else (.error .arithmeticOverflow, { s with stack := rest })
  | _ => (.error .stackUnderflow, { s with stack := [] })

/-- The character with a code, which is any code point that is no surrogate. -/
def char? (n : Int) : Option Char :=
  if (0 ≤ n ∧ n < 0xD800) ∨ (0xDFFF < n ∧ n < 0x110000) then some (Char.ofNat n.toNat) else none

/-- Where a taken branch from the word `i` by a distance leads. -/
def target : Direction → Int → Int → Int
  | .forward, i, n => i + 1 + n
  | .backward, i, n => i - n

/-- Leads a taken branch from the word `i` to its target, which has to be in the program or before its
first word.  The opposite of the smallest value is no value, so no branch goes back by it. -/
def land (direction : Direction) (i n : Int) (s : Ideal) : Effect Unit :=
  if direction = .backward ∧ n = Value.least then (.error .arithmeticOverflow, s)
  else if -1 ≤ target direction i n ∧ target direction i n < s.scores.length then
    (.ok (), { s with counter := target direction i n })
  else (.error .counterOutOfBounds, s)

/-- Fetches the distance, takes the condition off the stack, and then branches or goes on after the
distance. -/
def branch (direction : Direction) (taken : Int → Bool) (s : Ideal) : Effect Unit :=
  match s.score? (s.counter + 1) with
  | none => (.error .counterOutOfBounds, s)
  | some n =>
    match s.stack with
    | [] => (.error .stackUnderflow, { s with counter := s.counter + 1 })
    | v :: rest =>
      if taken v then land direction s.counter n { s with counter := s.counter + 1, stack := rest }
      else (.ok (), { s with counter := s.counter + 1, stack := rest })

/-- What an action does, its word being the one last fetched. -/
def act (s : Ideal) : Action → Effect Unit
  | .push =>
    match s.score? (s.counter + 1) with
    | none => (.error .counterOutOfBounds, s)
    | some n => put n { s with counter := s.counter + 1 }
  | .pop =>
    match s.stack with
    | [] => (.error .stackUnderflow, s)
    | _ :: rest => (.ok (), { s with stack := rest })
  | .add => s.arithmetic (· + ·)
  | .input =>
    match Source.readChar s.source with
    | .ok (some c) source => put c.toNat { s with source }
    | .ok none source => (.error .endOfInput, { s with source })
    | .error fault source => (.error fault.kind, { s with source })
  | .output =>
    match s.stack with
    | [] => (.error .stackUnderflow, s)
    | v :: rest =>
      match char? v with
      | none => (.error .invalidCharacter, { s with stack := rest })
      | some c =>
        match s.sink.write (Text.Utf8.encode c) with
        | (none, sink) => (.ok (), { s with stack := rest, sink })
        | (some _, sink) => (.error .transfer, { s with stack := rest, sink })
  | .subtract => s.arithmetic (· - ·)
  | .swap =>
    match s.stack with
    | a :: b :: rest => (.ok (), { s with stack := b :: a :: rest })
    | _ => (.error .stackUnderflow, { s with stack := [] })
  | .dup =>
    match s.stack with
    | [] => (.error .stackUnderflow, s)
    | v :: _ => put v s
  | .forwardIfZero => s.branch .forward (· = 0)
  | .forwardIfNonzero => s.branch .forward (· ≠ 0)
  | .backwardIfZero => s.branch .backward (· = 0)
  | .backwardIfNonzero => s.branch .backward (· ≠ 0)
  | .quit => (.ok (), { s with halted := true })

/-! ## Steps -/

/-- One step: at the last word, or without words, the machine stops.  Otherwise it fetches the next word
and carries out the action that its score selects, if any.  It stops after `quit`, and after any action
if it was asked to stop before. -/
def step (select : Int → Option Action) (s : Ideal) : Effect Progress :=
  if s.counter = s.scores.length - 1 then (.ok .stopped, s)
  else
    match (s.score? (s.counter + 1)).bind select with
    | none => (.ok .running, { s with counter := s.counter + 1 })
    | some a =>
      match act { s with counter := s.counter + 1 } a with
      | (.ok (), s') => (.ok (if a = .quit ∨ s.halted then .stopped else .running), s')
      | (.error kind, s') => (.error kind, s')

/-- Steps until the machine stops or fails, but at most `fuel` of them. -/
def run (select : Int → Option Action) : Nat → Ideal → Option (Effect Unit)
  | 0, _ => none
  | fuel + 1, s =>
    match step select s with
    | (.ok .running, s') => run select fuel s'
    | (.ok .stopped, s') => some (.ok (), s')
    | (.error kind, s') => some (.error kind, s')

/-- A machine that keeps running from state to state of some kind does not come to an end. -/
theorem run_eq_none {select : Int → Option Action} {P : Ideal → Prop}
    (hstep : ∀ s, P s → ∃ s', step select s = (.ok .running, s') ∧ P s') (fuel : Nat) {s : Ideal}
    (hs : P s) : run select fuel s = none := by
  induction fuel generalizing s with
  | zero => rfl
  | succ fuel ih =>
    obtain ⟨s', hrunning, hs'⟩ := hstep s hs
    rw [run, hrunning]
    exact ih hs'

/-! ## The halt mark -/

theorem put_halted (n : Int) (s : Ideal) : (put n s).2.halted = s.halted := by
  rw [put]
  split <;> rfl

theorem arithmetic_halted (operation : Int → Int → Int) (s : Ideal) :
    (s.arithmetic operation).2.halted = s.halted := by
  rw [arithmetic]
  split
  · split <;> rfl
  · rfl

theorem land_halted (direction : Direction) (i n : Int) (s : Ideal) :
    (land direction i n s).2.halted = s.halted := by
  rw [land]
  split
  · rfl
  · split <;> rfl

theorem branch_halted (direction : Direction) (taken : Int → Bool) (s : Ideal) :
    (s.branch direction taken).2.halted = s.halted := by
  rw [branch]
  split
  · rfl
  · split
    · rfl
    · split
      · exact land_halted _ _ _ _
      · rfl

/-- Only `quit` asks to stop, and no action takes that back. -/
theorem act_halted (s : Ideal) (a : Action) :
    (s.act a).2.halted = true ↔ a = .quit ∨ s.halted = true := by
  cases a with
  | quit => simp [act]
  | push =>
    rw [act]
    split
    · simp
    · simp [put_halted]
  | pop => rw [act]; split <;> simp
  | add => simp [act, arithmetic_halted]
  | input =>
    rw [act]
    split
    · simp [put_halted]
    · simp
    · simp
  | output =>
    rw [act]
    split
    · simp
    · split
      · simp
      · split <;> simp
  | subtract => simp [act, arithmetic_halted]
  | swap => rw [act]; split <;> simp
  | dup =>
    rw [act]
    split
    · simp
    · simp [put_halted]
  | forwardIfZero => simp [act, branch_halted]
  | forwardIfNonzero => simp [act, branch_halted]
  | backwardIfZero => simp [act, branch_halted]
  | backwardIfNonzero => simp [act, branch_halted]

/-! ## Failing actions -/

/-- What a failing action leaves: it has fetched its operand or not, and if the stack was full, then it
was to put one value more on it and has taken none off. -/
structure Failed (a : Action) (kind : FaultKind) (s s' : Ideal) : Prop where
  counter : s'.counter = s.counter ∨ s'.counter = s.counter + 1
  overflow : kind = .stackOverflow → (a = .push ∨ a = .input ∨ a = .dup) ∧ s'.stack = s.stack

theorem put_error {n : Int} {s s' : Ideal} {kind : FaultKind} (h : put n s = (.error kind, s')) :
    s' = s := by
  rw [put] at h
  split at h
  · cases h
    rfl
  · cases h

theorem arithmetic_error {operation : Int → Int → Int} {a : Action} {kind : FaultKind}
    {s s' : Ideal} (h : s.arithmetic operation = (.error kind, s')) : Failed a kind s s' := by
  rw [arithmetic] at h
  split at h
  · split at h
    · cases h
    · cases h
      exact ⟨.inl rfl, nofun⟩
  · cases h
    exact ⟨.inl rfl, nofun⟩

theorem land_error {direction : Direction} {i n : Int} {kind : FaultKind} {s s' : Ideal}
    (h : land direction i n s = (.error kind, s')) : s' = s ∧ kind ≠ .stackOverflow := by
  rw [land] at h
  split at h
  · cases h
    exact ⟨rfl, nofun⟩
  · split at h
    · cases h
    · cases h
      exact ⟨rfl, nofun⟩

theorem branch_error {direction : Direction} {taken : Int → Bool} {a : Action} {kind : FaultKind}
    {s s' : Ideal} (h : s.branch direction taken = (.error kind, s')) : Failed a kind s s' := by
  rw [branch] at h
  split at h
  · cases h
    exact ⟨.inl rfl, nofun⟩
  · split at h
    · cases h
      exact ⟨.inr rfl, nofun⟩
    · split at h
      · obtain ⟨rfl, hkind⟩ := land_error h
        exact ⟨.inr rfl, fun hk => absurd hk hkind⟩
      · cases h

theorem act_error {s s' : Ideal} {a : Action} {kind : FaultKind} (h : s.act a = (.error kind, s')) :
    Failed a kind s s' := by
  cases a with
  | push =>
    rw [act] at h
    split at h
    · cases h
      exact ⟨.inl rfl, nofun⟩
    · obtain rfl := put_error h
      exact ⟨.inr rfl, fun _ => ⟨.inl rfl, rfl⟩⟩
  | pop =>
    rw [act] at h
    split at h
    · cases h
      exact ⟨.inl rfl, nofun⟩
    · cases h
  | add => exact arithmetic_error h
  | input =>
    rw [act] at h
    split at h
    · obtain rfl := put_error h
      exact ⟨.inl rfl, fun _ => ⟨.inr (.inl rfl), rfl⟩⟩
    · cases h
      exact ⟨.inl rfl, nofun⟩
    · cases h
      exact ⟨.inl rfl, fun _ => ⟨.inr (.inl rfl), rfl⟩⟩
  | output =>
    rw [act] at h
    split at h
    · cases h
      exact ⟨.inl rfl, nofun⟩
    · split at h
      · cases h
        exact ⟨.inl rfl, nofun⟩
      · split at h
        · cases h
        · cases h
          exact ⟨.inl rfl, nofun⟩
  | subtract => exact arithmetic_error h
  | swap =>
    rw [act] at h
    split at h
    · cases h
    · cases h
      exact ⟨.inl rfl, nofun⟩
  | dup =>
    rw [act] at h
    split at h
    · cases h
      exact ⟨.inl rfl, nofun⟩
    · obtain rfl := put_error h
      exact ⟨.inl rfl, fun _ => ⟨.inr (.inr rfl), rfl⟩⟩
  | forwardIfZero => exact branch_error h
  | forwardIfNonzero => exact branch_error h
  | backwardIfZero => exact branch_error h
  | backwardIfNonzero => exact branch_error h
  | quit => cases h

/-! ## Landings -/

/-- Leads a taken branch to its target, which has to be before the end of the program if the branch goes
forward, and at most one word before its start if it goes backward. -/
def jump : Direction → Int → Int → Ideal → Effect Unit
  | .forward, i, n, s =>
    if s.scores.length ≤ i + 1 + n then (.error .counterOutOfBounds, s)
    else (.ok (), { s with counter := i + 1 + n })
  | .backward, i, n, s =>
    if i - n < -1 then (.error .counterOutOfBounds, s) else (.ok (), { s with counter := i - n })

theorem land_eq_jump (direction : Direction) {s : Ideal} {i n : Int} (hi : 0 ≤ i)
    (hlt : i < s.scores.length) (hn : 0 ≤ n) : land direction i n s = jump direction i n s := by
  have hne : n ≠ Value.least := by
    unfold Value.least
    omega
  rw [land, if_neg (fun h => hne h.2)]
  cases direction with
  | forward =>
    rw [target, jump]
    by_cases h : s.scores.length ≤ i + 1 + n
    · rw [if_pos h, if_neg (by omega)]
    · rw [if_neg h, if_pos (by omega)]
  | backward =>
    rw [target, jump]
    by_cases h : i - n < -1
    · rw [if_pos h, if_neg (by omega)]
    · rw [if_neg h, if_pos (by omega)]

end Ideal

end Beatnik
