import Beatnik.Text.Blank
import Beatnik.Text.LowerCase
import Std.Data.ExtTreeMap

/-!
# Actions

The thirteen things that a word can make the machine do, in their fixed order, and their names.  A name
is recognised in any letter case and between blanks (`Action.ofText?`).
-/

namespace Beatnik

/-- What a word makes the machine do. -/
inductive Action where
  | push
  | pop
  | add
  | input
  | output
  | subtract
  | swap
  | dup
  | forwardIfZero
  | forwardIfNonzero
  | backwardIfZero
  | backwardIfNonzero
  | quit
deriving DecidableEq, Repr, Inhabited

namespace Action

/-- All actions, in order. -/
def all : List Action :=
  [push, pop, add, input, output, subtract, swap, dup, forwardIfZero, forwardIfNonzero,
    backwardIfZero, backwardIfNonzero, quit]

def name : Action → String
  | push => "push"
  | pop => "pop"
  | add => "add"
  | input => "input"
  | output => "output"
  | subtract => "subtract"
  | swap => "swap"
  | dup => "dup"
  | forwardIfZero => "fz"
  | forwardIfNonzero => "fnz"
  | backwardIfZero => "bz"
  | backwardIfNonzero => "bnz"
  | quit => "quit"

/-- The action that a text names. -/
def ofText? (cs : List Char) : Option Action :=
  let lowered := Text.lowerText (Text.trim cs)
  all.find? fun a => a.name.toList == lowered

def rank (a : Action) : Nat := all.idxOf a

/-- Actions are ordered as they are listed. -/
instance : Ord Action where
  compare := compareOn rank

theorem all_rank (a : Action) : all[a.rank]? = some a := by
  cases a <;> rfl

theorem mem_all (a : Action) : a ∈ all := List.mem_of_getElem? (all_rank a)

theorem rank_injective {a b : Action} (h : a.rank = b.rank) : a = b := by
  have := all_rank a
  rw [h, all_rank b] at this
  exact (Option.some.inj this).symm

instance : Std.TransOrd Action := inferInstanceAs (Std.TransCmp (compareOn rank))

instance : Std.LawfulEqOrd Action where
  eq_of_compare h := rank_injective (Nat.compare_eq_eq.mp h)

end Action

end Beatnik
