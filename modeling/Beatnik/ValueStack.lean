import Beatnik.Fault

/-!
# The stack of values

A stack of values with an optional limit on its depth.  It remembers the depth it has reached since it
was last cleared (`deepest`).  A push beyond the limit and a pop of an empty stack fail and change
nothing.
-/

namespace Beatnik

@[ext]
structure ValueStack where
  /-- the values, top first -/
  items : List Value := []
  /-- how many values there are -/
  depth : Nat := 0
  /-- the largest depth since the stack was cleared -/
  deepest : Nat := 0
  /-- the largest depth allowed -/
  limit : Option Nat := none
  depth_eq : depth = items.length := by rfl
deriving DecidableEq

namespace ValueStack

def withLimit (limit : Option Nat) : ValueStack := { limit }

/-- The values, bottom first. -/
def toList (s : ValueStack) : List Value := s.items.reverse

def push (s : ValueStack) (v : Value) : Except Fault ValueStack :=
  match s.limit.filter (· ≤ s.depth) with
  | some limit => .error (.stackOverflow limit)
  | none => .ok {
      items := v :: s.items
      depth := s.depth + 1
      deepest := max s.deepest (s.depth + 1)
      limit := s.limit
      depth_eq := by simp [s.depth_eq] }

def pop (s : ValueStack) : Except Fault (Value × ValueStack) :=
  match h : s.items with
  | [] => .error .stackUnderflow
  | v :: rest => .ok (v, {
      items := rest
      depth := s.depth - 1
      deepest := s.deepest
      limit := s.limit
      depth_eq := by simp [s.depth_eq, h] })

/-- The top value, which stays. -/
def peek (s : ValueStack) : Except Fault Value :=
  match s.items with
  | [] => .error .stackUnderflow
  | v :: _ => .ok v

/-- Drops all values and forgets the largest depth. -/
def clear (s : ValueStack) : ValueStack := withLimit s.limit

/-- The values in brackets, bottom first. -/
def render (s : ValueStack) : String :=
  "[" ++ ", ".intercalate (s.toList.map Value.render) ++ "]"

/-! ## Lemmas -/

@[simp] theorem length_toList (s : ValueStack) : s.toList.length = s.depth := by
  rw [toList, List.length_reverse, s.depth_eq]

theorem toList_of_push {s t : ValueStack} {v : Value} (h : s.push v = .ok t) :
    t.toList = s.toList ++ [v] := by
  unfold push at h
  split at h
  · cases h
  · cases h
    simp [toList]

theorem toList_of_pop {s t : ValueStack} {v : Value} (h : s.pop = .ok (v, t)) :
    s.toList = t.toList ++ [v] := by
  unfold pop at h
  split at h
  · cases h
  · next hs =>
    cases h
    simp [toList, hs]

end ValueStack

end Beatnik
