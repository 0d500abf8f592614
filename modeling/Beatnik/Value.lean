/-!
# Values

The numbers of a program are signed integers of 64 bits.  Arithmetic does not wrap: a result outside of
the range is no value (`Value.ofInt?`).
-/

namespace Beatnik

/-- The numbers of a program: scores, stack contents and branch distances. -/
abbrev Value := Int64

namespace Value

def least : Int := -9223372036854775808

def greatest : Int := 9223372036854775807

/-- The value equal to an integer, if the integer is in range. -/
def ofInt? (n : Int) : Option Value :=
  if least ≤ n ∧ n ≤ greatest then some (Int64.ofInt n) else none

/-- The value nearest to an integer. -/
def nearest (n : Int) : Value := Int64.ofInt (max least (min n greatest))

def add? (a b : Value) : Option Value := ofInt? (a.toInt + b.toInt)

def sub? (a b : Value) : Option Value := ofInt? (a.toInt - b.toInt)

def render (v : Value) : String := toString v.toInt

/-! ## Lemmas -/

theorem ofInt?_toInt (v : Value) : ofInt? v.toInt = some v := by
  have hle := v.le_toInt
  have hlt := v.toInt_lt
  rw [ofInt?, if_pos (by unfold least greatest; omega), Int64.ofInt_toInt]

theorem toInt_of_ofInt? {n : Int} {v : Value} (h : ofInt? n = some v) : v.toInt = n := by
  unfold ofInt? at h
  split at h
  · next hn =>
    cases h
    unfold least greatest at hn
    exact Int64.toInt_ofInt_of_le (by omega) (by omega)
  · cases h

end Value

end Beatnik
