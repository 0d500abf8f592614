import Beatnik.Proofs.Machine.Course

/-!
# What actions do to the counter

Most actions leave the counter at their word, and do the same wherever that is (`Placeless`).  The others
have an operand, the word after their own: a push stays there, and so does a branch that is not taken,
while a taken branch goes on from there.

    a ≠ .push → a.branch? = none → Placeless (perform a)                         (Placeless.perform)
    perform .push m = .ok () m' → m'.index = m.index + 1                             (index_of_push)
    branch direction condition m = .ok () m' → …                                   (index_of_branch)

So a dispatch that goes on moves the counter on, unless it takes a branch backward, or one forward by a
negative distance (`index_lt_of_running`).
-/

namespace Beatnik

/-- The direction of a branch, and the condition under which it is taken. -/
def Action.branch? : Action → Option (Machine.Direction × (Value → Bool))
  | .forwardIfZero => some (.forward, (· = 0))
  | .forwardIfNonzero => some (.forward, (· ≠ 0))
  | .backwardIfZero => some (.backward, (· = 0))
  | .backwardIfNonzero => some (.backward, (· ≠ 0))
  | _ => none

namespace Machine

theorem perform_of_branch? {a : Action} {direction : Direction} {condition : Value → Bool}
    (h : a.branch? = some (direction, condition)) : perform a = branch direction condition := by
  cases a <;> cases h <;> rfl

/-! ## Actions that stay at their word -/

/-- A machine at a place in a program. -/
def placed (m : Machine) (words : Array Word) (index : Int) : Machine := { m with words, index }

/-- A result of a machine at a place in a program, where a failure is placed as well. -/
def placedOf {α : Type} (words : Array Word) (index : Int) :
    EStateM.Result Failure Machine α → EStateM.Result Failure Machine α
  | .ok a m => .ok a (m.placed words index)
  | .error failure m =>
    .error ⟨failure.fault, (m.placed words index).here⟩ (m.placed words index)

/-- A computation does the same at every place in every program, and stays there. -/
def Placeless {α : Type} (x : Step α) : Prop :=
  ∀ (m : Machine) (words : Array Word) (index : Int),
    x (m.placed words index) = placedOf words index (x m)

namespace Placeless

variable {α β : Type}

theorem pure (a : α) : Placeless (Pure.pure a : Step α) := fun _ _ _ => rfl

theorem fail (fault : Fault) : Placeless (Machine.fail fault : Step α) := fun _ _ _ => rfl

theorem bind {x : Step α} {f : α → Step β} (hx : Placeless x) (hf : ∀ a, Placeless (f a)) :
    Placeless (x >>= f) := by
  intro m words index
  have hplaced := hx m words index
  cases h : x m with
  | ok a m' =>
    rw [h] at hplaced
    rw [bind_ok h, bind_ok hplaced]
    exact hf a m' words index
  | error failure m' =>
    rw [h] at hplaced
    rw [bind_error h, bind_error hplaced]
    rfl

theorem push (v : Value) : Placeless (Machine.push v) := by
  intro m words index
  rw [Machine.push, Machine.push, show (m.placed words index).stack = m.stack from rfl]
  cases m.stack.push v <;> rfl

theorem pop : Placeless Machine.pop := by
  intro m words index
  rw [Machine.pop, Machine.pop, show (m.placed words index).stack = m.stack from rfl]
  cases m.stack.pop <;> rfl

theorem peek : Placeless Machine.peek := by
  intro m words index
  rw [Machine.peek, Machine.peek, show (m.placed words index).stack = m.stack from rfl]
  cases m.stack.peek <;> rfl

theorem readChar : Placeless Machine.readChar := by
  intro m words index
  rw [Machine.readChar, Machine.readChar, show (m.placed words index).source = m.source from rfl]
  cases Source.readChar m.source <;> rfl

theorem writeChar (c : Char) : Placeless (Machine.writeChar c) := by
  intro m words index
  rw [Machine.writeChar, Machine.writeChar, show (m.placed words index).sink = m.sink from rfl]
  rcases m.sink.write (Text.Utf8.encode c) with ⟨_ | reason, sink⟩ <;> rfl

theorem arithmetic (operation : Value → Value → Option Value) (fault : Value → Value → Fault) :
    Placeless (Machine.arithmetic operation fault) := by
  refine pop.bind fun b => pop.bind fun a => ?_
  cases operation a b with
  | some v => exact push v
  | none => exact fail _

/-- Only pushes and branches depend on the place of their word. -/
theorem perform {a : Action} (hpush : a ≠ .push) (hbranch : a.branch? = none) :
    Placeless (Machine.perform a) := by
  cases a with
  | push => exact absurd rfl hpush
  | pop => exact pop.bind fun _ => pure ()
  | add => exact arithmetic _ _
  | input =>
    refine readChar.bind fun c => ?_
    cases c with
    | some c => exact push _
    | none => exact fail _
  | output =>
    refine pop.bind fun v => ?_
    cases charOfValue? v with
    | some c => exact writeChar c
    | none => exact fail _
  | subtract => exact arithmetic _ _
  | swap => exact pop.bind fun a => pop.bind fun b => (push a).bind fun _ => push b
  | dup => exact peek.bind push
  | forwardIfZero => cases hbranch
  | forwardIfNonzero => cases hbranch
  | backwardIfZero => cases hbranch
  | backwardIfNonzero => cases hbranch
  | quit => exact fun _ _ _ => rfl

theorem left_index {x : Step α} (h : Placeless x) (m : Machine) : (left x m).index = m.index := by
  have hself : x m = placedOf m.words m.index (x m) := h m m.words m.index
  rw [left, hself]
  cases x m <;> rfl

end Placeless

/-! ## Actions with an operand -/

variable {m m' : Machine}

theorem advance_ok {offset score : Value} (h : advance offset m = .ok score m') :
    m' = { m with index := m.index + offset.toInt } ∧ score = m'.currentScore := by
  rw [advance] at h
  split at h
  · cases h
    exact ⟨rfl, rfl⟩
  · cases h

theorem nextScore_ok {score : Value} (h : nextScore m = .ok score m') :
    m' = m.fetched ∧ score = m.fetched.currentScore := by
  obtain ⟨rfl, rfl⟩ := advance_ok h
  rw [Int64.toInt_one]
  exact ⟨rfl, rfl⟩

theorem pop_eq_ok {v : Value} (h : pop m = .ok v m') :
    m' = { m with stack := m'.stack } ∧ m.stack.pop = .ok (v, m'.stack) := by
  rw [pop] at h
  cases hp : m.stack.pop with
  | ok r =>
    rw [hp] at h
    cases h
    exact ⟨rfl, rfl⟩
  | error fault =>
    rw [hp] at h
    cases h

theorem index_of_push (h : perform .push m = .ok () m') : m'.index = m.index + 1 := by
  obtain ⟨score, u, hu, hpush⟩ := exists_of_bind_ok h
  obtain ⟨rfl, -⟩ := nextScore_ok hu
  have hindex := (Placeless.push score).left_index m.fetched
  rwa [left, hpush] at hindex

/-- A branch fetches its operand, and goes on from there if it is taken. -/
theorem index_of_branch {direction : Direction} {condition : Value → Bool}
    (h : branch direction condition m = .ok () m') :
    ∃ v rest, m.stack.items = v :: rest ∧
      ((condition v = false ∧ m'.index = m.index + 1) ∨
        (condition v = true ∧ ∃ offset, direction.offset? m.fetched.currentScore = some offset ∧
          m'.index = m.index + 1 + offset.toInt)) := by
  obtain ⟨distance, u, hu, h⟩ := exists_of_bind_ok h
  obtain ⟨rfl, rfl⟩ := nextScore_ok hu
  obtain ⟨v, u, hpop, h⟩ := exists_of_bind_ok h
  obtain ⟨hleft, hstack⟩ := pop_eq_ok hpop
  have hindex : u.index = m.index + 1 := by rw [hleft]; rfl
  refine ⟨v, _, (ValueStack.pop_ok hstack).1, ?_⟩
  cases hc : condition v with
  | false =>
    rw [hc] at h
    cases h
    exact .inl ⟨rfl, hindex⟩
  | true =>
    rw [hc] at h
    cases ho : direction.offset? m.fetched.currentScore with
    | none =>
      rw [ho] at h
      cases h
    | some offset =>
      rw [ho] at h
      obtain ⟨score, w, hw, h⟩ := exists_of_bind_ok h
      obtain ⟨rfl, -⟩ := advance_ok hw
      cases h
      refine .inr ⟨rfl, offset, rfl, ?_⟩
      rw [← hindex]

/-! ## Dispatches -/

/-- The next word takes a branch: it selects one, and the value on top of the stack meets its
condition. -/
def Branches (m : Machine) (direction : Direction) : Prop :=
  ∃ a condition v rest, m.upcoming? = some a ∧ a.branch? = some (direction, condition) ∧
    m.stack.items = v :: rest ∧ condition v = true

/-- A dispatch that goes on moves the counter on, unless it takes a branch backward, or one forward by a
negative distance. -/
theorem index_lt_of_running (h : WellFormed m) (hr : dispatch m = .ok .running m')
    (hback : ¬ m.Branches .backward) :
    m.index < m'.index ∨ (m.Branches .forward ∧ m.fetched.fetched.currentScore < 0) := by
  have hfetched : m.fetched.index = m.index + 1 := rfl
  have hcases := dispatched h
  generalize hd : dispatch m = r at hcases
  rw [hr] at hd
  cases hcases with
  | last _ => cases hd
  | inert _ _ =>
    cases hd
    exact .inl (by omega)
  | failed a failure v _ _ => cases hd
  | done a v hselected hp =>
    obtain rfl : m' = v := by
      cases hv : v.halted <;> simp [hv] at hd
      exact hd
    by_cases hpush : a = .push
    · subst hpush
      have hindex := index_of_push hp
      exact .inl (by omega)
    · cases hbranch : a.branch? with
      | none =>
        have hindex := (Placeless.perform hpush hbranch).left_index m.fetched
        rw [left, hp] at hindex
        simp only [machineOf] at hindex
        exact .inl (by omega)
      | some b =>
        obtain ⟨direction, condition⟩ := b
        rw [perform_of_branch? hbranch] at hp
        obtain ⟨v, rest, hitems, hmoved⟩ := index_of_branch hp
        rcases hmoved with ⟨-, hindex⟩ | ⟨htaken, offset, hoffset, hindex⟩
        · exact .inl (by omega)
        · have htakes : m.Branches direction :=
            ⟨a, condition, v, rest, hselected, hbranch, hitems, htaken⟩
          cases direction with
          | backward => exact absurd htakes hback
          | forward =>
            cases hoffset
            by_cases hneg : m.fetched.fetched.currentScore < 0
            · exact .inr ⟨htakes, hneg⟩
            · rw [Int64.lt_iff_toInt_lt, Int64.toInt_zero] at hneg
              exact .inl (by omega)

end Machine

end Beatnik
