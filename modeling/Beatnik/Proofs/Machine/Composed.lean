import Beatnik.Machine.Run

/-!
# What actions are made of

Every action is a sequence of operations of the machine, results and failures (`Composed`), so what
holds of these and of sequences of them holds of every action.  Only `input` reads and only `output`
writes; all other actions are made of operations on the stack and the counter (`Internal`).

    a ≠ .input → a ≠ .output → Internal (perform a)                              (internal_perform)
    Composed (perform a)                                                         (composed_perform)
-/

namespace Beatnik.Machine

/-- A computation made of the operations that neither read nor write.  What comes later in a sequence may
depend on the results of what came before, but not on the machine itself. -/
inductive Internal : {α : Type} → Step α → Prop
  | pure {α : Type} (a : α) : Internal (Pure.pure a : Step α)
  | fail {α : Type} (fault : Fault) : Internal (fail fault : Step α)
  | bind {α β : Type} {x : Step α} {f : α → Step β} :
      Internal x → (∀ a, Internal (f a)) → Internal (x >>= f)
  | push (v : Value) : Internal (push v)
  | pop : Internal pop
  | peek : Internal peek
  | advance (offset : Value) : Internal (advance offset)
  | halt : Internal halt

/-- A computation made of the machine's operations. -/
inductive Composed : {α : Type} → Step α → Prop
  | pure {α : Type} (a : α) : Composed (Pure.pure a : Step α)
  | fail {α : Type} (fault : Fault) : Composed (fail fault : Step α)
  | bind {α β : Type} {x : Step α} {f : α → Step β} :
      Composed x → (∀ a, Composed (f a)) → Composed (x >>= f)
  | push (v : Value) : Composed (push v)
  | pop : Composed pop
  | peek : Composed peek
  | advance (offset : Value) : Composed (advance offset)
  | halt : Composed halt
  | readChar : Composed readChar
  | writeChar (c : Char) : Composed (writeChar c)

namespace Internal

theorem composed {α : Type} {x : Step α} (h : Internal x) : Composed x := by
  induction h with
  | pure a => exact .pure a
  | fail fault => exact .fail fault
  | bind _ _ ihx ihf => exact ihx.bind ihf
  | push v => exact .push v
  | pop => exact .pop
  | peek => exact .peek
  | advance offset => exact .advance offset
  | halt => exact .halt

theorem arithmetic (operation : Value → Value → Option Value) (fault : Value → Value → Fault) :
    Internal (Machine.arithmetic operation fault) := by
  refine pop.bind fun b => pop.bind fun a => ?_
  cases operation a b with
  | some v => exact .push v
  | none => exact .fail _

theorem branch (direction : Direction) (condition : Value → Bool) :
    Internal (Machine.branch direction condition) := by
  refine (advance 1).bind fun distance => pop.bind fun v => ?_
  split
  · cases direction.offset? distance with
    | some offset => exact (advance offset).bind fun _ => .pure ()
    | none => exact .fail _
  · exact .pure ()

end Internal

theorem internal_perform {a : Action} (hi : a ≠ .input) (ho : a ≠ .output) :
    Internal (perform a) := by
  cases a with
  | push => exact (Internal.advance 1).bind fun v => .push v
  | pop => exact Internal.pop.bind fun _ => .pure ()
  | add => exact .arithmetic _ _
  | input => exact absurd rfl hi
  | output => exact absurd rfl ho
  | subtract => exact .arithmetic _ _
  | swap =>
    exact Internal.pop.bind fun a => Internal.pop.bind fun b => (Internal.push a).bind fun _ => .push b
  | dup => exact Internal.peek.bind fun v => .push v
  | forwardIfZero => exact .branch .forward (· = 0)
  | forwardIfNonzero => exact .branch .forward (· ≠ 0)
  | backwardIfZero => exact .branch .backward (· = 0)
  | backwardIfNonzero => exact .branch .backward (· ≠ 0)
  | quit => exact .halt

theorem composed_perform (a : Action) : Composed (perform a) := by
  by_cases hi : a = .input
  · subst hi
    refine Composed.readChar.bind fun c => ?_
    cases c with
    | some c => exact .push _
    | none => exact .fail _
  · by_cases ho : a = .output
    · subst ho
      refine Composed.pop.bind fun v => ?_
      cases charOfValue? v with
      | some c => exact .writeChar c
      | none => exact .fail _
    · exact (internal_perform hi ho).composed

end Beatnik.Machine
