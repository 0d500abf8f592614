import Beatnik.Action
import Beatnik.Value
import Std.Data.ExtTreeMap

/-!
# Scores that select actions

A table binds scores to actions.  A score selects at most one action, an action may be selected by
several scores; a score outside of the table selects nothing.
-/

namespace Beatnik

/-- The actions that scores select. -/
structure ActionScores where
  table : Std.ExtTreeMap Value Action := ∅

namespace ActionScores

/-- Binds a score to an action, in place of an earlier binding of the score. -/
def insert (s : ActionScores) (score : Value) (action : Action) : ActionScores :=
  ⟨s.table.insert score action⟩

/-- The table of a list of bindings; later ones replace earlier ones. -/
def ofList (entries : List (Value × Action)) : ActionScores :=
  entries.foldl (fun s e => s.insert e.1 e.2) {}

/-- The bindings, by score. -/
def entries (s : ActionScores) : List (Value × Action) := s.table.toList

def size (s : ActionScores) : Nat := s.table.size

/-- The action that a score selects. -/
def action? (s : ActionScores) (score : Value) : Option Action := s.table[score]?

/-- The scores among some bindings that select an action. -/
def selecting (bindings : List (Value × Action)) (action : Action) : List Value :=
  (bindings.filter (·.2 = action)).map (·.1)

/-- The scores among some bindings that select an action, in increasing order. -/
def scoresIn (bindings : List (Value × Action)) (action : Action) : List Value :=
  (selecting bindings action).mergeSort

/-- The lowest score among some bindings that selects an action. -/
def lowestIn? (bindings : List (Value × Action)) (action : Action) : Option Value :=
  (selecting bindings action).min?

/-- The scores that select an action, in increasing order. -/
def scoresOf (s : ActionScores) (action : Action) : List Value := scoresIn s.entries action

/-- The lowest score that selects an action. -/
def score? (s : ActionScores) (action : Action) : Option Value := lowestIn? s.entries action

/-- The scores from 5 on select the actions in order. -/
def standard : ActionScores :=
  ofList (Action.all.zipIdx.map fun (a, i) => (Int64.ofNat (i + 5), a))

end ActionScores

end Beatnik
