import Beatnik.Dictionary
import Mathlib

/-!
# Dictionaries with an entry for each action

A dictionary that has an entry for each action (`Holds`) has just these thirteen entries, listed in the
order of actions:

    d.Holds entry → (∀ a, (entry a).action = a) → d.entries = Action.all.map entry   (Holds.entries_eq)

The dictionary of the built-in actions is of this kind, and giving an action the behaviour of another
one leads to such a dictionary again (`Holds.rebind`).
-/

namespace Beatnik.Dictionary

/-- A dictionary has the given entry for each action. -/
def Holds (d : Dictionary) (entry : Action → Entry) : Prop := ∀ a, d.find? a = some (entry a)

theorem find?_insert (d : Dictionary) (e : Entry) (a : Action) :
    (d.insert e).find? a = if e.action = a then some e else d.find? a := by
  rw [find?, insert, Std.ExtTreeMap.getElem?_insert]
  simp only [Std.LawfulEqCmp.compare_eq_iff_eq]
  rfl

theorem holds_builtIn : builtIn.Holds fun a => ⟨a, a, describe a, signatureOf a⟩ := by
  intro a
  cases a <;> decide +kernel

section

variable {d : Dictionary} {entry : Action → Entry} (h : d.Holds entry)

include h

/-- The action gets the behaviour that the source has now, with texts of its own; nothing else
changes. -/
theorem Holds.rebind (action source : Action) (description signature : String) :
    (d.rebind action source description signature).Holds
      (Function.update entry action ⟨action, (entry source).behaviour, description, signature⟩) := by
  intro a
  rw [Dictionary.rebind, h source]
  dsimp only
  rw [find?_insert, Function.update_apply]
  by_cases ha : action = a
  · rw [if_pos ha, if_pos ha.symm]
  · rw [if_neg ha, if_neg (Ne.symm ha)]
    exact h a

/-- The table holds these entries and no others. -/
theorem Holds.toList_table : d.table.toList = Action.all.map fun a => (a, entry a) := by
  have hordered : Action.all.Pairwise fun a b => compare a b = .lt := by decide
  have hsorted : (Action.all.map fun a => (a, entry a)).Pairwise fun p q => compare p.1 q.1 = .lt :=
    List.pairwise_map.2 hordered
  have hnodup : ∀ {es : List (Action × Entry)}, es.Pairwise (fun p q => compare p.1 q.1 = .lt) →
      es.Nodup := by
    intro es hes
    refine hes.imp fun hlt heq => ?_
    rw [heq, Std.ReflOrd.compare_self] at hlt
    cases hlt
  refine List.Perm.eq_of_pairwise (fun p q _ _ hpq hqp => ?_) Std.ExtTreeMap.ordered_keys_toList
    hsorted ?_
  · rw [Std.OrientedOrd.eq_swap, hqp] at hpq
    cases hpq
  · refine (List.perm_ext_iff_of_nodup (hnodup Std.ExtTreeMap.ordered_keys_toList)
      (hnodup hsorted)).2 fun ⟨a, e⟩ => ?_
    rw [Std.ExtTreeMap.mem_toList_iff_getElem?_eq_some, show d.table[a]? = some (entry a) from h a]
    simp [Action.mem_all, eq_comm]

/-- Entries that name their own actions are listed in the order of actions. -/
theorem Holds.entries_eq (haction : ∀ a, (entry a).action = a) : d.entries = Action.all.map entry := by
  have hordered : Action.all.Pairwise fun a b => a.rank ≤ b.rank := by decide
  rw [entries, h.toList_table, List.map_map]
  refine List.mergeSort_of_pairwise (List.pairwise_map.2 (hordered.imp fun hab => ?_))
  simpa [haction] using hab

theorem Holds.size_eq : d.size = 13 := by
  rw [size, ← Std.ExtTreeMap.length_toList, h.toList_table, List.length_map]
  rfl

end

end Beatnik.Dictionary
