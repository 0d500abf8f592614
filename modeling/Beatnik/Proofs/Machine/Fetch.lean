import Beatnik.Proofs.Machine.Invariants
import Beatnik.Proofs.Reading

/-!
# Fetching words

What a fetch, a dispatch and an action come to, in terms of the word after the counter.  `i` is the
natural number after the counter, so that `m.words[i]?` is the word to be fetched, if there is one.
-/

namespace Beatnik.Machine

theorem get_eq (m : Machine) : (get : Step Machine) m = .ok m m := rfl

/-! ## Moves and dispatches -/

variable {m : Machine} {i : Nat} {w : Word}

theorem advance_of_getElem? {offset : Value} (hi : m.index + offset.toInt = i)
    (hw : m.words[i]? = some w) :
    advance offset m = .ok (m.letters.score w.text) { m with index := i } := by
  have hlt := (Array.getElem?_eq_some_iff.1 hw).1
  rw [advance, hi, if_pos ⟨by omega, by omega⟩]
  simp only [currentScore, current?]
  rw [show ((i : Nat) : Int) = .ofNat i from rfl]
  simp only [hw]

theorem advance_in {offset : Value}
    (h : -1 ≤ m.index + offset.toInt ∧ m.index + offset.toInt < m.words.size) :
    ∃ score, advance offset m = .ok score { m with index := m.index + offset.toInt } := by
  rw [advance, if_pos h]
  exact ⟨_, rfl⟩

theorem advance_out {offset : Value} (h : ¬ (-1 ≤ m.index + offset.toInt ∧
    m.index + offset.toInt < m.words.size)) :
    advance offset m = fail (.counterOutOfBounds offset m.index m.words.size) m := by
  rw [advance, if_neg h]

theorem nextScore_some (hi : m.index + 1 = i) (hw : m.words[i]? = some w) :
    nextScore m = .ok (m.letters.score w.text) { m with index := i } :=
  advance_of_getElem? (by simpa using hi) hw

theorem nextScore_none (hi : m.index + 1 = i) (hw : m.words[i]? = none) :
    nextScore m = fail (.counterOutOfBounds 1 m.index m.words.size) m := by
  rw [Array.getElem?_eq_none_iff] at hw
  refine advance_out fun h => ?_
  rw [Int64.toInt_one] at h
  omega

/-- With a word to fetch, a dispatch carries out the action that the word's score selects. -/
theorem dispatch_some (hi : m.index + 1 = i) (hw : m.words[i]? = some w) :
    dispatch m = match m.actions.action? (m.letters.score w.text) with
      | none => .ok .running { m with index := i }
      | some a => execute a { m with index := i } := by
  have hlt := (Array.getElem?_eq_some_iff.1 hw).1
  show (if m.index = m.words.size - 1 then (pure .stopped : Step Progress) else _) m = _
  rw [if_neg (by omega), bind_ok (nextScore_some hi hw)]
  cases m.actions.action? (m.letters.score w.text) <;> rfl

/-- At the last word, or without words, a dispatch stops and changes nothing. -/
theorem dispatch_none (h : m.index = m.words.size - 1) : dispatch m = .ok .stopped m := by
  show (if m.index = m.words.size - 1 then (pure .stopped : Step Progress) else _) m = _
  rw [if_pos h]
  rfl

section

variable {a : Action} {e : Dictionary.Entry} {m' : Machine}

/-- An action carries out the behaviour that its entry names, and stops if the machine was asked to. -/
theorem execute_ok {u : Unit} (h : m.dictionary.find? a = some e)
    (hp : perform e.behaviour m = .ok u m') :
    execute a m = .ok (if m'.halted then .stopped else .running) m' := by
  rw [execute, bind_ok (get_eq m), h]
  exact bind_ok hp

theorem execute_error {failure : Failure} (h : m.dictionary.find? a = some e)
    (hp : perform e.behaviour m = .error failure m') : execute a m = .error failure m' := by
  rw [execute, bind_ok (get_eq m), h]
  exact bind_error hp

end

end Beatnik.Machine
