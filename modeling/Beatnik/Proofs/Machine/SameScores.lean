import Beatnik.Proofs.LetterCase
import Beatnik.Proofs.Machine.Lockstep

/-!
# Programs of the same scores

A machine looks at its words only to score them and to place its failures.  So two machines in the same
state whose words have the same scores (`Alike`) run in lockstep, and a failure of both has the same
fault, at the words of the same index:

    Lockstep Alike fun _ _ _ => False                                                (lockstep_alike)
    runs of texts with the same scores go alike                                   (runs_of_same_scores)

In particular every failure of a dispatch is placed at the word last fetched (`location_of_dispatch`).
-/

namespace Beatnik.Machine

def scores (m : Machine) : List Value := m.words.toList.map fun w => m.letters.score w.text

/-- Two machines in the same state, but for the texts and places of their words and the points of
characters; their words have the same scores. -/
structure Alike (m n : Machine) : Prop where
  scores : m.scores = n.scores
  actions : m.actions = n.actions
  dictionary : m.dictionary = n.dictionary
  stack : m.stack = n.stack
  source : m.source = n.source
  sink : m.sink = n.sink
  index : m.index = n.index
  halted : m.halted = n.halted

namespace Alike

variable {m n : Machine}

theorem refl (m : Machine) : Alike m m := ⟨rfl, rfl, rfl, rfl, rfl, rfl, rfl, rfl⟩

theorem size (h : Alike m n) : m.words.size = n.words.size := by
  have hlength := congrArg List.length h.scores
  simpa [Machine.scores] using hlength

theorem currentScore (h : Alike m n) : m.currentScore = n.currentScore := by
  have hscore : ∀ m : Machine, m.currentScore =
      (if 0 ≤ m.index then m.scores[m.index.toNat]? else none).getD 0 := by
    intro m
    rw [Machine.currentScore, current?]
    cases m.index with
    | ofNat i =>
      simp only [Machine.scores, Int.ofNat_eq_natCast, Int.natCast_nonneg, if_true, Int.toNat_natCast]
      cases hw : m.words[i]? <;> simp [hw]
    | negSucc i => simp
  rw [hscore m, hscore n, h.index, h.scores]

end Alike

/-! ## Lockstep -/

theorem lockstep_alike : Lockstep Alike fun _ _ _ => False where
  push v m n h := by
    rw [push, push, h.stack]
    cases n.stack.push v with
    | ok stack => exact .inl (.ok () { h with stack := rfl })
    | error fault => exact .inl (.error fault h)
  pop m n h := by
    rw [pop, pop, h.stack]
    cases n.stack.pop with
    | ok r => exact .inl (.ok r.1 { h with stack := rfl })
    | error fault => exact .inl (.error fault h)
  peek := .peek fun h => by rw [h.stack]
  advance offset :=
    .advance offset (fun h => h.index) (fun h => h.size) (fun h => h.currentScore)
      fun i h => { h with index := rfl }
  halt m n h := .inl (.ok () { h with halted := rfl })
  readChar := .readChar (fun h => h.source) fun source h => { h with source := rfl }
  writeChar c := .writeChar c (fun h => h.sink) fun sink h => { h with sink := rfl }
  stable _ _ := .const _
  dictionary h := h.dictionary
  halted h := h.halted

theorem agree_dispatch {m n : Machine} (h : Alike m n) : Agree Alike (dispatch m) (dispatch n) := by
  have hlast : ∀ {m n : Machine}, Alike m n →
      (m.index = m.words.size - 1 ↔ n.index = n.words.size - 1) := by
    intro m n h
    rw [h.index, h.size]
  exact (lockstep_alike.dispatch (fun h => h.actions) hlast).agree h

theorem agree_after {m n : Machine} (h : Alike m n) (k : Nat) :
    Agree Alike (after k m) (after k n) :=
  Agrees.agree_after (fun _ _ h => .inl (agree_dispatch h)) h k

/-- A failing dispatch places its failure at the word last fetched. -/
theorem location_of_dispatch {m m' : Machine} {failure : Failure}
    (h : dispatch m = .error failure m') : failure.location = m'.here := by
  have hagree := agree_dispatch (.refl m)
  generalize dispatch m = r at h hagree
  subst h
  exact hagree.location

/-! ## Failures -/

theorem bind_failure?_outcome? (r : EStateM.Result Failure Machine Progress) :
    (outcome? r).bind failure? = failure? r := by
  rcases r with ⟨_ | _, m⟩ | ⟨failure, m⟩ <;> rfl

theorem here_eq {m n : Machine} (hindex : m.index = n.index)
    (hplaces : m.words.toList.map Word.location = n.words.toList.map Word.location) :
    m.here = n.here := by
  have hplace : ∀ m : Machine, m.here =
      if 0 ≤ m.index then (m.words.toList.map Word.location)[m.index.toNat]? else none := by
    intro m
    rw [here, current?]
    cases m.index with
    | ofNat i => simp
    | negSucc i => simp
  rw [hplace m, hplace n, hindex, hplaces]

/-- Results that agree have the same failure, if the words have the same places. -/
theorem Agree.failure? {α : Type} {r s : EStateM.Result Failure Machine α} (h : Agree Alike r s)
    (hplaces : (Machine.machineOf r).words.toList.map Word.location =
      (Machine.machineOf s).words.toList.map Word.location) :
    Machine.failure? r = Machine.failure? s := by
  cases h with
  | ok a _ => rfl
  | error fault h => rw [Machine.failure?, Machine.failure?, here_eq h.index hplaces]

/-! ## Runs -/

theorem words_after (m : Machine) (program : Program) (k : Nat) :
    (machineOf (after k (m.start program))).words = program.toArray :=
  (after_keeps (stable_frame (m.start program)).dispatch (.refl _) k).words

section

variable {m n : Machine} {s t : String}
  (hscores : (Program.ofText s).map (fun w => m.letters.score w.text) =
    (Program.ofText t).map fun w => n.letters.score w.text)
  (hactions : m.actions = n.actions) (hdictionary : m.dictionary = n.dictionary)
  (hlimit : m.stack.limit = n.stack.limit) (hsource : m.source = n.source) (hsink : m.sink = n.sink)

include hscores hactions hdictionary hlimit hsource hsink

theorem alike_start : Alike (m.start (.ofText s)) (n.start (.ofText t)) where
  scores := hscores
  actions := hactions
  dictionary := hdictionary
  stack := congrArg ValueStack.withLimit hlimit
  source := hsource
  sink := hsink
  index := rfl
  halted := rfl

theorem rel_run (fuel : Nat) : Option.Rel (Agree Alike) (run fuel m s) (run fuel n t) := by
  rw [run, run, resume_eq_after, resume_eq_after]
  exact (agree_after (alike_start hscores hactions hdictionary hlimit hsource hsink) fuel).outcome?

theorem failure?_run (hplaces : (Program.ofText s).map Word.location =
    (Program.ofText t).map Word.location) (fuel : Nat) :
    (run fuel m s).bind failure? = (run fuel n t).bind failure? := by
  rw [run, run, resume_eq_after, resume_eq_after, bind_failure?_outcome?, bind_failure?_outcome?]
  have hagree := agree_after (alike_start hscores hactions hdictionary hlimit hsource hsink) fuel
  refine hagree.failure? ?_
  rw [words_after, words_after]
  exact hplaces

/-- **Scores are all that matters.**  The runs of two texts whose words have the same scores go alike,
after every number of dispatches and at their ends.  If both fail, they do so with the same fault, each
at its own word of the same index; these places are the same if those of all words are, and so after any
change of the case of ASCII letters. -/
theorem runs_of_same_scores :
    (∀ k, Agree Alike (after k (m.start (.ofText s))) (after k (n.start (.ofText t))) ∧
      (machineOf (after k (m.start (.ofText s)))).words = (Program.ofText s).toArray ∧
      (machineOf (after k (n.start (.ofText t)))).words = (Program.ofText t).toArray) ∧
    (∀ fuel, Option.Rel (Agree Alike) (run fuel m s) (run fuel n t)) ∧
    ((Program.ofText s).map Word.location = (Program.ofText t).map Word.location →
      ∀ fuel, (run fuel m s).bind failure? = (run fuel n t).bind failure?) ∧
    (∀ u : String, s.toList.map Char.toLower = u.toList.map Char.toLower → ∀ fuel,
      Option.Rel (Agree Alike) (run fuel m s) (run fuel m u) ∧
      (run fuel m s).bind failure? = (run fuel m u).bind failure?) := by
  refine ⟨fun k => ⟨?_, words_after m _ k, words_after n _ k⟩, ?_, ?_, fun u hu fuel => ?_⟩
  · exact agree_after (alike_start hscores hactions hdictionary hlimit hsource hsink) k
  · exact rel_run hscores hactions hdictionary hlimit hsource hsink
  · exact failure?_run hscores hactions hdictionary hlimit hsource hsink
  · obtain ⟨hsame, hplaces⟩ := m.letters.scan_of_toLower_eq hu Program.unnamed
    exact ⟨rel_run hsame rfl rfl rfl rfl rfl fuel, failure?_run hsame rfl rfl rfl rfl rfl hplaces fuel⟩

end

/-- Words of 5, 1 and 5 points under two tables: both runs push 1, and then lack an operand at the
third word, which stands in the second line of the second text. -/
theorem runs_of_same_scores_two_tables :
    let m : Machine := {}
    let n : Machine := { letters := .ofList [('f', 5), ('q', 1)] }
    Option.Rel (Agree Alike) (run 9 m "k a k") (run 9 n "f Q\n f") ∧
      (run 9 m "k a k").bind failure? =
        some ⟨.counterOutOfBounds 1 2 3, some ⟨"<program>", 1, 5⟩⟩ ∧
      (run 9 n "f Q\n f").bind failure? =
        some ⟨.counterOutOfBounds 1 2 3, some ⟨"<program>", 2, 2⟩⟩ ∧
      (run 9 m "k a k").bind failure? = (run 9 m "K a k").bind failure? := by
  intro m n
  obtain ⟨-, hrel, -, hcase⟩ := runs_of_same_scores (m := m) (n := n) (s := "k a k") (t := "f Q\n f")
    (by decide +kernel) rfl rfl rfl rfl rfl
  exact ⟨hrel 9, by decide +kernel, by decide +kernel, (hcase "K a k" (by decide) 9).2⟩

end Beatnik.Machine
