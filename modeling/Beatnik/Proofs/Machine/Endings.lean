import Beatnik.Proofs.Machine.Refinement
import Beatnik.Proofs.Machine.SameScores

/-!
# How runs end

A run with the built-in dictionary that ends does so in one of three ways (`Ends`): a word asked it to
stop, there was no word left, or it failed.  A failure is always placed, at the word last fetched, which
is the word that was dispatched last or the operand after it:

    run fuel m text = some o → Ends m (.ofText text) o                                     (run_ends)

The halt mark is never set while a run goes on (`halted_of_running`), so that the word at which a run is
found to be halted is the one that asked for it.
-/

namespace Beatnik.Machine

/-- The ways in which a run of a program that starts on a machine can end. -/
inductive Ends (m : Machine) (program : Program) : Outcome → Prop
  /-- the word last fetched asked to stop -/
  | quit {m' : Machine} {i : Nat} {w : Word} : m'.halted = true → m'.index = i →
      program[i]? = some w → m.actions.action? (m.letters.score w.text) = some .quit →
      Ends m program (.ok () m')
  /-- there was no word left -/
  | finished {m' : Machine} : m'.halted = false → m'.index = program.length - 1 →
      Ends m program (.ok () m')
  /-- the last dispatch failed, at the word it fetched first or at the operand after it -/
  | failed {failure : Failure} {u m' : Machine} {i k : Nat} {w : Word} :
      after k (m.start program) = .ok .running u → dispatch u = .error failure m' →
      m'.index = i → m'.index = u.index + 1 ∨ m'.index = u.index + 1 + 1 →
      program[i]? = some w → failure.location = some w.location → Ends m program (.error failure m')

/-! ## One dispatch -/

variable {m m' u : Machine} {a : Action}

/-- With the built-in dictionary a word's score selects the behaviour itself. -/
theorem exists_word_of_upcoming? (hd : m.dictionary = .builtIn) (h : m.upcoming? = some a) :
    ∃ w, m.words[(m.index + 1).toNat]? = some w ∧
      m.actions.action? (m.letters.score w.text) = some a := by
  rw [upcoming?, hd] at h
  obtain ⟨b, hb, hentry⟩ := Option.bind_eq_some_iff.1 h
  obtain ⟨w, hw, hselects⟩ := Option.bind_eq_some_iff.1 hb
  rw [find?_builtIn] at hentry
  cases hentry
  exact ⟨w, hw, hselects⟩

theorem halted_of_dispatch (h : WellFormed u) (hu : u.halted = false)
    (hr : dispatch u = .ok .running m') : m'.halted = false := by
  have hcases := dispatched h
  generalize dispatch u = r at hr hcases
  cases hcases with
  | last _ => cases hr
  | inert _ _ =>
    cases hr
    exact hu
  | done a v _ _ =>
    cases hv : v.halted with
    | true => simp [hv] at hr
    | false =>
      simp only [hv, EStateM.Result.ok.injEq] at hr
      exact hr.2 ▸ hv
  | failed a failure v _ _ => cases hr

/-- A dispatch stops for want of a word, or because its word asks to stop. -/
theorem stopped_cases (h : WellFormed u) (hu : u.halted = false)
    (hs : dispatch u = .ok .stopped m') :
    (m' = u ∧ u.index = u.words.size - 1) ∨
      (u.upcoming? = some .quit ∧ m' = { u.fetched with halted := true }) := by
  have hcases := dispatched h
  generalize dispatch u = r at hs hcases
  cases hcases with
  | last hlast =>
    cases hs
    exact .inl ⟨rfl, hlast⟩
  | inert _ _ => cases hs
  | done a v hselected hp =>
    have hv : v.halted = true ∧ v = m' := by
      cases hv : v.halted with
      | true => simpa [hv] using hs
      | false => simp [hv] at hs
    -- only `quit` sets the halt mark
    have hwell := h.fetched (index_ne_of_upcoming? hselected)
    have hideal := idealOf_perform hwell a
    have hact := (Ideal.act_halted u.fetched.ideal a).1
    rw [← hideal, hp] at hact
    have hquit : a = .quit ∨ u.halted = true := hact hv.1
    rw [hu] at hquit
    obtain rfl : a = .quit := by simpa using hquit
    rw [← hv.2]
    cases hp
    exact .inr ⟨hselected, rfl⟩
  | failed a failure v _ _ => cases hs

/-- A failing dispatch leaves the counter at its word or at the operand after it. -/
theorem index_of_dispatch {failure : Failure} (h : WellFormed u)
    (hf : dispatch u = .error failure m') : m'.index = u.index + 1 ∨ m'.index = u.index + 1 + 1 := by
  obtain ⟨a, -, hwell, hp⟩ := perform_of_dispatch_error h hf
  exact (perform_error hwell hp).counter

/-! ## Runs -/

theorem halted_of_running {k : Nat} (h : WellFormed m) (hm : m.halted = false)
    (hu : after k m = .ok .running u) : u.halted = false := by
  have hboth : WellFormed u ∧ u.halted = false := by
    refine running_keeps (P := fun u => WellFormed u ∧ u.halted = false) ?_ ⟨h, hm⟩ hu
    intro v w hv hvw
    have hw := stable_wellFormed.dispatch v hv.1
    rw [left, hvw] at hw
    exact ⟨hw, halted_of_dispatch hv.1 hv.2 hvw⟩
  exact hboth.2

section

variable {program : Program} {k : Nat} (hd : m.dictionary = .builtIn)
  (hu : after k (m.start program) = .ok .running u)

include hd hu

/-- What holds as long as a run goes on. -/
theorem running_facts : WellFormed u ∧ Frame (m.start program) u ∧ u.halted = false := by
  have hstart : WellFormed (m.start program) := wellFormed_start (hd ▸ isSome_find?_builtIn) program
  have hwell := after_keeps stable_wellFormed.dispatch hstart k
  have hframe := after_keeps (stable_frame (m.start program)).dispatch (.refl _) k
  rw [hu] at hwell hframe
  exact ⟨hwell, hframe, halted_of_running hstart rfl hu⟩

theorem ends_of_stopped (hr : dispatch u = .ok .stopped m') : Ends m program (.ok () m') := by
  obtain ⟨hwell, hframe, hhalted⟩ := running_facts hd hu
  have hwords : u.words = program.toArray := hframe.words
  rcases stopped_cases hwell hhalted hr with ⟨rfl, hlast⟩ | ⟨hquit, rfl⟩
  · rw [hwords] at hlast
    exact .finished hhalted hlast
  · obtain ⟨w, hw, hselects⟩ := exists_word_of_upcoming? (hframe.dictionary.trans hd) hquit
    rw [hwords, List.getElem?_toArray] at hw
    rw [hframe.actions, hframe.letters] at hselects
    have hge := hwell.index_ge
    refine .quit rfl ?_ hw hselects
    show u.index + 1 = _
    omega

theorem ends_of_error {failure : Failure} (hr : dispatch u = .error failure m') :
    Ends m program (.error failure m') := by
  obtain ⟨hwell, hframe, -⟩ := running_facts hd hu
  have hge := hwell.index_ge
  have hindex := index_of_dispatch hwell hr
  -- the dispatch keeps the bounds and the words, so that there is a word at the counter it leaves
  have hwell' := stable_wellFormed.dispatch u hwell
  have hframe' := (stable_frame (m.start program)).dispatch u hframe
  rw [left, hr] at hwell' hframe'
  have hwords : m'.words = program.toArray := hframe'.words
  have hlt : m'.index < m'.words.size := hwell'.index_lt
  obtain ⟨i, hi⟩ : ∃ i : Nat, m'.index = i := ⟨m'.index.toNat, by omega⟩
  rw [hwords, hi, List.size_toArray] at hlt
  have hw := List.getElem?_eq_getElem (show i < program.length by omega)
  refine .failed hu hr hi hindex hw ?_
  rw [location_of_dispatch hr, here, current?, hi, hwords]
  simp [hw]

end

/-- **Endings.**  Every run that ends with the built-in dictionary ends in one of three ways, whatever
the machine has done before. -/
theorem run_ends (hd : m.dictionary = .builtIn) {text : String} {fuel : Nat} {o : Outcome}
    (h : run fuel m text = some o) : Ends m (.ofText text) o := by
  rw [run, resume_eq_after] at h
  obtain ⟨k, u, -, hu, ho⟩ := exists_last_dispatch h
  rcases hr : dispatch u with ⟨_ | _, m'⟩ | ⟨failure, m'⟩
  · rw [hr] at ho
    cases ho
  · rw [hr] at ho
    cases ho
    exact ends_of_stopped hd hu hr
  · rw [hr] at ho
    cases ho
    exact ends_of_error hd hu hr

/-- The words push 1, pop it, and then pop an empty stack in the second line. -/
theorem run_ends_underflow :
    ∃ o, run 9 {} "k a\nka ka" = some o ∧ Ends {} (.ofText "k a\nka ka") o ∧
      failure? o = some ⟨.stackUnderflow, some ⟨"<program>", 2, 4⟩⟩ := by
  have hfailure : (run 9 {} "k a\nka ka").bind failure? =
      some ⟨.stackUnderflow, some ⟨"<program>", 2, 4⟩⟩ := by decide +kernel
  obtain ⟨o, ho, hf⟩ := Option.bind_eq_some_iff.1 hfailure
  exact ⟨o, ho, run_ends rfl ho, hf⟩

end Beatnik.Machine
