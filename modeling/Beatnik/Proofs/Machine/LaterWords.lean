import Beatnik.Proofs.Machine.Endings

/-!
# Words that come later

A run of a program is compared to the run of the program with more words after it.  Both go alike as
long as the first one does not fail for leaving its program (`lockstep_extends`), so the words that come
later matter only from the point on where the first run has no word left:

    Extends later m n → after k n = .ok .running u →
      ∃ v, after k m = .ok .running v ∧ Extends later v u                        (Extends.after)

A run that was asked to stop, or that failed for another reason, is the same with any text after it, and
a run that came to the end of its program goes on with the first word of that text (`run_append`).
-/

namespace Beatnik

/-- The words of a text `s` that stands after a text `p` and a character. -/
def Program.following (p : String) (c : Char) (s : String) : Program :=
  (ofText s).map (Word.shift ((Location.start unnamed).afterText (p.toList ++ [c])))

theorem Program.ofText_append (p s : String) {c : Char} (h : Word.isWordChar c = false) :
    ofText (p ++ String.singleton c ++ s) = ofText p ++ following p c s :=
  Word.scan_append unnamed p s h

namespace Machine

/-! ## More words -/

def extended (m : Machine) (later : Program) : Machine :=
  { m with words := m.words ++ later.toArray }

/-- A machine with words put after its program, and the machine without them, which has not left its
program. -/
structure Extends (later : Program) (m n : Machine) : Prop where
  same : m = n.extended later
  index_lt : n.index < n.words.size

variable {later : Program} {m n : Machine}

theorem size_extended (n : Machine) (later : Program) :
    (n.extended later).words.size = n.words.size + later.length := by
  simp [extended]

theorem current?_extended (h : n.index < n.words.size) :
    (n.extended later).current? = n.current? := by
  unfold current? extended
  cases hi : n.index with
  | ofNat i =>
    rw [hi] at h
    exact Array.getElem?_append_left (Int.ofNat_lt.1 h)
  | negSucc i => rfl

theorem extends_start (m : Machine) (program later : Program) :
    Extends later (m.start (program ++ later)) (m.start program) where
  same := by simp [start, load, extended]
  index_lt := by
    simp [start, load]
    omega

/-! ## Lockstep -/

theorem agrees_advance_extends (later : Program) (offset : Value) :
    Agrees (Extends later) (fun _ failure _ => failure.fault.kind = .counterOutOfBounds)
      (advance offset) := by
  rintro m n ⟨rfl, hlt⟩
  by_cases hc : -1 ≤ n.index + offset.toInt ∧ n.index + offset.toInt < n.words.size
  · have hc' : -1 ≤ (n.extended later).index + offset.toInt ∧
        (n.extended later).index + offset.toInt < (n.extended later).words.size := by
      rw [size_extended]
      exact ⟨hc.1, by have := hc.2; show n.index + offset.toInt < _; omega⟩
    have hscore : currentScore (extended { n with index := n.index + offset.toInt } later) =
        currentScore { n with index := n.index + offset.toInt } := by
      rw [currentScore, currentScore, current?_extended (n := { n with index := _ }) hc.2]
      rfl
    rw [advance, advance, if_pos hc, if_pos hc']
    refine .inl ?_
    dsimp only
    rw [← hscore]
    exact .ok _ ⟨rfl, hc.2⟩
  · exact .inr ⟨_, n, advance_out hc, rfl⟩

/-- The machine with more words goes alike as long as the other one stays in its program. -/
theorem lockstep_extends (later : Program) :
    Lockstep (Extends later) fun _ failure _ => failure.fault.kind = .counterOutOfBounds where
  push v := by
    rintro m n ⟨rfl, hlt⟩
    rw [push, push, show (n.extended later).stack = n.stack from rfl]
    cases n.stack.push v with
    | ok stack => exact .inl (.ok () ⟨rfl, hlt⟩)
    | error fault => exact .inl (.error fault ⟨rfl, hlt⟩)
  pop := by
    rintro m n ⟨rfl, hlt⟩
    rw [pop, pop, show (n.extended later).stack = n.stack from rfl]
    cases n.stack.pop with
    | ok r => exact .inl (.ok r.1 ⟨rfl, hlt⟩)
    | error fault => exact .inl (.error fault ⟨rfl, hlt⟩)
  peek := .peek fun h => by rw [h.same]; rfl
  advance := agrees_advance_extends later
  halt := by
    rintro m n ⟨rfl, hlt⟩
    exact .inl (.ok () ⟨rfl, hlt⟩)
  readChar := by
    refine .readChar (fun h => ?_) (fun source h => ?_)
    · rw [h.same]; rfl
    · obtain ⟨rfl, hlt⟩ := h
      exact ⟨rfl, hlt⟩
  writeChar c := by
    refine .writeChar c (fun h => ?_) (fun sink h => ?_)
    · rw [h.same]; rfl
    · obtain ⟨rfl, hlt⟩ := h
      exact ⟨rfl, hlt⟩
  stable _ _ := .const _
  dictionary h := by rw [h.same]; rfl
  halted h := by rw [h.same]; rfl

namespace Extends

/-- With a word left in the shorter program, dispatches go alike. -/
theorem dispatch (h : Extends later m n) (hne : n.index ≠ n.words.size - 1) :
    Agree (Extends later) (Machine.dispatch m) (Machine.dispatch n) ∨
      ∃ failure n', Machine.dispatch n = .error failure n' ∧
        failure.fault.kind = .counterOutOfBounds := by
  have hlt := h.index_lt
  refine (lockstep_extends later).fetching h (by rw [h.same]; rfl) ?_ hne
  rw [h.same, size_extended]
  show n.index ≠ _
  omega

/-- As long as the run of the shorter program goes on, so does the other one. -/
theorem after (h : Extends later m n) {k : Nat} {u : Machine}
    (hu : Machine.after k n = .ok .running u) :
    ∃ v, Machine.after k m = .ok .running v ∧ Extends later v u := by
  induction k generalizing u with
  | zero =>
    cases hu
    exact ⟨m, rfl, h⟩
  | succ k ih =>
    obtain ⟨w, hw, hwu⟩ := running_of_succ hu
    obtain ⟨v, hv, hvw⟩ := ih hw
    have hne : w.index ≠ w.words.size - 1 := by
      intro hlast
      rw [dispatch_none hlast] at hwu
      cases hwu
    rcases hvw.dispatch hne with hagree | ⟨failure, n', hf, -⟩
    · rw [hwu] at hagree
      generalize hd : Machine.dispatch v = r at hagree
      cases hagree with
      | ok _ hr => exact ⟨_, (after_succ_of_running hv).trans hd, hr⟩
    · rw [hwu] at hf
      cases hf

end Extends

/-! ## Runs -/

/-- A run that ends with a word left in its program, and not for leaving it, is the same with more words
after the program. -/
theorem resume_extended {program : Program} {k fuel : Nat} {u : Machine} {o : Outcome} (hk : k < fuel)
    (hu : after k (m.start program) = .ok .running u) (ho : outcome? (dispatch u) = some o)
    (hne : u.index ≠ u.words.size - 1)
    (hkind : ∀ failure, failure? o = some failure → failure.fault.kind ≠ .counterOutOfBounds) :
    resume fuel (m.start (program ++ later)) = some (onMachine (extended · later) o) := by
  obtain ⟨v, hv, hvu⟩ := (extends_start m program later).after hu
  refine resume_of_dispatch hk hv ?_
  rcases hvu.dispatch hne with hagree | ⟨failure, u', hf, hout⟩
  · have hextends := hagree.machineOf
    have hd : dispatch v = onMachine (extended · later) (dispatch u) := by
      refine hagree.symm.eq_onMachine hextends.same ?_
      rw [hextends.same, here, here, current?_extended hextends.index_lt]
    rw [hd, outcome?_onMachine, ho]
    rfl
  · rw [hf] at ho
    cases ho
    exact absurd hout (hkind failure rfl)

/-- The run of a program came to its end after `k` dispatches and left `m'`.  With words after the
program, the run has come to the same after as many dispatches, and takes up the first of these words. -/
structure GoesOn (m : Machine) (program later : Program) (k : Nat) (m' : Machine) : Prop where
  running : after k (m.start program) = .ok .running m'
  ended : dispatch m' = .ok .stopped m'
  running_extended : after k (m.start (program ++ later)) = .ok .running (m'.extended later)
  none_left : later = [] → dispatch (m'.extended later) = .ok .stopped (m'.extended later)
  first_word : ∀ w rest, later = w :: rest →
    (m'.extended later).fetched.index = program.length ∧
      (m'.extended later).fetched.current? = some w ∧
      dispatch (m'.extended later) = (m.actions.action? (m.letters.score w.text)).elim
        (.ok .running (m'.extended later).fetched) (execute · (m'.extended later).fetched)

theorem goesOn_of_last {program : Program} {k : Nat} {u : Machine}
    (hu : after k (m.start program) = .ok .running u) (hlast : u.index = u.words.size - 1) :
    GoesOn m program later k u := by
  obtain ⟨v, hv, rfl, -⟩ := (extends_start m program later).after hu
  have hframe := after_keeps (stable_frame (m.start program)).dispatch (.refl _) k
  rw [hu] at hframe
  have hwords : u.words = program.toArray := hframe.words
  have hindex : u.index + 1 = program.length := by
    rw [hlast, hwords, List.size_toArray]
    omega
  refine ⟨hu, dispatch_none hlast, hv, ?_, ?_⟩
  · rintro rfl
    refine dispatch_none ?_
    rw [size_extended]
    exact hlast
  · rintro w rest rfl
    have hw : (u.extended (w :: rest)).words[program.length]? = some w := by
      simp [extended, hwords]
    have hfetched : (u.extended (w :: rest)).fetched =
        { u.extended (w :: rest) with index := (program.length : Int) } := by
      rw [← hindex]
      rfl
    refine ⟨hindex, ?_, ?_⟩
    · rw [hfetched]
      exact hw
    · have hselects : (u.extended (w :: rest)).actions.action?
          ((u.extended (w :: rest)).letters.score w.text) =
            m.actions.action? (m.letters.score w.text) := by
        rw [show (u.extended (w :: rest)).actions = m.actions from hframe.actions,
          show (u.extended (w :: rest)).letters = m.letters from hframe.letters]
      rw [hfetched, dispatch_some (m := u.extended (w :: rest)) hindex hw, hselects]
      cases m.actions.action? (m.letters.score w.text) <;> rfl

/-- **Later words.**  A run that was asked to stop, or that failed for another reason than leaving its
program, is the same with any text after a separator, but for the words of that text.  A run that came to
the end of its program goes on with the first word of that text. -/
theorem run_append (hm : ∀ a, (m.dictionary.find? a).isSome = true) {c : Char}
    (hc : Word.isWordChar c = false) (p s : String) (fuel : Nat) :
    Program.ofText (p ++ String.singleton c ++ s) = .ofText p ++ .following p c s ∧
    (∀ m', run fuel m p = some (.ok () m') → m'.halted = true →
      run fuel m (p ++ String.singleton c ++ s) =
        some (.ok () (m'.extended (.following p c s)))) ∧
    (∀ m', run fuel m p = some (.ok () m') → m'.halted = false →
      ∃ k < fuel, GoesOn m (.ofText p) (.following p c s) k m') ∧
    (∀ failure m', run fuel m p = some (.error failure m') →
      failure.fault.kind ≠ .counterOutOfBounds →
      run fuel m (p ++ String.singleton c ++ s) =
        some (.error failure (m'.extended (.following p c s)))) := by
  have hwell : ∀ {k u}, after k (m.start (.ofText p)) = .ok .running u →
      WellFormed u ∧ u.halted = false := by
    intro k u hu
    have hstart := wellFormed_start hm (.ofText p)
    exact ⟨wellFormed_running hstart hu, halted_of_running hstart rfl hu⟩
  rw [run, run, Program.ofText_append p s hc, resume_eq_after]
  refine ⟨rfl, fun m' ho hhalted => ?_, fun m' ho hhalted => ?_, fun failure m' ho hkind => ?_⟩
  · obtain ⟨k, u, hk, hu, hd⟩ := exists_last_dispatch ho
    refine resume_extended hk hu hd (fun hlast => ?_) ?_
    · -- with no word left the machine would be the one that was going on, which was not asked to stop
      rw [dispatch_none hlast] at hd
      cases hd
      rw [(hwell hu).2] at hhalted
      cases hhalted
    · rintro _ ⟨⟩
  · obtain ⟨k, u, hk, hu, hd⟩ := exists_last_dispatch ho
    obtain ⟨hu', hrunning⟩ := hwell hu
    rcases stopped_cases hu' hrunning (eq_stopped_of_outcome? hd) with ⟨rfl, hlast⟩ | ⟨-, rfl⟩
    · exact ⟨k, hk, goesOn_of_last hu hlast⟩
    · cases hhalted
  · obtain ⟨k, u, hk, hu, hd⟩ := exists_last_dispatch ho
    refine resume_extended hk hu hd (fun hlast => ?_) ?_
    · rw [dispatch_none hlast] at hd
      cases hd
    · rintro _ ⟨⟩
      exact hkind

/-- Three texts with another line after them.  The first pushes 1 and stops, so that the push without an
operand in the second line is not reached; the second comes to its end, and goes on with the second line;
the third pops an empty stack. -/
theorem run_append_three_texts :
    let m : Machine := {}
    (∃ m', run 9 m "k a zkaa" = some (.ok () m') ∧ m'.halted = true ∧
      run 9 m "k a zkaa\nk" = some (.ok () (m'.extended (.following "k a zkaa" '\n' "k")))) ∧
    (∃ m', run 9 m "k a" = some (.ok () m') ∧ m'.halted = false ∧
      ∃ k < 9, GoesOn m (.ofText "k a") (.following "k a" '\n' "ka") k m') ∧
    (∃ m', run 9 m "ka" = some (.error ⟨.stackUnderflow, some ⟨"<program>", 1, 1⟩⟩ m') ∧
      run 9 m "ka\nk a" = some (.error ⟨.stackUnderflow, some ⟨"<program>", 1, 1⟩⟩
        (m'.extended (.following "ka" '\n' "k a")))) := by
  intro m
  have happend := fun p s => run_append (m := m) isSome_find?_builtIn (c := '\n') (by decide) p s 9
  refine ⟨?_, ?_, ?_⟩
  · have hends : (run 9 m "k a zkaa").map (fun o => (failure? o, (machineOf o).halted)) =
        some (none, true) := by decide +kernel
    obtain ⟨⟨⟨⟩, m'⟩ | ⟨failure, m'⟩, ho, hfacts⟩ := Option.map_eq_some_iff.1 hends
    · have hhalted : m'.halted = true := (Prod.mk.inj hfacts).2
      exact ⟨m', ho, hhalted, (happend "k a zkaa" "k").2.1 m' ho hhalted⟩
    · cases (Prod.mk.inj hfacts).1
  · have hends : (run 9 m "k a").map (fun o => (failure? o, (machineOf o).halted)) =
        some (none, false) := by decide +kernel
    obtain ⟨⟨⟨⟩, m'⟩ | ⟨failure, m'⟩, ho, hfacts⟩ := Option.map_eq_some_iff.1 hends
    · have hhalted : m'.halted = false := (Prod.mk.inj hfacts).2
      exact ⟨m', ho, hhalted, (happend "k a" "ka").2.2.1 m' ho hhalted⟩
    · cases (Prod.mk.inj hfacts).1
  · have hends : (run 9 m "ka").bind failure? =
        some ⟨.stackUnderflow, some ⟨"<program>", 1, 1⟩⟩ := by decide +kernel
    obtain ⟨⟨⟨⟩, m'⟩ | ⟨failure, m'⟩, ho, hf⟩ := Option.bind_eq_some_iff.1 hends
    · cases hf
    · cases hf
      exact ⟨m', ho, (happend "ka" "k a").2.2.2 _ m' ho (by decide)⟩

end Machine

end Beatnik
