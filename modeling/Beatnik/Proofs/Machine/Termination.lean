import Beatnik.Proofs.Machine.Counter
import Beatnik.Proofs.Machine.Endings
import Beatnik.Proofs.WordScores

/-!
# Programs without backward branches

The counter cannot pass the last word, so a run on which it only moves on ends: after `k` dispatches it
is `k` words further at least, and there are no more dispatches than words, and one that finds no word.

    after k m = .ok .running u → m.index + k ≤ u.index                     (add_le_index_of_running)
    m.words.size ≤ m.index + fuel → ∃ o, resume fuel m = some o                        (resume_ends)

Without a word that selects a backward branch the counter only moves on, whatever the input, the sink
and the limit of the stack (`run_ends_without_backward`).  A distance is never negative, as long as the
points of its word add up to a value; for more points than that it takes more than 2^31 characters
(`length_of_total`), and with such a word there are programs that do not end
(`branches_forward_lead_back`).
-/

namespace Beatnik

/-! ## Points of long words -/

namespace LetterScores

/-- The characters of a token have at most the greatest number of points each. -/
theorem total_le_of_isToken (s : LetterScores) {t : String} (h : Word.IsToken t) :
    s.total t ≤ t.length * (2 ^ 32 - 1) := by
  rw [total_eq_worth, ← h.length_lowerText]
  exact s.worth_le _

/-- More points than the greatest value take more than 2^31 characters. -/
theorem length_of_total (s : LetterScores) {t : String} (h : Word.IsToken t)
    (htotal : Value.greatest < s.total t) : 2 ^ 31 < t.length := by
  have hle := s.total_le_of_isToken h
  unfold Value.greatest at htotal
  omega

/-- A negative score is that of a word with more points than the greatest value. -/
theorem total_of_score_neg {s : LetterScores} {t : String} (h : s.score t < 0) :
    Value.greatest < s.total t := by
  by_contra hle
  rw [Int64.lt_iff_toInt_lt, Int64.toInt_zero, Machine.toInt_score (Int.not_lt.1 hle)] at h
  omega

end LetterScores

namespace Machine

variable {m u : Machine}

/-! ## Runs on which the counter moves on -/

/-- Every dispatch of a run that goes on moves the counter on. -/
def MovesOn (m : Machine) : Prop :=
  ∀ k u u', after k m = .ok .running u → dispatch u = .ok .running u' → u.index < u'.index

theorem add_le_index_of_running (hmoves : m.MovesOn) {k : Nat} (hu : after k m = .ok .running u) :
    m.index + k ≤ u.index := by
  induction k generalizing u with
  | zero =>
    cases hu
    omega
  | succ k ih =>
    obtain ⟨v, hv, hvu⟩ := running_of_succ hu
    have hle := ih hv
    have hlt := hmoves k v u hv hvu
    omega

theorem resume_ends (hm : WellFormed m) (hmoves : m.MovesOn) {fuel : Nat}
    (hfuel : m.words.size ≤ m.index + fuel) : ∃ o, resume fuel m = some o := by
  rw [resume_eq_after]
  rcases hr : after fuel m with ⟨_ | _, u⟩ | ⟨failure, u⟩
  · -- the counter would have passed the last word
    have hle := add_le_index_of_running hmoves hr
    have hlt := (wellFormed_running hm hr).index_lt
    have hframe := after_keeps (stable_frame m).dispatch (.refl m) fuel
    rw [hr] at hframe
    have hwords : u.words = m.words := hframe.words
    rw [hwords] at hlt
    omega
  · exact ⟨_, rfl⟩
  · exact ⟨_, rfl⟩

/-! ## Dispatches that do not move it on -/

/-- The next word takes a branch forward by the score of a word whose points add up to more than the
greatest value. -/
structure BranchesPast (m : Machine) (w : Word) : Prop where
  taken : m.Branches .forward
  operand : m.fetched.fetched.current? = some w
  points : Value.greatest < m.letters.total w.text

theorem mem_of_current? {w : Word} (h : m.current? = some w) : w ∈ m.words := by
  rw [current?] at h
  cases hi : m.index with
  | ofNat i =>
    rw [hi] at h
    exact Array.mem_of_getElem? h
  | negSucc i =>
    rw [hi] at h
    cases h

theorem BranchesPast.mem {w : Word} (h : m.BranchesPast w) : w ∈ m.words :=
  mem_of_current? (m := m.fetched.fetched) h.operand

/-- A dispatch that goes on moves the counter on, unless it takes a branch backward, or one forward by
more than a value. -/
theorem moves_or_branchesPast {m' : Machine} (h : WellFormed m) (hr : dispatch m = .ok .running m')
    (hback : ¬ m.Branches .backward) : m.index < m'.index ∨ ∃ w, m.BranchesPast w := by
  rcases index_lt_of_running h hr hback with hlt | ⟨htaken, hneg⟩
  · exact .inl hlt
  · rw [currentScore] at hneg
    cases hw : m.fetched.fetched.current? with
    | none =>
      rw [hw] at hneg
      exact absurd hneg Int64.lt_irrefl
    | some w =>
      rw [hw] at hneg
      exact .inr ⟨w, htaken, hw, LetterScores.total_of_score_neg hneg⟩

theorem not_branches_backward (hd : u.dictionary = .builtIn)
    (h : ∀ w ∈ u.words, u.actions.action? (u.letters.score w.text) ≠ some .backwardIfZero ∧
      u.actions.action? (u.letters.score w.text) ≠ some .backwardIfNonzero) :
    ¬ u.Branches .backward := by
  rintro ⟨a, condition, v, rest, hselected, hbranch, -⟩
  obtain ⟨w, hw, hselects⟩ := exists_word_of_upcoming? hd hselected
  obtain ⟨hzero, hnonzero⟩ := h w (Array.mem_of_getElem? hw)
  have hcases : a = .backwardIfZero ∨ a = .backwardIfNonzero := by
    cases a <;> simp [Action.branch?] at hbranch ⊢
  rcases hcases with rfl | rfl
  · exact hzero hselects
  · exact hnonzero hselects

/-- No word that a run comes to selects a backward branch, if no word of its program does. -/
theorem not_branches_backward_after {program : Program} {k : Nat} (hd : m.dictionary = .builtIn)
    (hback : ∀ w ∈ program,
      m.actions.action? (m.letters.score w.text) ≠ some .backwardIfZero ∧
      m.actions.action? (m.letters.score w.text) ≠ some .backwardIfNonzero)
    (hu : after k (m.start program) = .ok .running u) : ¬ u.Branches .backward := by
  obtain ⟨-, hframe, -⟩ := running_facts hd hu
  refine not_branches_backward (hframe.dictionary.trans hd) fun w hw => ?_
  rw [hframe.words] at hw
  rw [hframe.letters, hframe.actions]
  exact hback w (List.mem_toArray.1 hw)

/-! ## A branch forward that leads back -/

theorem ideal_longStart_back : (longStart 'x').ideal = .plain [5, 1, 14, -4] (-1) [] :=
  ideal_longStart (by decide) (p := 4294967292) (by decide +kernel) (by decide +kernel)

/-- The branch by -4 leads from the word 2 to the start. -/
theorem step_longBranch_back :
    (Ideal.plain [5, 1, 14, -4] 1 [1]).step (selects .standard) =
      (.ok .running, .plain [5, 1, 14, -4] (-1) []) := rfl

theorem longBranch_selects_no_backward :
    ∀ w ∈ Program.ofText (" ".intercalate (longBranch 'x')),
      longMachine.actions.action? (longMachine.letters.score w.text) ≠ some .backwardIfZero ∧
      longMachine.actions.action? (longMachine.letters.score w.text) ≠ some .backwardIfNonzero := by
  intro w hw
  have hmem := score_mem_ideal_start longMachine hw
  rw [← longStart, ideal_longStart_back] at hmem
  have hall := List.all_eq_true.1 (show (Ideal.plain [5, 1, 14, -4] (-1) []).scores.all (fun n =>
    selects longMachine.actions n ≠ some .backwardIfZero ∧
    selects longMachine.actions n ≠ some .backwardIfNonzero) = true by decide +kernel) _ hmem
  rw [selects_toInt] at hall
  exact of_decide_eq_true hall

/-- The machine goes to and fro between the start and the branch. -/
theorem run_longBranch_eq_none (fuel : Nat) :
    run fuel longMachine (" ".intercalate (longBranch 'x')) = none := by
  have hloop : ∀ s : Ideal, s = .plain [5, 1, 14, -4] (-1) [] ∨ s = .plain [5, 1, 14, -4] 1 [1] →
      ∃ s', s.step (selects .standard) = (.ok .running, s') ∧
        (s' = .plain [5, 1, 14, -4] (-1) [] ∨ s' = .plain [5, 1, 14, -4] 1 [1]) := by
    rintro s (rfl | rfl)
    · exact ⟨_, step_before_longBranch (-4), .inr rfl⟩
    · exact ⟨_, step_longBranch_back, .inl rfl⟩
  have hrun := map_idealOf_resume (m := longStart 'x') (wellFormed_start isSome_find?_builtIn _) rfl fuel
  rw [ideal_longStart_back] at hrun
  exact Option.map_eq_none_iff.1 (hrun.trans (Ideal.run_eq_none hloop fuel (.inl rfl)))

/-! ## Termination -/

/-- **Termination.**  With the built-in dictionary, the run of a program without words that select a
backward branch ends after as many dispatches as there are words, and one more.  From every reachable
machine, each dispatch that goes on moves the counter on, unless it takes a backward branch.  In both
cases forward branches have to go forward: a word whose points add up to more than the greatest value has
another score, which may be negative, but such a word has more than 2^31 characters. -/
theorem run_ends_without_backward :
    (∀ (m : Machine) (text : String), m.dictionary = .builtIn →
      (∀ w ∈ Program.ofText text,
        m.actions.action? (m.letters.score w.text) ≠ some .backwardIfZero ∧
        m.actions.action? (m.letters.score w.text) ≠ some .backwardIfNonzero) →
      (∃ o, run ((Program.ofText text).length + 1) m text = some o) ∨
        ∃ k u w, after k (m.start (.ofText text)) = .ok .running u ∧ u.BranchesPast w ∧
          2 ^ 31 < w.text.length) ∧
    ∀ m m' : Machine, Reachable m → dispatch m = .ok .running m' → ¬ m.Branches .backward →
      m.index < m'.index ∨ ∃ w, m.BranchesPast w := by
  refine ⟨fun m text hd hback => ?_, fun m m' hm hr hback => ?_⟩
  · by_cases hpast : ∃ k u w, after k (m.start (.ofText text)) = .ok .running u ∧ u.BranchesPast w
    · obtain ⟨k, u, w, hu, hw⟩ := hpast
      obtain ⟨-, hframe, -⟩ := running_facts hd hu
      have hmem := hw.mem
      rw [hframe.words] at hmem
      have htoken := Word.isToken_of_mem_scan (List.mem_toArray.1 hmem)
      exact .inr ⟨k, u, w, hu, hw, u.letters.length_of_total htoken hw.points⟩
    · have hmoves : (m.start (.ofText text)).MovesOn := by
        intro k u u' hu hr
        rcases moves_or_branchesPast (running_facts hd hu).1 hr
          (not_branches_backward_after hd hback hu) with hlt | ⟨w, hw⟩
        · exact hlt
        · exact absurd ⟨k, u, w, hu, hw⟩ hpast
      refine .inl (resume_ends (wellFormed_start (hd ▸ isSome_find?_builtIn) _) hmoves ?_)
      show (((Program.ofText text).toArray.size : Nat) : Int) ≤ -1 + _
      rw [List.size_toArray]
      omega
  · exact moves_or_branchesPast hm.wellFormed hr hback

/-- The words push 1, skip the word `k` because of it, and pop an empty stack.  The branch from the word
2 leads to the word 4. -/
theorem run_ends_without_backward_skip :
    (∃ o, run 7 {} "k a zf a k ka" = some o) ∧
    ∃ m m', Reachable m ∧ dispatch m = .ok .running m' ∧ ¬ m.Branches .backward ∧
      m.Branches .forward ∧ m.index = 1 ∧ m'.index = 4 ∧ m.index < m'.index := by
  have hback : ∀ w ∈ Program.ofText "k a zf a k ka",
      ActionScores.standard.action? (LetterScores.scrabble.score w.text) ≠ some .backwardIfZero ∧
      ActionScores.standard.action? (LetterScores.scrabble.score w.text) ≠ some .backwardIfNonzero := by
    simpa using List.all_eq_true.1 (show (Program.ofText "k a zf a k ka").all (fun w =>
      ActionScores.standard.action? (LetterScores.scrabble.score w.text) ≠ some .backwardIfZero ∧
      ActionScores.standard.action? (LetterScores.scrabble.score w.text) ≠ some .backwardIfNonzero) =
        true by decide +kernel)
  have htotal : ∀ {m : Machine} {w : Word}, Frame (start {} (.ofText "k a zf a k ka")) m →
      ¬ m.BranchesPast w := by
    intro m w hframe hpast
    have hmem := hpast.mem
    have hpoints := hpast.points
    rw [hframe.words] at hmem
    rw [hframe.letters] at hpoints
    have hnot := List.all_eq_true.1 (show (Program.ofText "k a zf a k ka").all (fun w =>
      ¬ Value.greatest < LetterScores.scrabble.total w.text) = true by decide +kernel) w
        (List.mem_toArray.1 hmem)
    exact absurd hpoints (of_decide_eq_true hnot)
  constructor
  · rcases run_ends_without_backward.1 {} _ rfl hback with hends | ⟨k, u, w, hu, hpast, -⟩
    · exact hends
    · exact absurd hpast (htotal (running_facts rfl hu).2.1)
  · have hstart : Reachable (start {} (.ofText "k a zf a k ka")) :=
      .start _ (.fresh .scrabble .standard none [] {})
    -- the branch is the second word to be dispatched
    have hm := hstart.call .dispatch
    have hframe := (stable_frame _).dispatch _ (.refl (start {} (.ofText "k a zf a k ka")))
    generalize hu : left dispatch (start {} (.ofText "k a zf a k ka")) = m at hm hframe
    have hgoes : (outcome? (dispatch m)).isNone = true ∧ (left dispatch m).index = 4 ∧
        m.index = 1 ∧ m.upcoming? = some .forwardIfNonzero ∧ m.stack.items = [1] := by
      subst hu
      decide +kernel
    obtain ⟨hnone, hmoved, hindex, hselected, hitems⟩ := hgoes
    have hnot : ¬ m.Branches .backward := by
      refine not_branches_backward hframe.dictionary fun w hw => ?_
      rw [hframe.words] at hw
      rw [hframe.letters, hframe.actions]
      exact hback w (List.mem_toArray.1 hw)
    rcases hr : dispatch m with ⟨_ | _, m'⟩ | ⟨failure, m'⟩
    · rw [left, hr] at hmoved
      refine ⟨m, m', hm, hr, hnot, ⟨_, _, 1, [], hselected, rfl, hitems, rfl⟩, hindex, hmoved, ?_⟩
      rcases run_ends_without_backward.2 m m' hm hr hnot with hlt | ⟨w, hpast⟩
      · exact hlt
      · exact absurd hpast (htotal hframe)
    · rw [hr] at hnone
      cases hnone
    · rw [hr] at hnone
      cases hnone

/-- Branches forward that lead back.  The last word of the first program has 2^32 + 1 letters and the score
-4, so that the branch by it leads from the word 2 to the start, over and over again.  In the second
program the next word selects the branch forward on 0, which has been given the behaviour of the branch
backward: the counter comes back to where it was. -/
theorem branches_forward_lead_back :
    (∃ (m : Machine) (text : String), m.dictionary = .builtIn ∧
      (∀ w ∈ Program.ofText text,
        m.actions.action? (m.letters.score w.text) ≠ some .backwardIfZero ∧
        m.actions.action? (m.letters.score w.text) ≠ some .backwardIfNonzero) ∧
      (∀ fuel, run fuel m text = none) ∧
      ∃ u u', Reachable u ∧ after 1 (m.start (.ofText text)) = .ok .running u ∧
        dispatch u = .ok .running u' ∧ ¬ u.Branches .backward ∧ u.index = 1 ∧ u'.index = -1) ∧
    ∃ m m' : Machine, Reachable m ∧ dispatch m = .ok .running m' ∧
      (m.words[1]?.bind fun w => m.actions.action? (m.letters.score w.text)) = some .forwardIfZero ∧
      m.index = 0 ∧ m'.index = 0 := by
  refine ⟨⟨longMachine, " ".intercalate (longBranch 'x'), rfl, longBranch_selects_no_backward,
    run_longBranch_eq_none, ?_⟩, ?_⟩
  · obtain ⟨u, hu, hreach, hframe, hcame⟩ : ∃ u, dispatch (longStart 'x') = .ok .running u ∧
        Reachable u ∧ Frame (longStart 'x') u ∧ u.ideal = .plain [5, 1, 14, -4] 1 [1] :=
      exists_before_longBranch (by decide) (p := 4294967292) (by decide +kernel) (by decide +kernel)
    have hstep := idealOf_dispatch hreach.wellFormed hframe.dictionary
    rw [hcame, hframe.actions] at hstep
    obtain ⟨u', hu', hwent⟩ := idealOf_eq_ok (hstep.trans step_longBranch_back)
    have hafter : after 1 (longStart 'x') = .ok .running u := hu
    have hback : ¬ u.Branches .backward :=
      not_branches_backward_after (m := longMachine) rfl longBranch_selects_no_backward hafter
    exact ⟨u, u', hreach, hafter, hu', hback, congrArg Ideal.counter hcame,
      congrArg Ideal.counter hwent⟩
  · have hm := ((Reachable.load (.ofText "a zc a a") (.rebind .forwardIfZero .backwardIfZero "" ""
      (.fresh .scrabble .standard none [] {}))).call (.push 0)).call .dispatch
    exact ⟨_, _, hm, rfl, rfl, rfl, rfl⟩

end Machine

end Beatnik
