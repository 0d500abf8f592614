import Beatnik.Proofs.Machine.Counter

/-!
# Programs without branches

A program without branches is followed word by word from its front, without a counter (`follow`): a word
that selects nothing is passed over, a push takes the word after it, and any other action is carried out.
But for the place of a failure, a run comes to the same:

    m.ahead.length < fuel → (resume fuel m).map seen =
      some (follow m.behaviour? m.letters.score m.ahead m.bare)                  (map_seen_resume)

An instruction is a word with its operand, if it has one, and a boundary is a position between two
instructions (`IsBoundary`).  A word that selects nothing is passed over at a boundary, so it makes no
difference there (`follow_insertIdx`).  Elsewhere it would be an operand.
-/

namespace Beatnik.Machine

/-! ## Words ahead -/

/-- The built-in behaviour that a word selects, if it selects any.  With the built-in dictionary it is
the action that the score of the word selects. -/
def behaviour? (m : Machine) (text : String) : Option Action :=
  (m.actions.action? (m.letters.score text)).bind fun a =>
    (m.dictionary.find? a).map (·.behaviour)

def ahead (m : Machine) : List String := (m.words.toList.drop (m.index + 1).toNat).map Word.text

variable {m m' : Machine} {t : String} {rest : List String}

theorem behaviour?_of_builtIn (h : m.dictionary = .builtIn) (t : String) :
    m.behaviour? t = m.actions.action? (m.letters.score t) := by
  unfold behaviour?
  rw [h]
  cases m.actions.action? (m.letters.score t) with
  | none => rfl
  | some a => exact congrArg (Option.map _) (find?_builtIn a)

theorem behaviour?_of_frame (h : Frame m m') : m'.behaviour? = m.behaviour? := by
  unfold behaviour?
  rw [h.letters, h.actions, h.dictionary]

theorem index_of_ahead_nil (hm : WellFormed m) (h : m.ahead = []) : m.index = m.words.size - 1 := by
  have hge := hm.index_ge
  have hlt := hm.index_lt
  rw [ahead, List.map_eq_nil_iff, List.drop_eq_nil_iff, Array.length_toList] at h
  omega

/-- The first word ahead is the one to be fetched. -/
theorem exists_of_ahead_cons (hm : WellFormed m) (h : m.ahead = t :: rest) :
    ∃ (i : Nat) (w : Word), m.index + 1 = i ∧ m.words[i]? = some w ∧ w.text = t := by
  have hge := hm.index_ge
  obtain ⟨i, hi⟩ : ∃ i : Nat, m.index + 1 = i := ⟨(m.index + 1).toNat, by omega⟩
  rw [ahead, hi, Int.toNat_natCast] at h
  obtain ⟨w, ws, hdrop, htext, -⟩ := List.map_eq_cons_iff.1 h
  refine ⟨i, w, hi, ?_, htext⟩
  rw [← Array.getElem?_toList, ← List.head?_drop, hdrop]
  rfl

/-- The other words are ahead after that. -/
theorem ahead_fetched (hm : WellFormed m) (h : m.ahead = t :: rest) : m.fetched.ahead = rest := by
  have hge := hm.index_ge
  have hindex : (m.fetched.index + 1).toNat = (m.index + 1).toNat + 1 := by
    show (m.index + 1 + 1).toNat = _
    omega
  rw [ahead, hindex, ← List.drop_drop, List.map_drop]
  exact (congrArg (List.drop 1) h :)

theorem upcoming?_of_ahead_cons (hm : WellFormed m) (h : m.ahead = t :: rest) :
    m.index ≠ m.words.size - 1 ∧ m.upcoming? = m.behaviour? t := by
  obtain ⟨i, w, hi, hw, rfl⟩ := exists_of_ahead_cons hm h
  have hlt := (Array.getElem?_eq_some_iff.1 hw).1
  refine ⟨by omega, ?_⟩
  rw [upcoming?, hi, Int.toNat_natCast, hw]
  rfl

theorem nextScore_of_ahead_cons (hm : WellFormed m) (h : m.ahead = t :: rest) :
    nextScore m = .ok (m.letters.score t) m.fetched := by
  obtain ⟨i, w, hi, hw, rfl⟩ := exists_of_ahead_cons hm h
  rw [nextScore_some hi hw, fetched, hi]

/-! ## Following words from the front -/

def bare (m : Machine) : Machine := m.placed #[] (-1)

/-- What is seen of a result: the kind of its failure, if it is one, and the machine without its
program. -/
def seen (o : Outcome) : Option FaultKind × Machine :=
  ((failure? o).map (·.fault.kind), (machineOf o).bare)

/-- Goes on after an action, unless it has failed or asked to stop. -/
def andThen (r : Outcome) (next : Machine → Option FaultKind × Machine) :
    Option FaultKind × Machine :=
  match r with
  | .ok _ m => if m.halted then (none, m.bare) else next m.bare
  | .error failure m => (some failure.fault.kind, m.bare)

/-- What words without branches come to, one after the other. -/
def follow (select : String → Option Action) (score : String → Value) :
    List String → Machine → Option FaultKind × Machine
  | [], m => (none, m)
  | t :: rest, m =>
    match select t with
    | none => follow select score rest m
    | some a =>
      if a = .push then
        match rest with
        | [] => (some .counterOutOfBounds, m)
        | operand :: rest => andThen (push (score operand) m) (follow select score rest)
      else andThen (perform a m) (follow select score rest)

section

variable {select : String → Option Action} {score : String → Value}

theorem follow_of_none (h : select t = none) (m : Machine) :
    follow select score (t :: rest) m = follow select score rest m := by
  cases rest <;> rw [follow.eq_def] <;> simp only [h]

theorem follow_of_push_nil (h : select t = some .push) (m : Machine) :
    follow select score [t] m = (some .counterOutOfBounds, m) := by
  rw [follow, h]
  exact if_pos rfl

theorem follow_of_push (h : select t = some .push) (operand : String) (m : Machine) :
    follow select score (t :: operand :: rest) m =
      andThen (push (score operand) m) (follow select score rest) := by
  rw [follow, h]
  exact if_pos rfl

theorem follow_of_some {a : Action} (h : select t = some a) (ha : a ≠ .push) (m : Machine) :
    follow select score (t :: rest) m = andThen (perform a m) (follow select score rest) := by
  cases rest <;> rw [follow, h] <;> exact if_neg ha

end

/-! ## Dispatches -/

section

variable {operand : String} {a : Action}

theorem dispatch_of_inert (hm : WellFormed m) (h : m.ahead = t :: rest)
    (hselect : m.behaviour? t = none) : dispatch m = .ok .running m.fetched := by
  obtain ⟨hne, hupcoming⟩ := upcoming?_of_ahead_cons hm h
  exact dispatch_of_upcoming?_none hm hne (hupcoming.trans hselect)

theorem dispatch_of_last_push (hm : WellFormed m) (h : m.ahead = [t])
    (hselect : m.behaviour? t = some .push) :
    ∃ failure, dispatch m = .error failure m.fetched ∧ failure.fault.kind = .counterOutOfBounds := by
  obtain ⟨hne, hupcoming⟩ := upcoming?_of_ahead_cons hm h
  have hlast : m.fetched.index = m.words.size - 1 :=
    index_of_ahead_nil (hm.fetched hne) (ahead_fetched hm h)
  have hfails : nextScore m.fetched = _ :=
    nextScore_none (by omega) (Array.getElem?_eq_none (Nat.le_refl m.words.size))
  rw [dispatch_of_upcoming? hm (hupcoming.trans hselect), perform, bind_error hfails]
  exact ⟨_, rfl, rfl⟩

theorem dispatch_of_push (hm : WellFormed m) (h : m.ahead = t :: operand :: rest)
    (hselect : m.behaviour? t = some .push) :
    dispatch m =
      concluded (placedOf m.words (m.index + 1 + 1) (push (m.letters.score operand) m.bare)) := by
  obtain ⟨hne, hupcoming⟩ := upcoming?_of_ahead_cons hm h
  have hscore : nextScore m.fetched = .ok (m.letters.score operand) m.fetched.fetched :=
    nextScore_of_ahead_cons (hm.fetched hne) (ahead_fetched hm h)
  rw [dispatch_of_upcoming? hm (hupcoming.trans hselect), perform, bind_ok hscore,
    show m.fetched.fetched = m.bare.placed m.words (m.index + 1 + 1) from rfl, Placeless.push]

theorem dispatch_of_placeless (hm : WellFormed m) (h : m.ahead = t :: rest)
    (hselect : m.behaviour? t = some a) (hpush : a ≠ .push) (hbranch : a.branch? = none) :
    dispatch m = concluded (placedOf m.words (m.index + 1) (perform a m.bare)) := by
  obtain ⟨-, hupcoming⟩ := upcoming?_of_ahead_cons hm h
  rw [dispatch_of_upcoming? hm (hupcoming.trans hselect),
    show m.fetched = m.bare.placed m.words (m.index + 1) from rfl, Placeless.perform hpush hbranch]

end

/-! ## Runs -/

/-- A dispatch that carries out a computation which does not depend on the place of its word, and leaves
the counter at `i`. -/
theorem map_seen_resume_succ {x : Step Unit} {i : Int} {fuel : Nat}
    {next : Machine → Option FaultKind × Machine}
    (hd : dispatch m = concluded (placedOf m.words i (x m.bare)))
    (hnext : ∀ u : Machine, dispatch m = .ok .running (u.placed m.words i) → u.halted = false →
      (resume fuel (u.placed m.words i)).map seen = some (next u.bare)) :
    (resume (fuel + 1) m).map seen = some (andThen (x m.bare) next) := by
  rw [resume]
  cases hx : x m.bare with
  | error failure u =>
    rw [hd, hx]
    rfl
  | ok _ u =>
    have hplaced : (u.placed m.words i).halted = u.halted := rfl
    rw [hx, placedOf, concluded, hplaced] at hd
    cases hhalted : u.halted with
    | true =>
      rw [hd, hhalted, andThen, hhalted]
      rfl
    | false =>
      rw [hhalted] at hd
      rw [hd, andThen, hhalted]
      exact hnext u hd hhalted

/-- A run without branches comes to what its words come to from the front. -/
theorem map_seen_resume {fuel : Nat} (hm : WellFormed m) (hhalted : m.halted = false)
    (hstraight : ∀ t ∈ m.ahead, ∀ a, m.behaviour? t = some a → a.branch? = none)
    (hfuel : m.ahead.length < fuel) :
    (resume fuel m).map seen = some (follow m.behaviour? m.letters.score m.ahead m.bare) := by
  induction fuel generalizing m with
  | zero => omega
  | succ fuel ih =>
    -- from a machine that a dispatch leaves with the words `later` ahead, the run goes on alike
    have hgoes : ∀ {u : Machine} {later : List String}, dispatch m = .ok .running u →
        u.halted = false → u.ahead = later → later.length < fuel → (∀ t ∈ later, t ∈ m.ahead) →
        (resume fuel u).map seen =
          some (follow m.behaviour? m.letters.score later u.bare) := by
      rintro u _ hr hu rfl hlength hmem
      have hwell := stable_wellFormed.dispatch m hm
      have hframe : Frame m (left dispatch m) := (stable_frame m).dispatch m (.refl m)
      rw [left, hr, machineOf] at hwell hframe
      rw [← behaviour?_of_frame hframe, ← hframe.letters]
      refine ih hwell hu (fun t ht a ha => ?_) hlength
      rw [behaviour?_of_frame hframe] at ha
      exact hstraight t (hmem t ht) a ha
    cases hahead : m.ahead with
    | nil =>
      rw [resume, dispatch_none (index_of_ahead_nil hm hahead)]
      rfl
    | cons t rest =>
      have hrest := ahead_fetched hm hahead
      rw [hahead] at hstraight hfuel hgoes
      rw [List.length_cons] at hfuel
      cases hselect : m.behaviour? t with
      | none =>
        have hr := dispatch_of_inert hm hahead hselect
        rw [resume, hr, follow_of_none hselect]
        exact hgoes hr hhalted hrest (by omega) fun s hs => List.mem_cons_of_mem _ hs
      | some a =>
        by_cases hpush : a = .push
        · subst hpush
          cases rest with
          | nil =>
            obtain ⟨failure, hr, hkind⟩ := dispatch_of_last_push hm hahead hselect
            rw [resume, hr, follow_of_push_nil hselect, ← hkind]
            rfl
          | cons operand rest =>
            have hfetched := hm.fetched (upcoming?_of_ahead_cons hm hahead).1
            rw [List.length_cons] at hfuel
            rw [follow_of_push hselect]
            refine map_seen_resume_succ (dispatch_of_push hm hahead hselect) fun u hr hu =>
              hgoes hr hu (ahead_fetched hfetched hrest) (by omega) fun s hs => ?_
            exact List.mem_cons_of_mem _ (List.mem_cons_of_mem _ hs)
        · have hbranch := hstraight t List.mem_cons_self a hselect
          rw [follow_of_some hselect hpush]
          refine map_seen_resume_succ (dispatch_of_placeless hm hahead hselect hpush hbranch)
            fun u hr hu => hgoes hr hu hrest (by omega) fun s hs => ?_
          exact List.mem_cons_of_mem _ hs

/-! ## Boundaries -/

/-- Where the next instruction starts, if one starts at `p`: a push takes the word after it. -/
def nextStart (select : String → Option Action) (texts : List String) (p : Nat) : Nat :=
  if texts[p]?.bind select = some .push then p + 2 else p + 1

/-- The positions where instructions start, or where one would start after the last word. -/
inductive IsBoundary (select : String → Option Action) (texts : List String) : Nat → Prop
  | first : IsBoundary select texts 0
  | next {p : Nat} : IsBoundary select texts p → IsBoundary select texts (nextStart select texts p)

variable {select : String → Option Action} {score : String → Value} {texts : List String} {q : Nat}

/-- A boundary that is not the first one is a boundary of what comes after the first instruction. -/
theorem IsBoundary.cases_first (h : IsBoundary select texts q) :
    q = 0 ∨ ∃ p, q = nextStart select texts 0 + p ∧
      IsBoundary select (texts.drop (nextStart select texts 0)) p := by
  induction h with
  | first => exact .inl rfl
  | @next p hp ih =>
    refine .inr ?_
    rcases ih with rfl | ⟨p, rfl, hrest⟩
    · exact ⟨0, rfl, .first⟩
    · refine ⟨_, ?_, hrest.next⟩
      unfold nextStart
      rw [List.getElem?_drop]
      split <;> split <;> omega

theorem nextStart_cons : nextStart select (t :: rest) 0 = if select t = some .push then 2 else 1 := rfl

/-- A word that selects nothing makes no difference at a boundary. -/
theorem follow_insertIdx {w : String} (hw : select w = none) (hq : IsBoundary select texts q)
    (hle : q ≤ texts.length) (m : Machine) :
    follow select score (texts.insertIdx q w) m = follow select score texts m := by
  -- by induction on the number of words, from one instruction to the next
  induction hn : texts.length using Nat.strong_induction_on generalizing texts q m with
  | _ n ih =>
    rcases hq.cases_first with rfl | ⟨p, rfl, hrest⟩
    · exact follow_of_none hw m
    cases texts with
    | nil => exact absurd hle (by simp [nextStart])
    | cons t rest =>
      rw [nextStart_cons] at hrest hle ⊢
      rw [List.length_cons] at hn hle
      by_cases hpush : select t = some .push
      · rw [if_pos hpush] at hrest hle ⊢
        cases rest with
        | nil => exact absurd hle (by simp; omega)
        | cons operand rest =>
          rw [List.length_cons] at hn hle
          rw [show 2 + p = p + 1 + 1 by omega, List.insertIdx_succ_cons, List.insertIdx_succ_cons,
            follow_of_push hpush, follow_of_push hpush]
          congr 1
          funext u
          exact ih rest.length (by omega) (show IsBoundary select rest p from hrest) (by omega) u rfl
      · rw [if_neg hpush] at hrest hle ⊢
        have hih : ∀ u, follow select score (rest.insertIdx p w) u = follow select score rest u :=
          fun u => ih rest.length (by omega) (show IsBoundary select rest p from hrest) (by omega) u rfl
        rw [Nat.add_comm, List.insertIdx_succ_cons]
        cases hselect : select t with
        | none => rw [follow_of_none hselect, follow_of_none hselect, hih]
        | some a =>
          have ha : a ≠ .push := fun h => hpush (h ▸ hselect)
          rw [follow_of_some hselect ha, follow_of_some hselect ha, funext hih]

/-! ## Comments -/

/-- A program without branches ends, and in the way its words come to from the front. -/
theorem exists_resume_start (hm : ∀ a, (m.dictionary.find? a).isSome = true) {program : Program}
    (hstraight : ∀ t ∈ program.map Word.text, ∀ a, m.behaviour? t = some a → a.branch? = none) :
    ∃ o, resume (program.length + 1) (m.start program) = some o ∧
      seen o = follow m.behaviour? m.letters.score (program.map Word.text) (m.start []).bare := by
  have hrun := map_seen_resume (wellFormed_start hm program) rfl hstraight
    (show (program.map Word.text).length < program.length + 1 by rw [List.length_map]; omega)
  exact Option.map_eq_some_iff.1 hrun

/-- **Words that select nothing are comments.**  In a program without branches, such a word can be
inserted between any two instructions, or before the first one or after the last one.  The run ends as it
did before, with the same stack, the same output and the same input left. -/
theorem run_with_comment {program program' : Program} {w : String}
    (hm : ∀ a, (m.dictionary.find? a).isSome = true)
    (hstraight : ∀ v ∈ program, ∀ a, m.behaviour? v.text = some a → a.branch? = none)
    (hw : m.behaviour? w = none) (hq : IsBoundary m.behaviour? (program.map Word.text) q)
    (hle : q ≤ program.length)
    (hinserted : program'.map Word.text = (program.map Word.text).insertIdx q w) :
    ∃ o o', resume (program.length + 1) (m.start program) = some o ∧
      resume (program'.length + 1) (m.start program') = some o' ∧
      (failure? o').map (·.fault.kind) = (failure? o).map (·.fault.kind) ∧
      (machineOf o').stack = (machineOf o).stack ∧
      (machineOf o').halted = (machineOf o).halted ∧
      (machineOf o').sink = (machineOf o).sink ∧
      (machineOf o').source = (machineOf o).source := by
  have hstraight : ∀ t ∈ program.map Word.text, ∀ a, m.behaviour? t = some a → a.branch? = none := by
    simpa using hstraight
  have hle : q ≤ (program.map Word.text).length := by rwa [List.length_map]
  have hstraight' : ∀ t ∈ program'.map Word.text, ∀ a, m.behaviour? t = some a →
      a.branch? = none := by
    intro t ht a ha
    rw [hinserted, List.mem_insertIdx hle] at ht
    rcases ht with rfl | ht
    · rw [hw] at ha
      cases ha
    · exact hstraight t ht a ha
  obtain ⟨o, ho, hseen⟩ := exists_resume_start hm hstraight
  obtain ⟨o', ho', hseen'⟩ := exists_resume_start hm hstraight'
  rw [hinserted, follow_insertIdx hw hq hle, ← hseen] at hseen'
  refine ⟨o, o', ho, ho', ?_⟩
  obtain ⟨hkind, hleft⟩ := Prod.ext_iff.1 hseen'
  exact ⟨hkind, (congrArg stack hleft :), (congrArg halted hleft :), (congrArg sink hleft :),
    (congrArg source hleft :)⟩

/-- The word `zz` selects nothing.  It makes no difference after a push and its operand, and the push at
the end still has no operand. -/
theorem run_with_comment_after_operand :
    IsBoundary (behaviour? {}) ["k", "b", "k"] 2 ∧
    ActionScores.standard.action? (LetterScores.scrabble.score "zz") = none ∧
    ∃ o o', run 4 {} "k b k" = some o ∧ run 5 {} "k b zz k" = some o' ∧
      (failure? o).map (·.fault.kind) = some .counterOutOfBounds ∧
      (failure? o').map (·.fault.kind) = some .counterOutOfBounds ∧
      (machineOf o).stack.items = [3] ∧ (machineOf o').stack.items = [3] := by
  have hq : IsBoundary (behaviour? {}) ["k", "b", "k"] 2 := by
    have hnext : nextStart (behaviour? {}) ["k", "b", "k"] 0 = 2 := by decide +kernel
    exact hnext ▸ .next .first
  have hstraight : ∀ v ∈ Program.ofText "k b k", ∀ a, behaviour? {} v.text = some a →
      a.branch? = none := by
    intro v hv a ha
    have hpush := List.all_eq_true.1 (show (Program.ofText "k b k").all (fun v =>
      (behaviour? {} v.text).all (· = .push)) = true by decide +kernel) v hv
    rw [ha] at hpush
    rw [of_decide_eq_true hpush]
    rfl
  have htexts : (Program.ofText "k b k").map Word.text = ["k", "b", "k"] := by decide +kernel
  have hinserted : (Program.ofText "k b zz k").map Word.text =
      ((Program.ofText "k b k").map Word.text).insertIdx 2 "zz" := by decide +kernel
  have hw : ActionScores.standard.action? (LetterScores.scrabble.score "zz") = none := by
    decide +kernel
  obtain ⟨o, o', ho, ho', hkind, hstack, -⟩ := run_with_comment (m := {}) isSome_find?_builtIn
    hstraight ((behaviour?_of_builtIn rfl "zz").trans hw) (htexts ▸ hq) (by decide +kernel) hinserted
  have hends : (run 4 {} "k b k").map (fun o =>
      ((failure? o).map (·.fault.kind), (machineOf o).stack.items)) =
        some (some .counterOutOfBounds, [3]) := by decide +kernel
  obtain ⟨_, h, hfacts⟩ := Option.map_eq_some_iff.1 hends
  cases ho.symm.trans h
  obtain ⟨hfails, hitems⟩ := Prod.mk.inj hfacts
  exact ⟨hq, hw, o, o', ho, ho', hfails, hkind.trans hfails, hitems, hstack ▸ hitems⟩

end Beatnik.Machine
