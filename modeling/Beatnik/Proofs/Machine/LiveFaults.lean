import Beatnik.Proofs.Machine.Termination

/-!
# Faults that cannot occur

The operations that an action is made of fail in more ways than the action does.  An action that takes
two values off the stack finds room for what it puts on, and a branch back by a distance that is not
negative has a value to move the counter by.  So of the faults that the operations of an action raise
(`Raises`) some are dead, and what is left is listed in `Action.faults`:

    Raises (a.faults ++ a.deadFaults) (perform a)                                     (raises_perform)
    WellFormed m → 0 ≤ m.fetched.currentScore.toInt → perform a m = .error failure m' →
      failure.fault.kind ∈ a.faults                                      (kind_mem_of_perform_error)

Nor does a dispatch fail before it comes to an action, and there is an entry for every action
(`dead_faults`).  The words have to be short in lower case, and the faults belong to what is carried out,
not to the action that it is carried out for (`live_faults_of_lower_case_and_rebinding`).
-/

namespace Beatnik

/-- The kinds of faults that an action can fail with. -/
def Action.faults : Action → List FaultKind
  | .push => [.counterOutOfBounds, .stackOverflow]
  | .pop | .swap => [.stackUnderflow]
  | .add | .subtract => [.stackUnderflow, .arithmeticOverflow]
  | .input => [.transfer, .endOfInput, .stackOverflow]
  | .output => [.stackUnderflow, .invalidCharacter, .transfer]
  | .dup => [.stackUnderflow, .stackOverflow]
  | .forwardIfZero | .forwardIfNonzero | .backwardIfZero | .backwardIfNonzero =>
    [.counterOutOfBounds, .stackUnderflow]
  | .quit => []

/-- The kinds of faults that the operations of an action can fail with, but not the action. -/
def Action.deadFaults : Action → List FaultKind
  | .add | .subtract | .swap => [.stackOverflow]
  | .forwardIfZero | .forwardIfNonzero | .backwardIfZero | .backwardIfNonzero => [.arithmeticOverflow]
  | .push | .pop | .input | .output | .dup | .quit => []

/-- A word of fewer than 2^31 characters in lower case.  Its points add up to a value. -/
def Word.Short (w : Word) : Prop := (Text.lowerText w.text.toList).length < 2 ^ 31

/-- In a text it is enough to count the characters as they are. -/
theorem Word.short_of_mem_scan {path text : String} {w : Word} (hw : w ∈ scan path text)
    (hlength : w.text.length < 2 ^ 31) : w.Short := by
  rwa [Short, (isToken_of_mem_scan hw).length_lowerText]

/-! ## Ways to fail -/

/-- A computation fails in the stated ways only. -/
def FailsOnly {ε σ α : Type} (P : ε → Prop) (x : EStateM ε σ α) : Prop :=
  ∀ s e s', x s = .error e s' → P e

namespace FailsOnly

variable {ε σ α β : Type} {P : ε → Prop}

theorem pure (a : α) : FailsOnly P (Pure.pure a : EStateM ε σ α) := by
  intro s e s' h
  cases h

theorem throw {e : ε} (h : P e) : FailsOnly P (MonadExcept.throw e : EStateM ε σ α) := by
  intro s e' s' he
  cases he
  exact h

theorem bind {x : EStateM ε σ α} {f : α → EStateM ε σ β} (hx : FailsOnly P x)
    (hf : ∀ a, FailsOnly P (f a)) : FailsOnly P (x >>= f) := by
  intro s e s' h
  rcases exists_of_bind_error h with hfirst | ⟨a, u, -, hrest⟩
  · exact hx s e s' hfirst
  · exact hf a u e s' hrest

end FailsOnly

namespace Source

theorem failsOnly_readByte : FailsOnly (fun fault => fault.kind = .transfer) readByte := by
  intro s
  induction s with
  | nil =>
    intro fault s' h
    cases h
  | cons d s ih =>
    intro fault s' h
    cases d with
    | byte b => cases h
    | finished => cases h
    | interrupted => exact ih fault s' h
    | failed reason =>
      cases h
      rfl

theorem failsOnly_readMore (n : Nat) (bytes : List UInt8) :
    FailsOnly (fun fault => fault.kind = .transfer) (readMore n bytes) := by
  induction n generalizing bytes with
  | zero => exact .pure bytes
  | succ n ih =>
    refine failsOnly_readByte.bind fun b => ?_
    cases b with
    | some b => exact ih (bytes ++ [b])
    | none => exact .throw rfl

theorem failsOnly_readChar : FailsOnly (fun fault => fault.kind = .transfer) readChar := by
  refine failsOnly_readByte.bind fun b => ?_
  cases b with
  | none => exact .pure none
  | some first =>
    dsimp only
    cases Text.Utf8.announcedLength first with
    | none => exact .throw rfl
    | some length =>
      refine (failsOnly_readMore (length - 1) [first]).bind fun bytes => ?_
      cases Text.Utf8.decode? bytes with
      | some c => exact .pure (some c)
      | none => exact .throw rfl

end Source

namespace Machine

def Raises (kinds : List FaultKind) {α : Type} (x : Step α) : Prop :=
  FailsOnly (fun failure : Failure => failure.fault.kind ∈ kinds) x

section

variable {kinds : List FaultKind} {α : Type}

theorem raises_fail {fault : Fault} (h : fault.kind ∈ kinds) : Raises kinds (fail fault : Step α) := by
  intro m failure m' hf
  cases hf
  exact h

theorem raises_push (h : .stackOverflow ∈ kinds) (v : Value) : Raises kinds (push v) := by
  intro m failure m' hf
  rw [push, ValueStack.push] at hf
  cases hl : m.stack.limit.filter (· ≤ m.stack.depth) with
  | some limit =>
    rw [hl] at hf
    cases hf
    exact h
  | none =>
    rw [hl] at hf
    cases hf

theorem raises_pop (h : .stackUnderflow ∈ kinds) : Raises kinds pop := by
  intro m failure m' hf
  cases hs : m.stack.items with
  | nil =>
    rw [pop_nil hs] at hf
    exact raises_fail h m failure m' hf
  | cons v rest =>
    obtain ⟨stack, hp, -⟩ := pop_cons hs
    rw [hp] at hf
    cases hf

theorem raises_peek (h : .stackUnderflow ∈ kinds) : Raises kinds peek := by
  intro m failure m' hf
  rw [peek, ValueStack.peek] at hf
  cases hs : m.stack.items with
  | nil =>
    rw [hs] at hf
    cases hf
    exact h
  | cons v rest =>
    rw [hs] at hf
    cases hf

theorem raises_advance (h : .counterOutOfBounds ∈ kinds) (offset : Value) :
    Raises kinds (advance offset) := by
  intro m failure m' hf
  rw [advance] at hf
  split at hf
  · cases hf
  · cases hf
    exact h

theorem raises_readChar (h : .transfer ∈ kinds) : Raises kinds readChar := by
  intro m failure m' hf
  rw [readChar] at hf
  cases hr : Source.readChar m.source with
  | ok c source =>
    rw [hr] at hf
    cases hf
  | error fault source =>
    rw [hr] at hf
    cases hf
    show fault.kind ∈ kinds
    rwa [Source.failsOnly_readChar _ _ _ hr]

theorem raises_writeChar (h : .transfer ∈ kinds) (c : Char) : Raises kinds (writeChar c) := by
  intro m failure m' hf
  rw [writeChar] at hf
  rcases hw : m.sink.write (Text.Utf8.encode c) with ⟨_ | reason, sink⟩
  · rw [hw] at hf
    cases hf
  · rw [hw] at hf
    cases hf
    exact h

theorem raises_arithmetic {operation : Value → Value → Option Value} {fault : Value → Value → Fault}
    (hunder : .stackUnderflow ∈ kinds) (hover : .stackOverflow ∈ kinds)
    (hfault : ∀ a b, (fault a b).kind ∈ kinds) : Raises kinds (arithmetic operation fault) := by
  refine (raises_pop hunder).bind fun b => (raises_pop hunder).bind fun a => ?_
  cases operation a b with
  | some v => exact raises_push hover v
  | none => exact raises_fail (hfault a b)

theorem raises_branch (direction : Direction) (condition : Value → Bool)
    (hcounter : .counterOutOfBounds ∈ kinds) (hunder : .stackUnderflow ∈ kinds)
    (hover : .arithmeticOverflow ∈ kinds) : Raises kinds (branch direction condition) := by
  refine (raises_advance hcounter 1).bind fun distance => (raises_pop hunder).bind fun v => ?_
  cases condition v with
  | false => exact .pure ()
  | true =>
    cases direction.offset? distance with
    | some offset => exact (raises_advance hcounter offset).bind fun _ => .pure ()
    | none => exact raises_fail hover

end

/-- What the operations of an action can fail with. -/
theorem raises_perform (a : Action) : Raises (a.faults ++ a.deadFaults) (perform a) := by
  cases a with
  | push => exact (raises_advance (by decide) 1).bind fun v => raises_push (by decide) v
  | pop => exact (raises_pop (by decide)).bind fun _ => .pure ()
  | add => exact raises_arithmetic (by decide) (by decide) fun _ _ => by simp [Action.faults, Fault.kind]
  | input =>
    refine (raises_readChar (by decide)).bind fun c => ?_
    cases c with
    | some c => exact raises_push (by decide) _
    | none => exact raises_fail (by decide)
  | output =>
    refine (raises_pop (by decide)).bind fun v => ?_
    cases charOfValue? v with
    | some c => exact raises_writeChar (by decide) c
    | none => exact raises_fail (by simp [Action.faults, Fault.kind])
  | subtract =>
    exact raises_arithmetic (by decide) (by decide) fun _ _ => by simp [Action.faults, Fault.kind]
  | swap =>
    refine (raises_pop (by decide)).bind fun a => (raises_pop (by decide)).bind fun b => ?_
    exact (raises_push (by decide) a).bind fun _ => raises_push (by decide) b
  | dup => exact (raises_peek (by decide)).bind fun v => raises_push (by decide) v
  | forwardIfZero => exact raises_branch .forward (· = 0) (by decide) (by decide) (by decide)
  | forwardIfNonzero => exact raises_branch .forward (· ≠ 0) (by decide) (by decide) (by decide)
  | backwardIfZero => exact raises_branch .backward (· = 0) (by decide) (by decide) (by decide)
  | backwardIfNonzero => exact raises_branch .backward (· ≠ 0) (by decide) (by decide) (by decide)
  | quit =>
    intro m failure m' h
    cases h

/-! ## Dead faults -/

variable {m m' : Machine} {failure : Failure}

/-- What raises one kind of fault does not fail with another. -/
theorem Raises.ne_error {kind : FaultKind} {α : Type} {x : Step α} (h : Raises [kind] x)
    (hkind : failure.fault.kind ≠ kind) : x m ≠ .error failure m' := fun hf =>
  hkind (List.mem_singleton.1 (h m failure m' hf))

/-- A branch that does not find a value to move the counter by has the smallest value for its
distance. -/
theorem distance_of_arithmeticOverflow {direction : Direction} {condition : Value → Bool}
    (hf : branch direction condition m = .error failure m')
    (hkind : failure.fault.kind = .arithmeticOverflow) :
    m.fetched.currentScore.toInt = Value.least := by
  have hcounter : ∀ {offset : Value} {u : Machine}, advance offset u ≠ .error failure m' :=
    (raises_advance (List.mem_singleton.2 rfl) _).ne_error (by rw [hkind]; decide)
  have hunder : ∀ {u : Machine}, pop u ≠ .error failure m' :=
    (raises_pop (List.mem_singleton.2 rfl)).ne_error (by rw [hkind]; decide)
  rcases exists_of_bind_error hf with hfetch | ⟨distance, u, hu, hf⟩
  · exact absurd hfetch hcounter
  obtain ⟨rfl, rfl⟩ := nextScore_ok hu
  rcases exists_of_bind_error hf with hpop | ⟨v, u, -, hf⟩
  · exact absurd hpop hunder
  cases hc : condition v with
  | false =>
    rw [hc] at hf
    cases hf
  | true =>
    rw [hc] at hf
    cases ho : direction.offset? m.fetched.currentScore with
    | some offset =>
      rw [ho] at hf
      rcases exists_of_bind_error hf with hmove | ⟨score, w, -, hf⟩
      · exact absurd hmove hcounter
      · cases hf
    | none =>
      cases direction with
      | forward => cases ho
      | backward =>
        rcases offset?_backward m.fetched.currentScore with ⟨hleast, -⟩ | ⟨-, offset, hsome, -⟩
        · exact hleast
        · rw [ho] at hsome
          cases hsome

theorem arithmeticOverflow_not_mem_faults {a : Action} {b : Direction × (Value → Bool)}
    (h : a.branch? = some b) : .arithmeticOverflow ∉ a.faults := by
  cases a <;> cases h <;> decide

theorem cases_of_mem_deadFaults {a : Action} {kind : FaultKind} (h : kind ∈ a.deadFaults) :
    (kind = .stackOverflow ∧ (a = .add ∨ a = .subtract ∨ a = .swap)) ∨
      (kind = .arithmeticOverflow ∧ ∃ b, a.branch? = some b) := by
  cases a <;> simp [Action.deadFaults, Action.branch?] at h ⊢ <;> exact h

/-- An action of a machine within its bounds fails with none of its dead faults, if the word after the
counter does not have a negative score. -/
theorem kind_mem_of_perform_error {a : Action} (h : WellFormed m)
    (hscore : 0 ≤ m.fetched.currentScore.toInt) (hf : perform a m = .error failure m') :
    failure.fault.kind ∈ a.faults := by
  rcases List.mem_append.1 (raises_perform a m failure m' hf) with hlive | hdead
  · exact hlive
  rcases cases_of_mem_deadFaults hdead with ⟨hkind, ha⟩ | ⟨hkind, ⟨direction, condition⟩, ha⟩
  · -- a stack that was within its limit has room for what was taken off
    have hraises := ((perform_error h hf).overflow hkind).1
    rcases ha with rfl | rfl | rfl <;> simp at hraises
  · rw [perform_of_branch? ha] at hf
    have hleast := distance_of_arithmeticOverflow hf hkind
    rw [hleast] at hscore
    exact absurd hscore (by decide)

/-! ## Machines -/

/-- No word of a program of short words has a negative score. -/
theorem currentScore_nonneg (h : ∀ w ∈ m.words, w.Short) : 0 ≤ m.currentScore.toInt := by
  rw [currentScore]
  cases hw : m.current? with
  | none => exact Int.le_refl 0
  | some w =>
    have hlt : (Text.lowerText w.text.toList).length < 2 ^ 31 := h w (mem_of_current? hw)
    show 0 ≤ (m.letters.score w.text).toInt
    rw [LetterScores.toInt_score_of_lt hlt]
    omega

/-- With a word left, the fetch at the start of a dispatch succeeds. -/
theorem nextScore_of_ne (h : WellFormed m) (hne : m.index ≠ m.words.size - 1) :
    nextScore m = .ok m.fetched.currentScore m.fetched := by
  have hwell := h.fetched hne
  have hin : -1 ≤ m.index + 1 ∧ m.index + 1 < m.words.size := ⟨hwell.index_ge, hwell.index_lt⟩
  rw [nextScore, advance, Int64.toInt_one, if_pos hin]
  rfl

/-- **Dead faults.**  Take a machine that calls can lead to, whatever behaviours its actions have been given,
with a program of words of fewer than 2^31 characters in lower case.  Adding, subtracting and swapping
values never find the stack full.  No branch finds its distance out of range, as it is not negative.  A dispatch that finds a
word left fetches it, so that it fails only in what that word selects.  And every action has an entry, so
that it is carried out. -/
theorem dead_faults (h : Reachable m) (hwords : ∀ w ∈ m.words, w.Short) :
    (∀ a failure m', a = .add ∨ a = .subtract ∨ a = .swap → perform a m = .error failure m' →
      failure.fault.kind ≠ .stackOverflow) ∧
    (∀ a direction condition failure m', a.branch? = some (direction, condition) →
      perform a m = .error failure m' → failure.fault.kind ≠ .arithmeticOverflow) ∧
    (∀ distance m', nextScore m = .ok distance m' → 0 ≤ distance.toInt) ∧
    (m.index ≠ m.words.size - 1 → nextScore m = .ok m.fetched.currentScore m.fetched) ∧
    (∀ failure m', dispatch m = .error failure m' → ∃ a, m.upcoming? = some a ∧
      perform a m.fetched = .error failure m' ∧ failure.fault.kind ∈ a.faults) ∧
    ∀ a, ∃ e, m.dictionary.find? a = some e ∧ execute a m = concluded (perform e.behaviour m) ∧
      ∀ failure m', execute a m = .error failure m' → failure.fault.kind ∈ e.behaviour.faults := by
  have hwell := h.wellFormed
  have hscore : 0 ≤ m.fetched.currentScore.toInt := currentScore_nonneg (m := m.fetched) hwords
  refine ⟨fun a failure m' ha hf => ?_, fun a direction condition failure m' ha hf => ?_,
    fun distance m' hd => ?_, nextScore_of_ne hwell, fun failure m' hf => ?_, fun a => ?_⟩
  · intro hkind
    have hmem := kind_mem_of_perform_error hwell hscore hf
    rw [hkind] at hmem
    rcases ha with rfl | rfl | rfl <;> exact absurd hmem (by decide)
  · intro hkind
    have hmem := kind_mem_of_perform_error hwell hscore hf
    rw [hkind] at hmem
    exact arithmeticOverflow_not_mem_faults ha hmem
  · obtain ⟨-, rfl⟩ := nextScore_ok hd
    exact hscore
  · obtain ⟨a, hselected, hfetched, hp⟩ := perform_of_dispatch_error hwell hf
    have hnext : 0 ≤ m.fetched.fetched.currentScore.toInt :=
      currentScore_nonneg (m := m.fetched.fetched) hwords
    exact ⟨a, hselected, hp, kind_mem_of_perform_error hfetched hnext hp⟩
  · obtain ⟨e, he⟩ := Option.isSome_iff_exists.1 (hwell.complete a)
    refine ⟨e, he, execute_of_find? he, fun failure m' hf => ?_⟩
    rw [execute_of_find? he] at hf
    cases hp : perform e.behaviour m with
    | ok u v =>
      rw [hp] at hf
      cases hf
    | error failure' v =>
      rw [hp] at hf
      cases hf
      exact kind_mem_of_perform_error hwell hscore hp

/-- The stack is full, and `quit` has been given the behaviour of `swap`.  The next word selects `quit`: the
swap finds room, and the values have changed places. -/
theorem dead_faults_full_stack :
    ∃ m m', Reachable m ∧ (∀ w ∈ m.words, w.Short) ∧
      m.stack.limit = some 2 ∧ m.stack.items = [7, 3] ∧ m.upcoming? = some .swap ∧
      m.index ≠ m.words.size - 1 ∧ nextScore m = .ok 17 m.fetched ∧
      (∀ failure u, perform .swap m = .error failure u → failure.fault.kind ≠ .stackOverflow) ∧
      (∀ failure u, perform .backwardIfZero m = .error failure u →
        failure.fault.kind ≠ .arithmeticOverflow) ∧
      (∃ e, m.dictionary.find? .quit = some e ∧ execute .quit m = concluded (perform e.behaviour m)) ∧
      dispatch m = .ok .running m' ∧ m'.stack.items = [3, 7] := by
  have hstart : Reachable _ := .start (.ofText "zfc a")
    (.rebind .quit .swap "" "" (.fresh .scrabble .standard (some 2) [] {}))
  have hm := (hstart.call (.push 3)).call (.push 7)
  generalize hu : left (push 7) (left (push 3) _) = m at hm
  have hfacts : m.words = (Program.ofText "zfc a").toArray ∧ m.stack.limit = some 2 ∧
      m.stack.items = [7, 3] ∧ m.upcoming? = some .swap ∧ m.index ≠ m.words.size - 1 ∧
      m.fetched.currentScore = 17 ∧ (left dispatch m).stack.items = [3, 7] ∧
      (failure? (dispatch m)).isNone = true ∧ (outcome? (dispatch m)).isNone = true := by
    subst hu
    decide +kernel
  obtain ⟨hprogram, hlimit, hitems, hselected, hindex, hscore, hswapped, hok, hruns⟩ := hfacts
  have hwords : ∀ w ∈ m.words, w.Short := by
    intro w hw
    rw [hprogram, List.mem_toArray] at hw
    have hlength := List.all_eq_true.1 (show (Program.ofText "zfc a").all (fun w =>
      w.text.length < 2 ^ 31) = true by decide +kernel) w hw
    exact Word.short_of_mem_scan hw (of_decide_eq_true hlength)
  obtain ⟨hswap, hbranch, -, hfetch, -, hexecute⟩ := dead_faults hm hwords
  obtain ⟨e, he, hquit, -⟩ := hexecute .quit
  rcases hr : dispatch m with ⟨_ | _, m'⟩ | ⟨failure, m'⟩
  · rw [left, hr] at hswapped
    refine ⟨m, m', hm, hwords, hlimit, hitems, hselected, hindex, hscore ▸ hfetch hindex, ?_, ?_,
      ⟨e, he, hquit⟩, hr, hswapped⟩
    · exact fun failure u => hswap .swap failure u (.inr (.inr rfl))
    · exact fun failure u => hbranch .backwardIfZero _ _ failure u rfl
  · rw [hr] at hruns
    cases hruns
  · rw [hr] at hok
    cases hok

/-- A table in which both parts of the lower case of `İ` have the largest number of points. -/
def dottedLetters : LetterScores := .ofList [('İ', 4294967295), ('a', 2147483648)]

def dottedWord : Word := ⟨.start "", Word.longText (2 ^ 30) 'İ' 'a'⟩

/-- The points of the word add up to 2^63. -/
theorem toInt_score_dottedWord : (dottedLetters.score dottedWord.text).toInt = Value.least := by
  have hdotted : dottedLetters.share 'İ' = 8589934590 := by decide +kernel
  have hlast : dottedLetters.share 'a' = 2147483648 := by decide +kernel
  rw [LetterScores.score, dottedWord, LetterScores.total_longText, hdotted, hlast]
  decide +kernel

/-- Faults of words that are short only before they are put in lower case, and of actions with another
behaviour.  The character `İ` becomes two in lower case.  With 2^30 of them and one `a`, which make fewer
than 2^31 characters, the points of a word add up to 2^63, so that the opposite of its score is no value.
And `add` finds the stack full, once it has been given the behaviour of `dup`. -/
theorem live_faults_of_lower_case_and_rebinding :
    (∃ (m m' : Machine) (failure : Failure), Reachable m ∧ (∀ w ∈ m.words, w.text.length < 2 ^ 31) ∧
      m.dictionary = .builtIn ∧ perform .backwardIfZero m = .error failure m' ∧
      failure.fault.kind = .arithmeticOverflow) ∧
    ∃ (m m' : Machine) (failure : Failure), Reachable m ∧ m.words = #[] ∧
      execute .add m = .error failure m' ∧ failure.fault.kind = .stackOverflow := by
  constructor
  · have hm : Reachable (left (push 0) (load { letters := dottedLetters } [dottedWord])) :=
      (Reachable.load [dottedWord] (.fresh dottedLetters .standard none [] {})).call (.push 0)
    have hideal : (left (push 0) (load { letters := dottedLetters } [dottedWord])).ideal =
        .plain [Value.least] (-1) [0] := by
      rw [← toInt_score_dottedWord]
      rfl
    have hperform := idealOf_perform hm.wellFormed .backwardIfZero
    rw [hideal] at hperform
    have hout : (Ideal.plain [Value.least] (-1) [0]).act .backwardIfZero =
        (.error .arithmeticOverflow, .plain [Value.least] 0 []) := rfl
    obtain ⟨failure, m', hm', hkind, -⟩ := idealOf_eq_error (hperform.trans hout)
    refine ⟨_, m', failure, hm, ?_, rfl, hm', hkind⟩
    intro w hw
    rw [show w = dottedWord from List.mem_singleton.1 (Array.mem_toList_iff.2 hw), dottedWord,
      Word.length_longText]
    decide
  · have hm := (Reachable.rebind .add .dup "" ""
      (.fresh .scrabble .standard (some 1) [] {})).call (.push 1)
    exact ⟨_, _, _, hm, rfl, rfl, rfl⟩

end Machine

end Beatnik
