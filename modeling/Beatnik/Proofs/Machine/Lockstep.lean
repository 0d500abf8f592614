import Beatnik.Proofs.Machine.Course

/-!
# Two machines in lockstep

Two runs are compared by a relation `R` between their machines.  A computation goes alike on both if it
gives the same result, or the same fault at the words last fetched, and leaves related machines
(`Agree`).  The second machine may be the more restricted one: it may also fail where the first one goes
on, and then `E` relates the first machine, from there on, to the failure (`Agrees`).

If the operations of the machine go alike, then so do all actions and dispatches, and whole runs up to
the dispatch at which the second one fails:

    Lockstep R E → Agrees R E (perform a)                                       (Lockstep.perform)
    Agrees R E dispatch → R m n → Agree R (after k m) (after k n) ∨ …              (Agrees.after)
-/

namespace Beatnik.Machine

/-! ## Computations that go alike -/

/-- Two results of computations that went alike. -/
inductive Agree (R : Machine → Machine → Prop) {α : Type} :
    EStateM.Result Failure Machine α → EStateM.Result Failure Machine α → Prop
  | ok (a : α) {m n : Machine} : R m n → Agree R (.ok a m) (.ok a n)
  | error (fault : Fault) {m n : Machine} : R m n →
      Agree R (.error ⟨fault, m.here⟩ m) (.error ⟨fault, n.here⟩ n)

theorem Agree.machineOf {R : Machine → Machine → Prop} {α : Type}
    {r s : EStateM.Result Failure Machine α} (h : Agree R r s) : R (machineOf r) (machineOf s) := by
  cases h with
  | ok a h => exact h
  | error fault h => exact h

theorem Agree.location {R : Machine → Machine → Prop} {α : Type} {failure : Failure} {m : Machine}
    {s : EStateM.Result Failure Machine α} (h : Agree R (.error failure m) s) :
    failure.location = m.here := by
  cases h with
  | error fault _ => rfl

theorem Agree.symm {R : Machine → Machine → Prop} {α : Type}
    {r s : EStateM.Result Failure Machine α} (h : Agree R r s) : Agree (fun n m => R m n) s r := by
  cases h with
  | ok a h => exact .ok a h
  | error fault h => exact .error fault h

/-- If the second machine is given by the first one and at the same place, then so is its result. -/
theorem Agree.eq_onMachine {R : Machine → Machine → Prop} {α : Type} {f : Machine → Machine}
    {r s : EStateM.Result Failure Machine α} (h : Agree R r s)
    (hf : Machine.machineOf s = f (Machine.machineOf r))
    (hhere : (Machine.machineOf s).here = (Machine.machineOf r).here) : s = onMachine f r := by
  cases h with
  | ok a _ => exact congrArg (EStateM.Result.ok a) hf
  | error fault _ =>
    simp only [Machine.machineOf] at hf hhere
    rw [hhere, hf]
    rfl

/-- A computation goes alike on related machines, or fails on the second one. -/
def Agrees (R : Machine → Machine → Prop) (E : Machine → Failure → Machine → Prop) {α : Type}
    (x : Step α) : Prop :=
  ∀ m n, R m n → Agree R (x m) (x n) ∨
    ∃ failure n', x n = .error failure n' ∧ E (left x m) failure n'

section

variable {R : Machine → Machine → Prop} {E : Machine → Failure → Machine → Prop} {α β : Type}

theorem left_bind_ok {x : Step α} {f : α → Step β} {m m' : Machine} {a : α} (h : x m = .ok a m') :
    left (x >>= f) m = left (f a) m' := by
  rw [left, bind_ok h]
  rfl

theorem left_bind_error {x : Step α} {f : α → Step β} {m m' : Machine} {e : Failure}
    (h : x m = .error e m') : left (x >>= f) m = m' := by
  rw [left, bind_error h]
  rfl

namespace Agrees

theorem pure (a : α) : Agrees R E (Pure.pure a : Step α) := fun _ _ h => .inl (.ok a h)

theorem fail (fault : Fault) : Agrees R E (Machine.fail fault : Step α) :=
  fun _ _ h => .inl (.error fault h)

/-- If the second machine has failed, the first one may go on, as long as that keeps `E`. -/
theorem bind {x : Step α} {f : α → Step β} (hx : Agrees R E x) (hf : ∀ a, Agrees R E (f a))
    (hE : ∀ failure n' a, Preserves (E · failure n') (f a)) : Agrees R E (x >>= f) := by
  intro m n hmn
  rcases hx m n hmn with hagree | ⟨failure, n', hn, he⟩
  · generalize hm : x m = r, hn : x n = s at hagree
    cases hagree with
    | ok a h =>
      rw [bind_ok hm, bind_ok hn, left_bind_ok hm]
      exact hf a _ _ h
    | error fault h =>
      rw [bind_error hm, bind_error hn]
      exact .inl (.error fault h)
  · refine .inr ⟨failure, n', bind_error hn, ?_⟩
    rw [left] at he
    cases hm : x m with
    | ok a m' =>
      rw [hm] at he
      rw [left_bind_ok hm]
      exact hE failure n' a m' he
    | error e m' =>
      rw [hm] at he
      rw [left_bind_error hm]
      exact he

/-! ### Operations that look at one part of the machine -/

theorem peek (hpeek : ∀ {m n : Machine}, R m n → m.stack.peek = n.stack.peek) :
    Agrees R E Machine.peek := by
  intro m n h
  rw [Machine.peek, Machine.peek, hpeek h]
  cases n.stack.peek with
  | ok v => exact .inl (.ok v h)
  | error fault => exact .inl (.error fault h)

theorem advance (offset : Value) (hindex : ∀ {m n : Machine}, R m n → m.index = n.index)
    (hsize : ∀ {m n : Machine}, R m n → m.words.size = n.words.size)
    (hscore : ∀ {m n : Machine}, R m n → m.currentScore = n.currentScore)
    (hmove : ∀ {m n : Machine} (i : Int), R m n → R { m with index := i } { n with index := i }) :
    Agrees R E (Machine.advance offset) := by
  intro m n h
  rw [Machine.advance, Machine.advance, hindex h, hsize h]
  by_cases hc : -1 ≤ n.index + offset.toInt ∧ n.index + offset.toInt < n.words.size
  · have hmoved := hmove (n.index + offset.toInt) h
    rw [if_pos hc, if_pos hc]
    dsimp only
    rw [hscore hmoved]
    exact .inl (.ok _ hmoved)
  · rw [if_neg hc, if_neg hc]
    exact .inl (.error _ h)

theorem readChar (hsource : ∀ {m n : Machine}, R m n → m.source = n.source)
    (hset : ∀ {m n : Machine} (source : Source), R m n → R { m with source } { n with source }) :
    Agrees R E Machine.readChar := by
  intro m n h
  rw [Machine.readChar, Machine.readChar, hsource h]
  cases Source.readChar n.source with
  | ok c source => exact .inl (.ok c (hset source h))
  | error fault source =>
    exact .inl (.error (m := { m with source }) (n := { n with source }) fault (hset source h))

theorem writeChar (c : Char) (hsink : ∀ {m n : Machine}, R m n → m.sink = n.sink)
    (hset : ∀ {m n : Machine} (sink : Sink), R m n → R { m with sink } { n with sink }) :
    Agrees R E (Machine.writeChar c) := by
  intro m n h
  rw [Machine.writeChar, Machine.writeChar, hsink h]
  rcases n.sink.write (Text.Utf8.encode c) with ⟨_ | reason, sink⟩
  · exact .inl (.ok () (hset sink h))
  · exact .inl (.error (m := { m with sink }) (n := { n with sink }) (.transfer reason) (hset sink h))

end Agrees

/-! ## Actions and dispatches -/

/-- With a word left, a dispatch fetches it and then carries out what its score selects. -/
theorem dispatch_of_ne {m : Machine} (h : m.index ≠ m.words.size - 1) :
    dispatch m = (nextScore >>= fun score => (m.actions.action? score).elim
      (pure .running) execute : Step Progress) m := by
  show (if m.index = m.words.size - 1 then (pure .stopped : Step Progress) else _) m = _
  rw [if_neg h]
  refine congrFun (congrArg (nextScore >>= ·) (funext fun score => ?_)) m
  cases m.actions.action? score <;> rfl

/-- The operations of the machine go alike on related machines, and so does what an action looks up.
After the second machine has failed, no operation of the first one makes `E` wrong. -/
structure Lockstep (R : Machine → Machine → Prop) (E : Machine → Failure → Machine → Prop) : Prop where
  push : ∀ v, Agrees R E (push v)
  pop : Agrees R E pop
  peek : Agrees R E peek
  advance : ∀ offset, Agrees R E (advance offset)
  halt : Agrees R E halt
  readChar : Agrees R E readChar
  writeChar : ∀ c, Agrees R E (writeChar c)
  stable : ∀ failure n', Stable (E · failure n')
  dictionary : ∀ {m n}, R m n → m.dictionary = n.dictionary
  halted : ∀ {m n}, R m n → m.halted = n.halted

namespace Lockstep

variable (h : Lockstep R E)

include h

theorem composed {x : Step α} (hx : Composed x) : Agrees R E x := by
  induction hx with
  | pure a => exact .pure a
  | fail fault => exact .fail fault
  | bind _ hf ihx ihf => exact ihx.bind ihf fun failure n' a => (h.stable failure n').composed (hf a)
  | push v => exact h.push v
  | pop => exact h.pop
  | peek => exact h.peek
  | advance offset => exact h.advance offset
  | halt => exact h.halt
  | readChar => exact h.readChar
  | writeChar c => exact h.writeChar c

theorem perform (a : Action) : Agrees R E (Machine.perform a) := h.composed (composed_perform a)

theorem execute (a : Action) : Agrees R E (Machine.execute a) := by
  intro m n hmn
  have hdictionary := h.dictionary hmn
  cases hm : m.dictionary.find? a with
  | none =>
    have hmiss : ∀ {m : Machine}, m.dictionary.find? a = none →
        Machine.execute a m = .ok .running m := by
      intro m hm
      rw [Machine.execute, bind_ok (get_eq m), hm]
      rfl
    rw [hmiss hm, hmiss (hdictionary ▸ hm)]
    exact .inl (.ok _ hmn)
  | some e =>
    have hn : n.dictionary.find? a = some e := hdictionary ▸ hm
    rcases h.perform e.behaviour m n hmn with hagree | ⟨failure, n', hpn, he⟩
    · generalize hpm : Machine.perform e.behaviour m = r,
        hpn : Machine.perform e.behaviour n = s at hagree
      cases hagree with
      | ok u hleft =>
        rw [execute_ok hm hpm, execute_ok hn hpn, h.halted hleft]
        exact .inl (.ok _ hleft)
      | error fault hleft =>
        rw [execute_error hm hpm, execute_error hn hpn]
        exact .inl (.error fault hleft)
    · refine .inr ⟨failure, n', execute_error hn hpn, ?_⟩
      rw [left] at he ⊢
      cases hpm : Machine.perform e.behaviour m with
      | ok u m' =>
        rw [hpm] at he
        rwa [execute_ok hm hpm]
      | error failure' m' =>
        rw [hpm] at he
        rwa [execute_error hm hpm]

/-- With a word left to both, dispatches go alike on machines that also agree on what scores select. -/
theorem fetching {m n : Machine} (hmn : R m n) (hactions : m.actions = n.actions)
    (hm : m.index ≠ m.words.size - 1) (hn : n.index ≠ n.words.size - 1) :
    Agree R (Machine.dispatch m) (Machine.dispatch n) ∨
      ∃ failure n', Machine.dispatch n = .error failure n' ∧ E (left Machine.dispatch m) failure n' := by
  rw [left, dispatch_of_ne hm, dispatch_of_ne hn, hactions]
  refine (h.advance 1).bind (fun score => ?_) (fun failure n' score => ?_) m n hmn
  · cases n.actions.action? score with
    | none => exact .pure _
    | some a => exact h.execute a
  · cases n.actions.action? score with
    | none => exact .pure _
    | some a => exact (h.stable failure n').execute a

/-- Dispatches go alike on machines that also agree on whether there is a word left. -/
theorem dispatch (hactions : ∀ {m n}, R m n → m.actions = n.actions)
    (hlast : ∀ {m n}, R m n → (m.index = m.words.size - 1 ↔ n.index = n.words.size - 1)) :
    Agrees R E Machine.dispatch := by
  intro m n hmn
  by_cases hm : m.index = m.words.size - 1
  · rw [dispatch_none hm, dispatch_none ((hlast hmn).1 hm)]
    exact .inl (.ok _ hmn)
  · exact h.fetching hmn (hactions hmn) hm fun hn => hm ((hlast hmn).2 hn)

end Lockstep

/-! ## Runs -/

/-- Runs go alike up to a dispatch at which the second one fails, if there is one. -/
theorem Agrees.after (h : Agrees R E dispatch) {m n : Machine} (hmn : R m n) (k : Nat) :
    Agree R (Machine.after k m) (Machine.after k n) ∨
      ∃ j u v failure n', j < k ∧ Machine.after j m = .ok .running u ∧
        Machine.after j n = .ok .running v ∧ R u v ∧ dispatch v = .error failure n' ∧
        E (left dispatch u) failure n' := by
  induction k with
  | zero => exact .inl (.ok _ hmn)
  | succ k ih =>
    rcases ih with hagree | ⟨j, u, v, failure, n', hj, hrest⟩
    · generalize hm : Machine.after k m = r, hn : Machine.after k n = s at hagree
      cases hagree with
      | @ok progress u v huv =>
        cases progress with
        | running =>
          rw [after_succ_of_running hm, after_succ_of_running hn]
          rcases h u v huv with hagree | ⟨failure, n', hv, he⟩
          · exact .inl hagree
          · exact .inr ⟨k, u, v, failure, n', by omega, hm, hn, huv, hv, he⟩
        | stopped =>
          rw [after_succ_of_ended (by rw [hm]; rfl), after_succ_of_ended (by rw [hn]; rfl), hm, hn]
          exact .inl (.ok _ huv)
      | error fault huv =>
        rw [after_succ_of_ended (by rw [hm]; rfl), after_succ_of_ended (by rw [hn]; rfl), hm, hn]
        exact .inl (.error fault huv)
    · exact .inr ⟨j, u, v, failure, n', by omega, hrest⟩

/-- Without failures of the second machine alone, results and whole runs go alike. -/
theorem Agrees.agree {x : Step α} (h : Agrees R (fun _ _ _ => False) x) {m n : Machine}
    (hmn : R m n) : Agree R (x m) (x n) := by
  rcases h m n hmn with hagree | ⟨_, _, -, hfalse⟩
  · exact hagree
  · exact hfalse.elim

theorem Agrees.agree_after (h : Agrees R (fun _ _ _ => False) dispatch) {m n : Machine}
    (hmn : R m n) (k : Nat) : Agree R (Machine.after k m) (Machine.after k n) := by
  rcases h.after hmn k with hagree | ⟨_, _, _, _, _, -, -, -, -, -, hfalse⟩
  · exact hagree
  · exact hfalse.elim

/-- Runs that go alike end alike. -/
theorem Agree.outcome? {r s : EStateM.Result Failure Machine Progress} (h : Agree R r s) :
    Option.Rel (Agree R) (Machine.outcome? r) (Machine.outcome? s) := by
  cases h with
  | ok progress h =>
    cases progress with
    | running => exact .none
    | stopped => exact .some (.ok () h)
  | error fault h => exact .some (.error fault h)

end

end Beatnik.Machine
