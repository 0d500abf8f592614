import Beatnik.Proofs.Machine.Counter
import Beatnik.Proofs.Machine.Demand
import Beatnik.Proofs.Machine.Endings

/-!
# What failures leave behind

An action that fails has done part of its work by then, and values that it has popped stay popped
(`Footprint`).  The operations of the machine fail before they have changed the stack, so that a sequence
of them leaves what the operations before the failing one have done:

    FailsWithin 0 x → Takes p x → (∀ a, FailsWithin q (g a)) → FailsWithin (p + q) (x >>= g)
                                                                                  (FailsWithin.bind)

No action pushes a value and fails after that.  For `swap`, which pushes twice, this is because it has
made room for both values before (`footprint_of_swap_error`).
-/

namespace Beatnik

/-- How many values an action has popped at most when it fails. -/
def Action.popped : Action → Nat
  | .add | .subtract => 2
  | .output | .swap | .forwardIfZero | .forwardIfNonzero | .backwardIfZero | .backwardIfNonzero => 1
  | .push | .pop | .input | .dup | .quit => 0

theorem Action.popped_le (a : Action) : a.popped ≤ 2 := by cases a <;> decide

theorem Sink.fitting_prefix (s : Sink) (bytes : List UInt8) : s.fitting bytes <+: bytes := by
  rw [fitting]
  cases s.room with
  | none => exact List.prefix_refl bytes
  | some n => exact List.take_prefix n bytes

namespace Machine

/-! ## Footprints -/

/-- Some values have been popped, and none has been pushed. -/
structure Footprint (popped : Nat) (m m' : Machine) : Prop where
  items : ∃ removed, removed.length = popped ∧ m.stack.items = removed ++ m'.stack.items
  deepest : m'.stack.deepest = m.stack.deepest
  halted : m'.halted = m.halted

variable {p q : Nat} {m u m' : Machine}

theorem Footprint.of_eq (hstack : m'.stack = m.stack) (hhalted : m'.halted = m.halted) :
    Footprint 0 m m' :=
  ⟨⟨[], rfl, by rw [hstack]; rfl⟩, by rw [hstack], hhalted⟩

theorem Footprint.trans (h : Footprint p m u) (h' : Footprint q u m') : Footprint (p + q) m m' := by
  obtain ⟨removed, hlength, hitems⟩ := h.items
  obtain ⟨removed', hlength', hitems'⟩ := h'.items
  refine ⟨⟨removed ++ removed', ?_, ?_⟩, h'.deepest.trans h.deepest, h'.halted.trans h.halted⟩
  · rw [List.length_append, hlength, hlength']
  · rw [hitems, hitems', List.append_assoc]

/-- A computation that succeeds has popped so many values. -/
def Takes (p : Nat) {α : Type} (x : Step α) : Prop :=
  ∀ m a m', x m = .ok a m' → Footprint p m m'

/-- A computation that fails has popped at most so many values. -/
def FailsWithin (p : Nat) {α : Type} (x : Step α) : Prop :=
  ∀ m failure m', x m = .error failure m' → ∃ q ≤ p, Footprint q m m'

namespace FailsWithin

variable {α β : Type}

/-- A computation that has changed nothing of the stack when it fails. -/
theorem of_unchanged {x : Step α} (h : ∀ m failure m', x m = .error failure m' →
    m'.stack = m.stack ∧ m'.halted = m.halted) : FailsWithin p x := by
  intro m failure m' hx
  obtain ⟨hstack, hhalted⟩ := h m failure m' hx
  exact ⟨0, Nat.zero_le p, .of_eq hstack hhalted⟩

theorem pure (a : α) : FailsWithin p (Pure.pure a : Step α) :=
  of_unchanged fun _ _ _ h => by cases h

theorem fail (fault : Fault) : FailsWithin p (Machine.fail fault : Step α) :=
  of_unchanged fun _ _ _ h => by cases h; exact ⟨rfl, rfl⟩

/-- What a sequence leaves when it fails. -/
theorem bind {x : Step α} {g : α → Step β} (hx : FailsWithin 0 x) (ht : Takes p x)
    (hg : ∀ a, FailsWithin q (g a)) : FailsWithin (p + q) (x >>= g) := by
  intro m failure m' h
  rcases exists_of_bind_error h with hfirst | ⟨a, u, hu, hrest⟩
  · obtain ⟨n, hn, hleft⟩ := hx m failure m' hfirst
    exact ⟨n, by omega, hleft⟩
  · obtain ⟨n, hn, hleft⟩ := hg a u failure m' hrest
    exact ⟨p + n, by omega, (ht m a u hu).trans hleft⟩

theorem bind_pure {x : Step α} (hx : FailsWithin p x) :
    FailsWithin p (x >>= fun _ => (Pure.pure () : Step Unit)) := by
  intro m failure m' h
  rcases exists_of_bind_error h with hfirst | ⟨a, u, -, hrest⟩
  · exact hx m failure m' hfirst
  · cases hrest

theorem push (v : Value) : FailsWithin p (Machine.push v) := by
  refine of_unchanged fun m failure m' h => ?_
  rw [Machine.push] at h
  cases hp : m.stack.push v with
  | ok stack => rw [hp] at h; cases h
  | error fault => rw [hp] at h; cases h; exact ⟨rfl, rfl⟩

theorem pop : FailsWithin p Machine.pop := by
  refine of_unchanged fun m failure m' h => ?_
  rw [Machine.pop] at h
  cases hp : m.stack.pop with
  | ok r => rw [hp] at h; cases h
  | error fault => rw [hp] at h; cases h; exact ⟨rfl, rfl⟩

theorem peek : FailsWithin p Machine.peek := by
  refine of_unchanged fun m failure m' h => ?_
  rw [Machine.peek] at h
  cases hp : m.stack.peek with
  | ok v => rw [hp] at h; cases h
  | error fault => rw [hp] at h; cases h; exact ⟨rfl, rfl⟩

theorem advance (offset : Value) : FailsWithin p (Machine.advance offset) := by
  refine of_unchanged fun m failure m' h => ?_
  rw [Machine.advance] at h
  split at h
  · cases h
  · cases h
    exact ⟨rfl, rfl⟩

theorem readChar : FailsWithin p Machine.readChar := by
  refine of_unchanged fun m failure m' h => ?_
  obtain ⟨source, he⟩ := left_readChar m
  rw [left, h] at he
  cases he
  exact ⟨rfl, rfl⟩

theorem writeChar (c : Char) : FailsWithin p (Machine.writeChar c) := by
  refine of_unchanged fun m failure m' h => ?_
  obtain ⟨sink, he⟩ := left_writeChar c m
  rw [left, h] at he
  cases he
  exact ⟨rfl, rfl⟩

end FailsWithin

theorem takes_pop : Takes 1 pop := by
  intro m v m' h
  obtain ⟨hleft, hstack⟩ := pop_eq_ok h
  obtain ⟨hitems, -, hdeepest, -⟩ := ValueStack.pop_ok hstack
  exact ⟨⟨[v], rfl, hitems⟩, hdeepest, by rw [hleft]⟩

theorem takes_peek : Takes 0 peek := by
  intro m v m' h
  rw [peek] at h
  cases hp : m.stack.peek with
  | ok v => rw [hp] at h; cases h; exact .of_eq rfl rfl
  | error fault => rw [hp] at h; cases h

theorem takes_readChar : Takes 0 readChar := by
  intro m c m' h
  obtain ⟨source, he⟩ := left_readChar m
  rw [left, h] at he
  cases he
  exact .of_eq rfl rfl

theorem takes_nextScore : Takes 0 nextScore := by
  intro m score m' h
  obtain ⟨rfl, -⟩ := nextScore_ok h
  exact .of_eq rfl rfl

/-! ## Actions -/

namespace FailsWithin

theorem arithmetic (operation : Value → Value → Option Value) (fault : Value → Value → Fault) :
    FailsWithin 2 (Machine.arithmetic operation fault) := by
  show FailsWithin (1 + (1 + 0)) _
  refine pop.bind takes_pop fun b => pop.bind takes_pop fun a => ?_
  cases operation a b with
  | some v => exact push v
  | none => exact fail _

theorem branch (direction : Direction) (condition : Value → Bool) :
    FailsWithin 1 (Machine.branch direction condition) := by
  show FailsWithin (0 + (1 + 0)) _
  refine (advance 1).bind takes_nextScore fun distance => pop.bind takes_pop fun v => ?_
  cases condition v with
  | false => exact pure ()
  | true =>
    cases direction.offset? distance with
    | none => exact fail _
    | some offset => exact (advance offset).bind_pure

theorem perform {a : Action} (ha : a ≠ .swap) : FailsWithin a.popped (Machine.perform a) := by
  cases a with
  | push =>
    show FailsWithin (0 + 0) _
    exact (advance 1).bind takes_nextScore push
  | pop => exact pop.bind_pure
  | add => exact arithmetic _ _
  | input =>
    show FailsWithin (0 + 0) _
    refine readChar.bind takes_readChar fun c => ?_
    cases c with
    | some c => exact push _
    | none => exact fail _
  | output =>
    show FailsWithin (1 + 0) _
    refine pop.bind takes_pop fun v => ?_
    cases charOfValue? v with
    | some c => exact writeChar c
    | none => exact fail _
  | subtract => exact arithmetic _ _
  | swap => exact absurd rfl ha
  | dup =>
    show FailsWithin (0 + 0) _
    exact peek.bind takes_peek push
  | forwardIfZero => exact branch .forward (· = 0)
  | forwardIfNonzero => exact branch .forward (· ≠ 0)
  | backwardIfZero => exact branch .backward (· = 0)
  | backwardIfNonzero => exact branch .backward (· ≠ 0)
  | quit => exact of_unchanged fun _ _ _ h => by cases h

end FailsWithin

variable {failure : Failure}

/-- A `swap` fails only for want of values, never between its two pushes. -/
theorem footprint_of_swap_error (h : WellFormed m) (hf : perform .swap m = .error failure m') :
    ∃ p ≤ 1, Footprint p m m' := by
  rcases exists_of_bind_error hf with hfirst | ⟨a, u, hu, hrest⟩
  · exact FailsWithin.pop m failure m' hfirst
  rcases exists_of_bind_error hrest with hsecond | ⟨b, w, hw, -⟩
  · obtain ⟨p, hp, hleft⟩ := FailsWithin.pop (p := 0) u failure m' hsecond
    exact ⟨1 + p, by omega, (takes_pop m a u hu).trans hleft⟩
  · have hitems : m.stack.items = a :: b :: w.stack.items := by
      rw [(ValueStack.pop_ok (pop_eq_ok hu).2).1, (ValueStack.pop_ok (pop_eq_ok hw).2).1]
    obtain ⟨stack, hswap, -⟩ := perform_swap h hitems
    rw [hswap] at hf
    cases hf

/-- What a failing action leaves of the stack. -/
theorem footprint_of_perform_error {a : Action} (h : WellFormed m)
    (hf : perform a m = .error failure m') : ∃ p ≤ a.popped, Footprint p m m' := by
  by_cases ha : a = .swap
  · subst ha
    exact footprint_of_swap_error h hf
  · exact FailsWithin.perform ha m failure m' hf

/-! ## Characters -/

theorem Ignores.left_source {α : Type} {x : Step α} (h : Ignores x) (m : Machine) :
    (left x m).source = m.source := by
  have hself : x m = onMachine (·.fed m.source) (x m) := h m m.source
  rw [left, hself]
  cases x m <;> rfl

/-- A failing `output` has written nothing, or the first bytes of the character on top of the stack. -/
theorem sink_of_output_error (hf : perform .output m = .error failure m') :
    m'.sink = m.sink ∨ ∃ v c written, m.stack.items.head? = some v ∧ charOfValue? v = some c ∧
      written <+: Text.Utf8.encode c ∧ m'.sink.bytes = m.sink.bytes ++ written := by
  rcases exists_of_bind_error hf with hpop | ⟨v, u, hu, hf⟩
  · have hsink := Internal.pop.left_sink m
    rw [left, hpop] at hsink
    exact .inl hsink
  · obtain ⟨hleft, hstack⟩ := pop_eq_ok hu
    have hsink : u.sink = m.sink := by rw [hleft]
    cases hc : charOfValue? v with
    | none =>
      rw [hc] at hf
      cases hf
      exact .inl hsink
    | some c =>
      rw [hc] at hf
      have hwritten := left_writeChar_eq c u
      rw [left, show writeChar c u = _ from hf] at hwritten
      have hhead : m.stack.items.head? = some v := by rw [(ValueStack.pop_ok hstack).1]; rfl
      refine .inr ⟨v, c, _, hhead, hc, u.sink.fitting_prefix _, ?_⟩
      rw [show m' = _ from hwritten, ← hsink]
      exact Sink.bytes_accept _ _

/-! ## Dispatches -/

/-- **Failures leave partial work behind.**  A dispatch with the built-in dictionary that fails after
fetching the word `i` has removed at most two values from the top of the stack and added none, and it
stays at the word `i` or at the operand after it.  It has written only if the word selects `output`, and
then no more than one character, and read only if the word selects `input`.  All else is as before. -/
theorem dispatch_failure_footprint (h : Reachable m) (hd : m.dictionary = .builtIn)
    (hf : dispatch m = .error failure m') :
    ∃ (i : Nat) (w : Word) (a : Action), m.index + 1 = i ∧ m.words[i]? = some w ∧
      m.actions.action? (m.letters.score w.text) = some a ∧
      (∃ removed, removed.length ≤ 2 ∧ m.stack.items = removed ++ m'.stack.items) ∧
      m'.stack.deepest = m.stack.deepest ∧ m'.halted = m.halted ∧ Frame m m' ∧
      (m'.index = i ∨ m'.index = i + 1) ∧
      (m'.sink = m.sink ∨ a = .output ∧ ∃ v c written, m.stack.items.head? = some v ∧
        charOfValue? v = some c ∧ written <+: Text.Utf8.encode c ∧
        m'.sink.bytes = m.sink.bytes ++ written) ∧
      (m'.source = m.source ∨ a = .input) := by
  have hwell := h.wellFormed
  obtain ⟨a, hselected, hfetched, hp⟩ := perform_of_dispatch_error hwell hf
  obtain ⟨w, hw, hselects⟩ := exists_word_of_upcoming? hd hselected
  have hi : m.index + 1 = ((m.index + 1).toNat : Nat) := by
    have hge := hwell.index_ge
    omega
  obtain ⟨p, hpopped, hleft⟩ := footprint_of_perform_error hfetched hp
  have hframe : Frame m (left dispatch m) := (stable_frame m).dispatch m (.refl m)
  rw [left, hf] at hframe
  refine ⟨_, w, a, hi, hw, hselects, ?_, hleft.deepest, hleft.halted, hframe, ?_, ?_, ?_⟩
  · obtain ⟨removed, hlength, hitems⟩ := hleft.items
    exact ⟨removed, by rw [hlength]; exact hpopped.trans a.popped_le, hitems⟩
  · rw [← hi]
    exact index_of_dispatch hwell hf
  · by_cases ha : a = .output
    · subst ha
      exact (sink_of_output_error hp).imp_right fun hwritten => ⟨rfl, hwritten⟩
    · have hsink := sink_perform ha m.fetched
      rw [left, hp] at hsink
      exact .inl hsink
  · by_cases ha : a = .input
    · exact .inr ha
    · have hsource := (Ignores.perform ha).left_source m.fetched
      rw [left, hp] at hsource
      exact .inl hsource

/-- A sink with room for one byte takes the first of the two bytes of the character 200.  The value has
been popped, and stays so. -/
theorem dispatch_failure_footprint_first_byte :
    ∃ m failure m', Reachable m ∧ m.dictionary = .builtIn ∧ dispatch m = .error failure m' ∧
      m.stack.items = [200] ∧ m'.stack.items = [] ∧ m'.stack.deepest = m.stack.deepest ∧
      (∃ i : Nat, m.index + 1 = i ∧ i = 2 ∧ (m'.index = i ∨ m'.index = i + 1)) ∧
      m.sink.bytes = [] ∧ m'.sink.bytes = [195] ∧ Text.Utf8.encode 'È' = [195, 136] := by
  have hstart : Reachable (start { sink := { room := some 1 } }
      (.ofText "k zzzzzzzzzzzzzzzzzzzz xa")) :=
    .start _ (.fresh .scrabble .standard none [] { room := some 1 })
  -- the output is the second word to be dispatched
  have hm := hstart.call .dispatch
  have hframe : Frame _ _ := (stable_frame _).dispatch _ (.refl (start { sink := { room := some 1 } }
    (.ofText "k zzzzzzzzzzzzzzzzzzzz xa")))
  generalize hu : left dispatch (start { sink := { room := some 1 } }
    (.ofText "k zzzzzzzzzzzzzzzzzzzz xa")) = m at hm hframe
  have hfacts : (failure? (dispatch m)).isSome = true ∧ m.index = 1 ∧ m.stack.items = [200] ∧
      (left dispatch m).stack.items = [] ∧ m.sink.bytes = [] ∧
      (left dispatch m).sink.bytes = [195] := by
    subst hu
    decide +kernel
  obtain ⟨hfails, hindex, hitems, hpopped, hbytes, hwritten⟩ := hfacts
  rcases hf : dispatch m with ⟨progress, m'⟩ | ⟨failure, m'⟩
  · rw [hf] at hfails
    cases hfails
  · rw [left, hf] at hpopped hwritten
    obtain ⟨i, w, a, hi, -, -, -, hdeepest, -, -, hmoved, -⟩ :=
      dispatch_failure_footprint hm hframe.dictionary hf
    exact ⟨m, failure, m', hm, hframe.dictionary, hf, hitems, hpopped, hdeepest,
      ⟨i, hi, by omega, hmoved⟩, hbytes, hwritten, by decide +kernel⟩

end Machine

end Beatnik
