import Beatnik.Proofs.Dictionaries
import Beatnik.Proofs.Machine.Composed
import Mathlib

/-!
# What machines keep

A property that the six operations that change the machine keep, also when they fail (`Stable`), is
kept by every action and every dispatch (`Stable.perform`, `Stable.dispatch`).  Two such properties are
used: the parts of a machine that only loading and re-binding change (`Frame`), and the bounds of the
counter and the stack (`WellFormed`), which hold of every machine that calls can lead to:

    Reachable m → WellFormed m                                                  (Reachable.wellFormed)
-/

/-! ## The stack -/

namespace Beatnik.ValueStack

theorem push_ok {s t : ValueStack} {v : Value} (h : s.push v = .ok t) :
    (∀ limit, s.limit = some limit → s.depth < limit) ∧ t.items = v :: s.items ∧
      t.depth = s.depth + 1 ∧ t.deepest = max s.deepest (s.depth + 1) ∧ t.limit = s.limit := by
  rw [push] at h
  split at h
  · cases h
  · next hf =>
    cases h
    refine ⟨fun limit hl => ?_, rfl, rfl, rfl, rfl⟩
    rw [hl, Option.filter_some] at hf
    simpa using hf

theorem pop_ok {s t : ValueStack} {v : Value} (h : s.pop = .ok (v, t)) :
    s.items = v :: t.items ∧ t.depth = s.depth - 1 ∧ t.deepest = s.deepest ∧ t.limit = s.limit := by
  rw [pop] at h
  split at h
  · cases h
  · next hs =>
    cases h
    exact ⟨hs, rfl, rfl, rfl⟩

end Beatnik.ValueStack

namespace Beatnik.Machine

/-! ## Properties kept by computations -/

/-- The machine in a result, of a success or of a failure. -/
def machineOf {α : Type} : EStateM.Result Failure Machine α → Machine
  | .ok _ m => m
  | .error _ m => m

/-- The machine that a computation leaves, also when it fails. -/
def left {α : Type} (x : Step α) (m : Machine) : Machine := machineOf (x m)

/-- A computation keeps a property, whether it succeeds or fails. -/
def Preserves (P : Machine → Prop) {α : Type} (x : Step α) : Prop := ∀ m, P m → P (left x m)

namespace Preserves

variable {P : Machine → Prop} {α β : Type}

theorem pure (a : α) : Preserves P (Pure.pure a : Step α) := fun _ h => h

theorem fail (fault : Fault) : Preserves P (Machine.fail fault : Step α) := fun _ h => h

theorem bind {x : Step α} {f : α → Step β} (hx : Preserves P x) (hf : ∀ a, Preserves P (f a)) :
    Preserves P (x >>= f) := by
  intro m hm
  have h := hx m hm
  rw [left] at h
  rw [left]
  show P (machineOf (EStateM.bind x f m))
  rw [EStateM.bind]
  cases hr : x m with
  | ok a m' =>
    rw [hr] at h
    exact hf a m' h
  | error e m' =>
    rw [hr] at h
    exact h

/-- A computation that starts by looking at the machine keeps what it keeps for each machine. -/
theorem get_bind {f : Machine → Step β} (hf : ∀ m, P m → P (left (f m) m)) :
    Preserves P (get >>= f) := fun m hm => hf m hm

end Preserves

/-- A property that the operations of the machine keep. -/
structure Stable (P : Machine → Prop) : Prop where
  push : ∀ v, Preserves P (push v)
  pop : Preserves P pop
  advance : ∀ offset, Preserves P (advance offset)
  halt : Preserves P halt
  readChar : Preserves P readChar
  writeChar : ∀ c, Preserves P (writeChar c)

namespace Stable

/-- What does not depend on the machine is kept. -/
theorem const (p : Prop) : Stable fun _ => p :=
  ⟨fun _ _ => id, fun _ => id, fun _ _ => id, fun _ => id, fun _ => id, fun _ _ => id⟩

variable {P : Machine → Prop} (h : Stable P)

theorem peek : Preserves P Machine.peek := by
  intro m hm
  rw [left, Machine.peek]
  cases m.stack.peek <;> exact hm

include h

theorem composed {α : Type} {x : Step α} (hx : Composed x) : Preserves P x := by
  induction hx with
  | pure a => exact .pure a
  | fail fault => exact .fail fault
  | bind _ _ ihx ihf => exact ihx.bind ihf
  | push v => exact h.push v
  | pop => exact h.pop
  | peek => exact peek
  | advance offset => exact h.advance offset
  | halt => exact h.halt
  | readChar => exact h.readChar
  | writeChar c => exact h.writeChar c

theorem perform (a : Action) : Preserves P (Machine.perform a) := h.composed (composed_perform a)

theorem execute (a : Action) : Preserves P (Machine.execute a) := by
  refine .get_bind fun m hm => ?_
  cases m.dictionary.find? a with
  | none => exact hm
  | some e =>
    refine (h.perform e.behaviour).bind (fun _ => ?_) m hm
    exact .get_bind fun m' hm' => hm'

theorem dispatch : Preserves P Machine.dispatch := by
  refine .get_bind fun m hm => ?_
  split
  · exact hm
  · refine (h.advance 1).bind (fun score => ?_) m hm
    cases m.actions.action? score with
    | none => exact .pure _
    | some a => exact h.execute a

end Stable

/-! ## What only loading and re-binding change -/

/-- Two machines with the same tables, dictionary, program and limit. -/
structure Frame (m m' : Machine) : Prop where
  letters : m'.letters = m.letters
  actions : m'.actions = m.actions
  dictionary : m'.dictionary = m.dictionary
  words : m'.words = m.words
  limit : m'.stack.limit = m.stack.limit

theorem Frame.refl (m : Machine) : Frame m m := ⟨rfl, rfl, rfl, rfl, rfl⟩

/-- A push leaves the limit and puts one value more on the stack, or it changes nothing. -/
theorem left_push (v : Value) (m : Machine) :
    left (push v) m = m ∨ ∃ stack, m.stack.push v = .ok stack ∧ left (push v) m = { m with stack } := by
  rw [left, push]
  cases hp : m.stack.push v with
  | ok stack => exact .inr ⟨stack, rfl, rfl⟩
  | error fault => exact .inl rfl

theorem left_pop (m : Machine) :
    left pop m = m ∨ ∃ v stack, m.stack.pop = .ok (v, stack) ∧ left pop m = { m with stack } := by
  rw [left, pop]
  cases hp : m.stack.pop with
  | ok r => exact .inr ⟨r.1, r.2, rfl, rfl⟩
  | error fault => exact .inl rfl

theorem left_advance (offset : Value) (m : Machine) :
    left (advance offset) m = m ∨
      (-1 ≤ m.index + offset.toInt ∧ m.index + offset.toInt < m.words.size ∧
        left (advance offset) m = { m with index := m.index + offset.toInt }) := by
  rw [left, advance]
  by_cases hc : -1 ≤ m.index + offset.toInt ∧ m.index + offset.toInt < m.words.size
  · rw [if_pos hc]
    exact .inr ⟨hc.1, hc.2, rfl⟩
  · rw [if_neg hc]
    exact .inl rfl

theorem left_readChar (m : Machine) : ∃ source, left readChar m = { m with source } := by
  rw [left, readChar]
  cases Source.readChar m.source with
  | ok c source => exact ⟨source, rfl⟩
  | error fault source => exact ⟨source, rfl⟩

theorem left_writeChar (c : Char) (m : Machine) : ∃ sink, left (writeChar c) m = { m with sink } := by
  rw [left, writeChar]
  rcases m.sink.write (Text.Utf8.encode c) with ⟨_ | reason, sink⟩
  · exact ⟨sink, rfl⟩
  · exact ⟨sink, rfl⟩

theorem stable_frame (m₀ : Machine) : Stable (Frame m₀) where
  push v m h := by
    rcases left_push v m with he | ⟨stack, hp, he⟩
    · rwa [he]
    · rw [he]
      exact { h with limit := (ValueStack.push_ok hp).2.2.2.2.trans h.limit }
  pop m h := by
    rcases left_pop m with he | ⟨v, stack, hp, he⟩
    · rwa [he]
    · rw [he]
      exact { h with limit := (ValueStack.pop_ok hp).2.2.2.trans h.limit }
  advance offset m h := by
    rcases left_advance offset m with he | ⟨-, -, he⟩
    · rwa [he]
    · rw [he]
      exact { h with }
  halt m h := { h with }
  readChar m h := by
    obtain ⟨source, he⟩ := left_readChar m
    rw [he]
    exact { h with }
  writeChar c m h := by
    obtain ⟨sink, he⟩ := left_writeChar c m
    rw [he]
    exact { h with }

/-! ## Bounds -/

/-- The counter is in the program or before it, the stack is within its limit, and every action has an
entry. -/
structure WellFormed (m : Machine) : Prop where
  index_ge : -1 ≤ m.index
  index_lt : m.index < m.words.size
  depth_le : m.stack.depth ≤ m.stack.deepest
  deepest_le : ∀ limit, m.stack.limit = some limit → m.stack.deepest ≤ limit
  complete : ∀ a, (m.dictionary.find? a).isSome = true

theorem stable_wellFormed : Stable WellFormed where
  push v m h := by
    rcases left_push v m with he | ⟨stack, hp, he⟩
    · rwa [he]
    · obtain ⟨hroom, -, hdepth, hdeepest, hlimit⟩ := ValueStack.push_ok hp
      rw [he]
      refine { h with depth_le := ?_, deepest_le := fun limit hl => ?_ }
      · rw [hdepth, hdeepest]
        exact Nat.le_max_right _ _
      · have hl : m.stack.limit = some limit := hlimit.symm.trans hl
        rw [hdeepest]
        exact Nat.max_le.2 ⟨h.deepest_le limit hl, hroom limit hl⟩
  pop m h := by
    rcases left_pop m with he | ⟨v, stack, hp, he⟩
    · rwa [he]
    · obtain ⟨-, hdepth, hdeepest, hlimit⟩ := ValueStack.pop_ok hp
      rw [he]
      refine { h with depth_le := ?_, deepest_le := fun limit hl => ?_ }
      · rw [hdepth, hdeepest]
        exact Nat.le_trans (Nat.sub_le _ _) h.depth_le
      · rw [hdeepest]
        exact h.deepest_le limit (hlimit.symm.trans hl)
  advance offset m h := by
    rcases left_advance offset m with he | ⟨hge, hlt, he⟩
    · rwa [he]
    · rw [he]
      exact { h with index_ge := hge, index_lt := hlt }
  halt m h := { h with }
  readChar m h := by
    obtain ⟨source, he⟩ := left_readChar m
    rw [he]
    exact { h with }
  writeChar c m h := by
    obtain ⟨sink, he⟩ := left_writeChar c m
    rw [he]
    exact { h with }

theorem find?_builtIn (a : Action) :
    Dictionary.builtIn.find? a =
      some ⟨a, a, Dictionary.describe a, Dictionary.signatureOf a⟩ :=
  Dictionary.holds_builtIn a

theorem isSome_find?_builtIn (a : Action) : (Dictionary.builtIn.find? a).isSome = true := by
  rw [find?_builtIn]
  rfl

theorem WellFormed.load {m : Machine} (h : WellFormed m) (program : Program) :
    WellFormed (m.load program) :=
  { h with index_ge := Int.le_refl _, index_lt := by simp [Machine.load]; omega }

/-- A start needs nothing of a machine but an entry for every action. -/
theorem wellFormed_start {m : Machine} (h : ∀ a, (m.dictionary.find? a).isSome = true)
    (program : Program) : WellFormed (m.start program) where
  index_ge := Int.le_refl _
  index_lt := by simp [Machine.start, Machine.load]; omega
  depth_le := Nat.le_refl _
  deepest_le _ _ := Nat.zero_le _
  complete := h

theorem WellFormed.rebind {m : Machine} (h : WellFormed m) (action source : Action)
    (description signature : String) :
    WellFormed { m with dictionary := m.dictionary.rebind action source description signature } := by
  refine { h with complete := fun a => ?_ }
  rw [Dictionary.rebind]
  cases m.dictionary.find? source with
  | none => exact h.complete a
  | some e =>
    dsimp only
    rw [Dictionary.find?_insert]
    split
    · rfl
    · exact h.complete a

/-! ## Reachable machines -/

/-- The computations that can be called on a machine; fetching a word is a move by one. -/
inductive IsCall : {α : Type} → Step α → Prop
  | push (v : Value) : IsCall (push v)
  | pop : IsCall pop
  | peek : IsCall peek
  | advance (offset : Value) : IsCall (advance offset)
  | halt : IsCall halt
  | readChar : IsCall readChar
  | writeChar (c : Char) : IsCall (writeChar c)
  | execute (a : Action) : IsCall (execute a)
  | dispatch : IsCall dispatch

theorem Stable.preserves_of_isCall {P : Machine → Prop} (h : Stable P) {α : Type} {x : Step α}
    (hx : IsCall x) : Preserves P x := by
  cases hx with
  | push v => exact h.push v
  | pop => exact h.pop
  | peek => exact Stable.peek
  | advance offset => exact h.advance offset
  | halt => exact h.halt
  | readChar => exact h.readChar
  | writeChar c => exact h.writeChar c
  | execute a => exact h.execute a
  | dispatch => exact h.dispatch

/-- The machines that calls lead to, from a new machine on, whether the calls succeed or fail.  A run is
its start and as many dispatches as it takes. -/
inductive Reachable : Machine → Prop
  | fresh (letters : LetterScores) (actions : ActionScores) (limit : Option Nat) (source : Source)
      (sink : Sink) : Reachable { letters, actions, stack := .withLimit limit, source, sink }
  | load {m : Machine} (program : Program) : Reachable m → Reachable (m.load program)
  | start {m : Machine} (program : Program) : Reachable m → Reachable (m.start program)
  | rebind {m : Machine} (action source : Action) (description signature : String) : Reachable m →
      Reachable { m with dictionary := m.dictionary.rebind action source description signature }
  | call {m : Machine} {α : Type} {x : Step α} : IsCall x → Reachable m → Reachable (left x m)

theorem Reachable.wellFormed {m : Machine} (h : Reachable m) : WellFormed m := by
  induction h with
  | fresh letters actions limit source sink =>
    exact ⟨Int.le_refl _, by simp, Nat.le_refl _, fun _ _ => Nat.zero_le _, isSome_find?_builtIn⟩
  | load program _ ih => exact ih.load program
  | start program _ ih => exact wellFormed_start ih.complete program
  | rebind action source description signature _ ih =>
    exact ih.rebind action source description signature
  | call hx _ ih => exact stable_wellFormed.preserves_of_isCall hx _ ih

end Beatnik.Machine
