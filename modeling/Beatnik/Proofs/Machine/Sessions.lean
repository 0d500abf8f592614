import Beatnik.Proofs.Machine.Course

/-!
# Sessions with a machine

A machine is given one command after another (`Command`).  A command that fails leaves the machine as
far as it has come, and the session goes on from there.  A property that all operations keep, and also
loading, starting and re-binding (`Kept`), is kept by every command, and so by whole sessions:

    Kept P → m.obey c = some m' → P m → P m'                                            (Kept.obey)
    Kept P → m.obeyAll cs = some m' → P m → P m'                                     (Kept.obeyAll)

Sessions so lead to reachable machines only, and never change the limit (`session_bounds`).
-/

namespace Beatnik.Machine

/-! ## Commands -/

/-- What a machine can be told to do.  Runs are given a number of words to fetch. -/
inductive Command where
  | load (program : Program)
  | push (v : Value)
  | pop
  | peek
  | advance (offset : Value)
  | nextScore
  | halt
  | readChar
  | writeChar (c : Char)
  | execute (a : Action)
  | dispatch
  | run (fuel : Nat) (text : String)
  | runFile (fuel : Nat) (files : Files) (path : String)
  | rebind (action source : Action) (description signature : String)

/-- The machine after a command, whether that has succeeded or failed.  There is none after a run that
has not ended. -/
def obey (m : Machine) : Command → Option Machine
  | .load program => some (m.load program)
  | .push v => some (left (push v) m)
  | .pop => some (left pop m)
  | .peek => some (left peek m)
  | .advance offset => some (left (advance offset) m)
  | .nextScore => some (left nextScore m)
  | .halt => some (left halt m)
  | .readChar => some (left readChar m)
  | .writeChar c => some (left (writeChar c) m)
  | .execute a => some (left (execute a) m)
  | .dispatch => some (left dispatch m)
  | .run fuel text => (run fuel m text).map machineOf
  | .runFile fuel files path => (runFile fuel files m path).map machineOf
  | .rebind action source description signature =>
    some { m with dictionary := m.dictionary.rebind action source description signature }

def obeyAll (m : Machine) (commands : List Command) : Option Machine := commands.foldlM obey m

/-! ## Properties kept by sessions -/

/-- What operations, loading and starting keep is kept by every command but a new binding. -/
theorem Stable.obey {P : Machine → Prop} (h : Stable P)
    (hload : ∀ {m : Machine} (program : Program), P m → P (m.load program))
    (hstart : ∀ {m : Machine} (program : Program), P m → P (m.start program)) {m m' : Machine}
    {c : Command} (hc : m.obey c = some m')
    (hnot : ∀ action source description signature, c ≠ .rebind action source description signature)
    (hm : P m) : P m' := by
  have hcall : ∀ {α : Type} {x : Step α}, IsCall x → some (left x m) = some m' → P m' := by
    intro α x hx hleft
    cases hleft
    exact h.preserves_of_isCall hx m hm
  cases c with
  | load program =>
    cases hc
    exact hload program hm
  | push v => exact hcall (.push v) hc
  | pop => exact hcall .pop hc
  | peek => exact hcall .peek hc
  | advance offset => exact hcall (.advance offset) hc
  | nextScore => exact hcall (.advance 1) hc
  | halt => exact hcall .halt hc
  | readChar => exact hcall .readChar hc
  | writeChar c => exact hcall (.writeChar c) hc
  | execute a => exact hcall (.execute a) hc
  | dispatch => exact hcall .dispatch hc
  | run fuel text =>
    obtain ⟨o, ho, rfl⟩ := Option.map_eq_some_iff.1 hc
    exact resume_keeps h.dispatch (hstart _ hm) ho
  | runFile fuel files path =>
    obtain ⟨o, ho, rfl⟩ := Option.map_eq_some_iff.1 hc
    rw [runFile] at ho
    cases hp : Program.load files path with
    | ok program =>
      rw [hp] at ho
      exact resume_keeps h.dispatch (hstart program hm) ho
    | error failure =>
      rw [hp] at ho
      cases ho
      exact hm
  | rebind action source description signature =>
    exact absurd rfl (hnot action source description signature)

/-- A property that everything that changes a machine keeps. -/
structure Kept (P : Machine → Prop) : Prop extends Stable P where
  load : ∀ {m : Machine} (program : Program), P m → P (m.load program)
  start : ∀ {m : Machine} (program : Program), P m → P (m.start program)
  rebind : ∀ {m : Machine} (action source : Action) (description signature : String), P m →
    P { m with dictionary := m.dictionary.rebind action source description signature }

namespace Kept

variable {P : Machine → Prop} (h : Kept P) {m m' : Machine}

include h

theorem obey {c : Command} (hc : m.obey c = some m') (hm : P m) : P m' := by
  by_cases hnot : ∀ action source description signature,
      c ≠ .rebind action source description signature
  · exact h.toStable.obey h.load h.start hc hnot hm
  · simp only [ne_eq, not_forall, not_not] at hnot
    obtain ⟨action, source, description, signature, rfl⟩ := hnot
    cases hc
    exact h.rebind action source description signature hm

theorem obeyAll {commands : List Command} (hc : m.obeyAll commands = some m') (hm : P m) : P m' := by
  induction commands generalizing m with
  | nil =>
    cases hc
    exact hm
  | cons c commands ih =>
    obtain ⟨u, hu, hrest⟩ := Option.bind_eq_some_iff.1 (List.foldlM_cons.symm.trans hc)
    exact ih hrest (h.obey hu hm)

end Kept

theorem kept_reachable : Kept Reachable where
  push v _ h := h.call (.push v)
  pop _ h := h.call .pop
  advance offset _ h := h.call (.advance offset)
  halt _ h := h.call .halt
  readChar _ h := h.call .readChar
  writeChar c _ h := h.call (.writeChar c)
  load program h := h.load program
  start program h := h.start program
  rebind action source description signature h := h.rebind action source description signature

theorem kept_limit (limit : Option Nat) : Kept fun m => m.stack.limit = limit where
  push v m h := ((stable_frame m).push v m (.refl m)).limit.trans h
  pop m h := ((stable_frame m).pop m (.refl m)).limit.trans h
  advance offset m h := ((stable_frame m).advance offset m (.refl m)).limit.trans h
  halt _ h := h
  readChar m h := ((stable_frame m).readChar m (.refl m)).limit.trans h
  writeChar c m h := ((stable_frame m).writeChar c m (.refl m)).limit.trans h
  load _ h := h
  start _ h := h
  rebind _ _ _ _ h := h

/-! ## Bounds -/

/-- **Sessions lead to well-formed machines.**  After every session with a new machine the counter is in
the program or before it, the stack has never been deeper than the limit, which is still the one that
was set, and every action has an entry.  The counter can then be moved by any offset that leaves it in
these bounds, which changes nothing else; a move by another offset fails and changes nothing. -/
theorem session_bounds {letters : LetterScores} {actions : ActionScores} {limit : Option Nat}
    {source : Source} {sink : Sink} {commands : List Command} {m : Machine}
    (h : obeyAll { letters, actions, stack := .withLimit limit, source, sink } commands = some m) :
    (-1 ≤ m.index ∧ m.index < m.words.size) ∧
    (m.stack.toList.length ≤ m.stack.deepest ∧ m.stack.limit = limit ∧
      ∀ d, limit = some d → m.stack.deepest ≤ d) ∧
    (∀ a, ∃ e, m.dictionary.find? a = some e) ∧
    ∀ offset : Value,
      (-1 ≤ m.index + offset.toInt ∧ m.index + offset.toInt < m.words.size →
        ∃ score, advance offset m = .ok score { m with index := m.index + offset.toInt }) ∧
      (¬ (-1 ≤ m.index + offset.toInt ∧ m.index + offset.toInt < m.words.size) →
        ∃ failure, advance offset m = .error failure m) := by
  have hlimit : m.stack.limit = limit := (kept_limit limit).obeyAll h rfl
  have hm : WellFormed m :=
    (kept_reachable.obeyAll h (.fresh letters actions limit source sink)).wellFormed
  refine ⟨⟨hm.index_ge, hm.index_lt⟩, ⟨?_, hlimit, ?_⟩, ?_, fun offset => ⟨?_, ?_⟩⟩
  · rw [ValueStack.length_toList]
    exact hm.depth_le
  · rintro d rfl
    exact hm.deepest_le d hlimit
  · exact fun a => Option.isSome_iff_exists.1 (hm.complete a)
  · exact advance_in
  · exact fun hout => ⟨_, advance_out hout⟩

/-- A run that overflows its limit, two pops of which the second fails, and a new behaviour for one
action: the counter stays at the last of four words, and the smallest of all offsets leads out. -/
theorem session_bounds_after_overflow :
    ∃ m, obeyAll { stack := .withLimit (some 1) }
        [.run 9 "k a k a", .pop, .pop, .rebind .add .dup "" "", .execute .add] = some m ∧
      m.index = 3 ∧ m.words.size = 4 ∧ m.stack.deepest ≤ 1 ∧
      (∃ score, advance (-4) m = .ok score { m with index := -1 }) ∧
      ∃ failure, advance Int64.minValue m = .error failure m := by
  have hends : (obeyAll { stack := .withLimit (some 1) }
      [.run 9 "k a k a", .pop, .pop, .rebind .add .dup "" "", .execute .add]).map
        (fun m => (m.index, m.words.size)) = some (3, 4) := by decide +kernel
  obtain ⟨m, hm, hfacts⟩ := Option.map_eq_some_iff.1 hends
  obtain ⟨hindex, hsize⟩ := Prod.mk.inj hfacts
  obtain ⟨-, ⟨-, -, hdeepest⟩, -, hmove⟩ := session_bounds hm
  refine ⟨m, hm, hindex, hsize, hdeepest 1 rfl, ?_, ?_⟩
  · have hback := (hmove (-4)).1
    rw [hindex, hsize] at hback
    exact hback (by decide)
  · refine (hmove Int64.minValue).2 ?_
    rw [hindex, hsize]
    decide

end Beatnik.Machine
