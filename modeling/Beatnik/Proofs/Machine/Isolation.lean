import Beatnik.Proofs.Machine.Lockstep
import Beatnik.Proofs.Machine.Sessions

/-!
# Runs forget the past

A run starts with an empty stack and a program of its own, so it depends on the machine only through the
tables, the dictionary, the limit, and what is left of source and sink (`SameSetting`).  Bytes written
before stay before those of the run, and make no other difference:

    resume fuel (m.withEarlier bytes) = (resume fuel m).map (onMachine (·.withEarlier bytes))
                                                                              (resume_withEarlier)

So runs of the same program on machines of the same setting are the same but for these bytes, whatever
was done with the machines before (`run_isolated`).
-/

namespace Beatnik

/-! ## Earlier output -/

/-- A sink that some bytes were written to before all others. -/
def Sink.withEarlier (s : Sink) (bytes : List UInt8) : Sink :=
  { s with written := s.written ++ bytes.reverse }

theorem Sink.accept_withEarlier (s : Sink) (bytes more : List UInt8) :
    (s.withEarlier bytes).accept more = (s.accept more).withEarlier bytes := by
  simp [accept, withEarlier]

theorem Sink.write_withEarlier (s : Sink) (bytes more : List UInt8) :
    (s.withEarlier bytes).write more = ((s.write more).1, (s.write more).2.withEarlier bytes) := by
  have hfitting : (s.withEarlier bytes).fitting more = s.fitting more := rfl
  rw [write, write, hfitting, accept_withEarlier]
  by_cases hfits : (s.fitting more).length < more.length
  · rw [if_pos hfits, if_pos hfits]
    rfl
  · rw [if_neg hfits, if_neg hfits, show (s.withEarlier bytes).flushes = s.flushes from rfl]
    cases s.flushes <;> rfl

/-- What was written is what a drained sink lacks. -/
theorem Sink.drain_withEarlier (s : Sink) : s.drain.2.withEarlier s.bytes = s := by
  simp [drain, withEarlier, Sink.bytes]

namespace Machine

def withEarlier (bytes : List UInt8) (m : Machine) : Machine :=
  { m with sink := m.sink.withEarlier bytes }

def drained (m : Machine) : Machine := { m with sink := m.sink.drain.2 }

theorem withEarlier_drained (m : Machine) : m.drained.withEarlier m.sink.bytes = m := by
  show { m with sink := m.sink.drain.2.withEarlier m.sink.bytes } = m
  rw [Sink.drain_withEarlier]

/-- Operations do not look at what was written. -/
theorem lockstep_withEarlier (bytes : List UInt8) :
    Lockstep (fun m n => n = m.withEarlier bytes) fun _ _ _ => False where
  push v := by
    rintro m _ rfl
    rw [push, push, show (m.withEarlier bytes).stack = m.stack from rfl]
    cases m.stack.push v with
    | ok stack => exact .inl (.ok () rfl)
    | error fault => exact .inl (.error fault rfl)
  pop := by
    rintro m _ rfl
    rw [pop, pop, show (m.withEarlier bytes).stack = m.stack from rfl]
    cases m.stack.pop with
    | ok r => exact .inl (.ok r.1 rfl)
    | error fault => exact .inl (.error fault rfl)
  peek := .peek fun h => by rw [h]; rfl
  advance offset := by
    refine .advance offset (fun h => ?_) (fun h => ?_) (fun h => ?_) (fun i h => ?_)
    · rw [h]; rfl
    · rw [h]; rfl
    · rw [h]; rfl
    · rw [h]; rfl
  halt := by
    rintro m _ rfl
    exact .inl (.ok () rfl)
  readChar := by
    refine .readChar (fun h => ?_) (fun source h => ?_)
    · rw [h]; rfl
    · rw [h]; rfl
  writeChar c := by
    rintro m _ rfl
    have hwrite := m.sink.write_withEarlier bytes (Text.Utf8.encode c)
    rw [writeChar, writeChar, show (m.withEarlier bytes).sink = m.sink.withEarlier bytes from rfl,
      hwrite]
    rcases m.sink.write (Text.Utf8.encode c) with ⟨_ | reason, sink⟩
    · exact .inl (.ok () rfl)
    · exact .inl (.error (m := { m with sink }) (n := withEarlier bytes { m with sink })
        (.transfer reason) rfl)
  stable _ _ := .const _
  dictionary h := by rw [h]; rfl
  halted h := by rw [h]; rfl

theorem after_withEarlier (bytes : List UInt8) (m : Machine) (k : Nat) :
    after k (m.withEarlier bytes) = onMachine (withEarlier bytes) (after k m) := by
  have hdispatch := (lockstep_withEarlier bytes).dispatch (fun h => by rw [h]; rfl)
    (fun h => by rw [h]; exact Iff.rfl)
  have hagree := hdispatch.agree_after (m := m) rfl k
  refine hagree.eq_onMachine hagree.machineOf ?_
  rw [hagree.machineOf]
  rfl

/-- A run goes alike whatever was written before. -/
theorem resume_withEarlier (bytes : List UInt8) (fuel : Nat) (m : Machine) :
    resume fuel (m.withEarlier bytes) = (resume fuel m).map (onMachine (withEarlier bytes)) := by
  rw [resume_eq_after, resume_eq_after, after_withEarlier, outcome?_onMachine]

/-! ## The setting of a run -/

/-- Two machines with the same tables, dictionary and limit, the same input to come, and sinks that are
the same but for what was written.  Stack, program, counter and halting may differ. -/
structure SameSetting (m n : Machine) : Prop where
  letters : m.letters = n.letters
  actions : m.actions = n.actions
  dictionary : m.dictionary = n.dictionary
  limit : m.stack.limit = n.stack.limit
  source : m.source = n.source
  sink : m.sink.drain.2 = n.sink.drain.2

/-- A start leaves nothing of a machine but its setting. -/
theorem SameSetting.start_drained {m n : Machine} (h : SameSetting m n) (program : Program) :
    m.drained.start program = n.drained.start program := by
  unfold drained start load ValueStack.clear
  rw [h.letters, h.actions, h.dictionary, h.limit, h.source, h.sink]

/-- Two runs that end alike, or both not at all: the results are the same, and so are the machines left,
but for the bytes `a` and `b` that were written before. -/
def SameEnd (a b : List UInt8) (r s : Option Outcome) : Prop :=
  ∃ o : Option Outcome, r = o.map (onMachine (withEarlier a)) ∧ s = o.map (onMachine (withEarlier b))

theorem SameSetting.resume {m n : Machine} (h : SameSetting m n) (fuel : Nat) (program : Program) :
    SameEnd m.sink.bytes n.sink.bytes (Machine.resume fuel (m.start program))
      (Machine.resume fuel (n.start program)) := by
  have hrun : ∀ m : Machine, Machine.resume fuel (m.start program) =
      (Machine.resume fuel (m.drained.start program)).map (onMachine (withEarlier m.sink.bytes)) := by
    intro m
    rw [← resume_withEarlier]
    show _ = Machine.resume fuel ((m.drained.withEarlier m.sink.bytes).start program)
    rw [withEarlier_drained]
  refine ⟨_, hrun m, ?_⟩
  rw [hrun n, h.start_drained]

/-! ## Histories -/

theorem kept_tables (letters : LetterScores) (actions : ActionScores) :
    Kept fun m => m.letters = letters ∧ m.actions = actions := by
  have hcall : ∀ {α : Type} {x : Step α}, IsCall x →
      Preserves (fun m => m.letters = letters ∧ m.actions = actions) x := by
    rintro α x hx m ⟨rfl, rfl⟩
    have hframe := (stable_frame m).preserves_of_isCall hx m (.refl m)
    exact ⟨hframe.letters, hframe.actions⟩
  exact {
    push v := hcall (.push v)
    pop := hcall .pop
    advance offset := hcall (.advance offset)
    halt := hcall .halt
    readChar := hcall .readChar
    writeChar c := hcall (.writeChar c)
    load _ h := h
    start _ h := h
    rebind _ _ _ _ h := h }

/-- A session changes no more of the setting than the dictionary, the source and the sink. -/
theorem start_of_obeyAll {m m' : Machine} {commands : List Command}
    (h : m.obeyAll commands = some m') (program : Program) :
    m'.start program = start { m with
      dictionary := m'.dictionary, source := m'.source, sink := m'.sink } program := by
  obtain ⟨hletters, hactions⟩ := (kept_tables m.letters m.actions).obeyAll h ⟨rfl, rfl⟩
  have hlimit : m'.stack.limit = m.stack.limit := (kept_limit m.stack.limit).obeyAll h rfl
  unfold start load ValueStack.clear
  rw [hletters, hactions, hlimit]

/-! ## Isolation -/

/-- **Runs are isolated from the past.**  On two machines of the same setting, the runs of a text end
alike, and so do the runs of a file that can be read; with the same bytes written before, they are
equal.  A run of a file that cannot be read fails and leaves the machine as it is.  A session before a
run makes no difference to it but for the dictionary, the source and the sink that it leaves. -/
theorem run_isolated {m n : Machine} (h : SameSetting m n) :
    (∀ fuel text, SameEnd m.sink.bytes n.sink.bytes (run fuel m text) (run fuel n text)) ∧
    (∀ fuel files path text, files path = .ok text →
      SameEnd m.sink.bytes n.sink.bytes (runFile fuel files m path) (runFile fuel files n path)) ∧
    (m.sink = n.sink → ∀ fuel, (∀ text, run fuel m text = run fuel n text) ∧
      ∀ files path text, files path = .ok text →
        runFile fuel files m path = runFile fuel files n path) ∧
    (∀ fuel files path reason, files path = .error reason →
      ∃ failure, runFile fuel files m path = some (.error failure m) ∧
        failure.fault.kind = .transfer) ∧
    (∀ commands m', m.obeyAll commands = some m' → ∀ fuel text, run fuel m' text = run fuel
      { m with dictionary := m'.dictionary, source := m'.source, sink := m'.sink } text) := by
  have hfile : ∀ {files : Files} {path text : String}, files path = .ok text → ∀ fuel (m : Machine),
      runFile fuel files m path = resume fuel (m.start (Word.scan path text)) := by
    intro files path text hread fuel m
    rw [runFile, Program.load, hread]
  have hsame : m.sink = n.sink → ∀ fuel program,
      resume fuel (m.start program) = resume fuel (n.start program) := by
    intro hsink fuel program
    obtain ⟨o, hm, hn⟩ := h.resume fuel program
    rw [hm, hn, hsink]
  refine ⟨fun fuel text => ?_, fun fuel files path text hread => ?_, fun hsink fuel => ⟨?_, ?_⟩,
    fun fuel files path reason hread => ?_, fun commands m' hsession fuel text => ?_⟩
  · exact h.resume fuel _
  · rw [hfile hread, hfile hread]
    exact h.resume fuel _
  · exact fun text => hsame hsink fuel _
  · intro files path text hread
    rw [hfile hread, hfile hread]
    exact hsame hsink fuel _
  · refine ⟨⟨.unreadableProgram path reason, none⟩, ?_, rfl⟩
    rw [runFile, Program.load, hread]
  · rw [run, run, start_of_obeyAll hsession]

/-- A machine that has written `A` and then failed over an operand, with a value on its stack, and one
that was asked to stop in another program: on both, `k a ja` pushes 1, writes it as a character and
stops after its last word. -/
theorem run_isolated_failed_and_halted :
    let m : Machine := {
      stack := { items := [7], depth := 1, deepest := 4 }
      sink := { written := [65] }
      words := #[⟨⟨"a", 1, 1⟩, "k"⟩]
      index := 0 }
    let n : Machine := {
      words := #[⟨⟨"b", 1, 1⟩, "a"⟩, ⟨⟨"b", 2, 1⟩, "qkd"⟩]
      index := 1
      halted := true }
    SameSetting m n ∧ SameEnd [65] [] (run 9 m "k a ja") (run 9 n "k a ja") ∧
      (run 9 m "k a ja").map (fun o => ((machineOf o).sink.bytes, (machineOf o).halted)) =
        some ([65, 1], false) ∧
      ∃ failure, runFile 9 (fun _ => .error .notFound) m "c" = some (.error failure m) ∧
        failure.fault.kind = .transfer := by
  intro m n
  have hsetting : SameSetting m n := ⟨rfl, rfl, rfl, rfl, rfl, rfl⟩
  obtain ⟨hrun, -, -, hunread, -⟩ := run_isolated hsetting
  exact ⟨hsetting, hrun 9 "k a ja", by decide +kernel, hunread 9 _ "c" .notFound rfl⟩

end Machine

end Beatnik
