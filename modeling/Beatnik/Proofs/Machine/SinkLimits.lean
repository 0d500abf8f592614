import Beatnik.Proofs.Machine.Effects
import Beatnik.Proofs.Machine.Lockstep
import Beatnik.Proofs.Machine.Refinement

/-!
# Sinks that fail

A run that writes to a sink with bounds is compared to the run that writes to the same sink without
them.  Both go alike as long as the sink takes what it is given (`Beside`); at the first character that
does not fit, or after which flushing fails, the run with the bounded sink fails (`Refused`):

    Lockstep (Beside s) (Refused s)                                                (lockstep_beside)

So a sink with room for a number of bytes gets that many bytes of the output and no others, and a sink
that cannot be flushed gets the first character (`run_restricted`).
-/

namespace Beatnik

/-! ## Sinks -/

namespace Sink

/-- A sink with other bounds: how many bytes still fit, and whether flushing works. -/
def restricted (s : Sink) (room : Option Nat) (flushes : Bool) : Sink := { s with room, flushes }

/-- A sink that takes everything. -/
def Unlimited (s : Sink) : Prop := s.room = none ∧ s.flushes = true

def Fits (s : Sink) (bytes : List UInt8) : Prop := ∀ room, s.room = some room → bytes.length ≤ room

/-- A sink that was given some bytes refuses them: the reason, and the sink with what it has taken. -/
inductive Refuses (s : Sink) (bytes : List UInt8) : String → Sink → Prop
  | full {room : Nat} : s.room = some room → room < bytes.length →
      Refuses s bytes s.whenFull.reason (s.accept (bytes.take room))
  | unflushed : s.Fits bytes → s.flushes = false → Refuses s bytes "flush failed" (s.accept bytes)

variable {s : Sink} {a b : List UInt8}

theorem accept_nil (s : Sink) : s.accept [] = s := by
  rcases s with ⟨written, _ | room, whenFull, flushes⟩ <;> rfl

theorem accept_accept (s : Sink) (a b : List UInt8) : (s.accept a).accept b = s.accept (a ++ b) := by
  rcases s with ⟨written, _ | room, whenFull, flushes⟩
  · simp [accept]
  · simp [accept, Nat.sub_sub]

theorem fitting_of_fits (h : s.Fits (a ++ b)) : (s.accept a).fitting b = b := by
  rw [fitting, accept]
  cases hr : s.room with
  | none => rfl
  | some room =>
    have hle := h room hr
    rw [List.length_append] at hle
    exact List.take_of_length_le (show b.length ≤ room - a.length by omega)

theorem write_of_fits (h : s.Fits (a ++ b)) : (s.accept a).write b =
    (if s.flushes then none else some "flush failed", s.accept (a ++ b)) := by
  rw [write, fitting_of_fits h, accept_accept, if_neg (Nat.lt_irrefl _)]
  show (if s.flushes = true then _ else _) = _
  split <;> rfl

theorem Unlimited.accept (h : s.Unlimited) (bytes : List UInt8) : (s.accept bytes).Unlimited := by
  refine ⟨?_, h.2⟩
  rw [Sink.accept, h.1]
  rfl

theorem Unlimited.write (h : s.Unlimited) (bytes : List UInt8) :
    s.write bytes = (none, s.accept bytes) := by
  have hfits : s.Fits ([] ++ bytes) := by
    intro room hroom
    rw [h.1] at hroom
    cases hroom
  have hwrite := write_of_fits hfits
  rwa [accept_nil, if_pos h.2] at hwrite

theorem write_of_lt {room : Nat} (hroom : s.room = some room) (hle : a.length ≤ room)
    (hlt : room < (a ++ b).length) :
    (s.accept a).write b = (some s.whenFull.reason, s.accept ((a ++ b).take room)) := by
  have hfitting : (s.accept a).fitting b = b.take (room - a.length) := by
    rw [fitting, accept, hroom]
    rfl
  have htake : (a ++ b).take room = a ++ b.take (room - a.length) := by
    rw [List.take_append, List.take_of_length_le hle]
  rw [List.length_append] at hlt
  rw [write, hfitting, accept_accept, if_pos (by rw [List.length_take]; omega), htake]
  rfl

end Sink

namespace Machine

def restricted (m : Machine) (room : Option Nat) (flushes : Bool) : Machine :=
  { m with sink := m.sink.restricted room flushes }

/-! ## Lockstep -/

/-- A machine that has written some bytes to the sink `s` without its bounds, and the machine that has
written them to `s`, which has taken them all. -/
structure Beside (s : Sink) (written : List UInt8) (m n : Machine) : Prop where
  unbounded : m.sink = (s.restricted none true).accept written
  same : n = { m with sink := s.accept written }
  fits : s.Fits written
  flushed : s.flushes = false → written = []

/-- A machine that has written some bytes to the sink `s` without its bounds, and perhaps more, and the
machine that has failed because `s` refuses these bytes. -/
structure Refused (s : Sink) (bytes : List UInt8) (reason : String) (m : Machine) (failure : Failure)
    (n : Machine) : Prop where
  refuses : s.Refuses bytes reason n.sink
  failure_eq : failure = ⟨.transfer reason, n.here⟩
  ne_nil : bytes ≠ []
  written : s.bytes ++ bytes <+: m.sink.bytes

/-- What leaves the sink alone keeps both machines beside each other. -/
theorem Beside.of_sink_eq {s : Sink} {written : List UInt8} {m m' n : Machine}
    (h : Beside s written m n) (hs : m'.sink = m.sink) :
    Beside s written m' { m' with sink := s.accept written } :=
  { h with unbounded := hs.trans h.unbounded, same := rfl }

/-- The bounded machine is the other one with what is left of the room. -/
theorem Beside.eq_restricted {s : Sink} {written : List UInt8} {room : Nat} {m n : Machine}
    (h : Beside (s.restricted (some room) true) written m n) :
    n = m.restricted (some (room - written.length)) true := by
  have hsink : m.sink.restricted (some (room - written.length)) true =
      (s.restricted (some room) true).accept written := by
    rw [h.unbounded]
    rfl
  rw [h.same, ← hsink]
  rfl

theorem agrees_writeChar (s : Sink) (c : Char) :
    Agrees (fun m n => ∃ written, Beside s written m n)
      (fun m failure n => ∃ bytes reason, Refused s bytes reason m failure n) (writeChar c) := by
  rintro m n ⟨written, hunbounded, rfl, hfits, hflushed⟩
  have hm : writeChar c m =
      .ok () { m with sink := (s.restricted none true).accept (written ++ Text.Utf8.encode c) } := by
    have hunlimited : (s.restricted none true).Unlimited := ⟨rfl, rfl⟩
    refine writeChar_of_none ?_
    rw [hunbounded, (hunlimited.accept written).write, Sink.accept_accept]
  have hwritten : s.bytes ++ (written ++ Text.Utf8.encode c) <+: (left (writeChar c) m).sink.bytes := by
    rw [left, hm]
    show _ <+: ((s.restricted none true).accept (written ++ Text.Utf8.encode c)).bytes
    rw [Sink.bytes_accept]
    exact List.prefix_refl _
  have hne : written ++ Text.Utf8.encode c ≠ [] := by
    rw [Text.Utf8.encode]
    simp
  -- the sink takes the character, or it is full before, or it cannot be flushed
  by_cases hmore : s.Fits (written ++ Text.Utf8.encode c)
  · have hwrite := Sink.write_of_fits hmore
    cases hs : s.flushes with
    | true =>
      rw [hs, if_pos rfl] at hwrite
      have hn := writeChar_of_none (m := { m with sink := s.accept written }) hwrite
      rw [hm, hn]
      exact .inl (.ok () ⟨_, rfl, rfl, hmore, fun h => by rw [hs] at h; cases h⟩)
    | false =>
      rw [hs, if_neg Bool.false_ne_true] at hwrite
      have hn := writeChar_of_some (m := { m with sink := s.accept written }) hwrite
      exact .inr ⟨_, _, hn, _, _, .unflushed hmore hs, rfl, hne, hwritten⟩
  · obtain ⟨room, hroom, hlt⟩ : ∃ room, s.room = some room ∧
        room < (written ++ Text.Utf8.encode c).length := by
      simpa [Sink.Fits] using hmore
    have hn := writeChar_of_some (m := { m with sink := s.accept written })
      (Sink.write_of_lt hroom (hfits room hroom) hlt)
    exact .inr ⟨_, _, hn, _, _, .full hroom hlt, rfl, hne, hwritten⟩

theorem stable_refused (s : Sink) (failure : Failure) (n : Machine) :
    Stable fun m => ∃ bytes reason, Refused s bytes reason m failure n := by
  have hkeeps : ∀ {α : Type} {x : Step α},
      (∀ bytes, Preserves (fun m => bytes <+: m.sink.bytes) x) →
      Preserves (fun m => ∃ bytes reason, Refused s bytes reason m failure n) x := by
    rintro α x hx m ⟨bytes, reason, h⟩
    exact ⟨bytes, reason, { h with written := hx _ m h.written }⟩
  exact {
    push v := hkeeps fun bytes => (stable_written bytes).push v
    pop := hkeeps fun bytes => (stable_written bytes).pop
    advance offset := hkeeps fun bytes => (stable_written bytes).advance offset
    halt := hkeeps fun bytes => (stable_written bytes).halt
    readChar := hkeeps fun bytes => (stable_written bytes).readChar
    writeChar c := hkeeps fun bytes => (stable_written bytes).writeChar c }

theorem lockstep_beside (s : Sink) :
    Lockstep (fun m n => ∃ written, Beside s written m n)
      fun m failure n => ∃ bytes reason, Refused s bytes reason m failure n where
  push v := by
    rintro m n ⟨written, h⟩
    obtain rfl := h.same
    rw [push, push]
    cases m.stack.push v with
    | ok stack => exact .inl (.ok () ⟨written, h.of_sink_eq rfl⟩)
    | error fault => exact .inl (.error fault ⟨written, h⟩)
  pop := by
    rintro m n ⟨written, h⟩
    obtain rfl := h.same
    rw [pop, pop]
    cases m.stack.pop with
    | ok r => exact .inl (.ok r.1 ⟨written, h.of_sink_eq rfl⟩)
    | error fault => exact .inl (.error fault ⟨written, h⟩)
  peek := .peek fun ⟨_, h⟩ => by rw [h.same]
  advance offset := by
    refine .advance offset (fun ⟨_, h⟩ => ?_) (fun ⟨_, h⟩ => ?_) (fun ⟨_, h⟩ => ?_)
      (fun i ⟨written, h⟩ => ?_)
    · rw [h.same]
    · rw [h.same]
    · rw [h.same]; rfl
    · obtain rfl := h.same
      exact ⟨written, h.of_sink_eq rfl⟩
  halt := by
    rintro m n ⟨written, h⟩
    obtain rfl := h.same
    exact .inl (.ok () ⟨written, h.of_sink_eq rfl⟩)
  readChar := by
    refine .readChar (fun ⟨_, h⟩ => ?_) (fun source ⟨written, h⟩ => ?_)
    · rw [h.same]
    · obtain rfl := h.same
      exact ⟨written, h.of_sink_eq rfl⟩
  writeChar := agrees_writeChar s
  stable := stable_refused s
  dictionary := fun ⟨_, h⟩ => by rw [h.same]
  halted := fun ⟨_, h⟩ => by rw [h.same]

theorem agrees_dispatch_beside (s : Sink) :
    Agrees (fun m n => ∃ written, Beside s written m n)
      (fun m failure n => ∃ bytes reason, Refused s bytes reason m failure n) dispatch := by
  refine (lockstep_beside s).dispatch (fun ⟨_, h⟩ => ?_) (fun ⟨_, h⟩ => ?_)
  · rw [h.same]
  · rw [h.same]

theorem beside_start (m : Machine) (program : Program) (room : Option Nat) (flushes : Bool) :
    Beside (m.sink.restricted room flushes) [] ((m.restricted none true).start program)
      ((m.restricted room flushes).start program) where
  unbounded := rfl
  same := by
    rw [Sink.accept_nil]
    rfl
  fits _ _ := Nat.zero_le _
  flushed _ := rfl

/-! ## Sinks with room for some bytes -/

variable {m : Machine} {program : Program}

/-- Bytes that a sink has refused are bytes that the run without bounds has written. -/
theorem Refused.written_after {s : Sink} {bytes : List UInt8} {reason : String} {u n : Machine}
    {failure : Failure} {j k : Nat} (h : Refused s bytes reason (left dispatch u) failure n) (hjk : j < k)
    (hu : after j m = .ok .running u) : s.bytes ++ bytes <+: (machineOf (after k m)).sink.bytes := by
  refine after_keeps_of_le (stable_written _).dispatch hjk ?_
  rw [after_succ_of_running hu]
  exact h.written

theorem resume_bounded {fuel room : Nat} {o : Outcome} {written : List UInt8}
    (h : resume fuel ((m.restricted none true).start program) = some o)
    (hw : (machineOf o).sink.bytes = m.sink.bytes ++ written) :
    (written.length ≤ room → resume fuel ((m.restricted (some room) true).start program) =
      some (onMachine (·.restricted (some (room - written.length)) true) o)) ∧
    (room < written.length → ∃ n, resume fuel ((m.restricted (some room) true).start program) =
      some (.error ⟨.transfer m.sink.whenFull.reason, n.here⟩ n) ∧
        n.sink.bytes = m.sink.bytes ++ written.take room) := by
  have h' := h
  rw [resume_eq_after] at h'
  rw [outcome?_machineOf h'] at hw
  rcases (agrees_dispatch_beside _).after ⟨[], beside_start m program (some room) true⟩ fuel with
    hagree | ⟨j, u, v, failure, n, hj, hu, hv, -, hf, bytes, reason, hrefused⟩
  · obtain ⟨bytes, hbeside⟩ := hagree.machineOf
    obtain rfl : written = bytes := by
      rw [hbeside.unbounded, Sink.bytes_accept] at hw
      exact (List.append_cancel_left hw).symm
    refine ⟨fun _ => ?_, fun hlt => ?_⟩
    · have hsame := hagree.eq_onMachine (f := (·.restricted (some (room - written.length)) true))
        hbeside.eq_restricted (by rw [hbeside.same]; rfl)
      rw [resume_eq_after, hsame, outcome?_onMachine, h']
      rfl
    · have hle := hbeside.fits room rfl
      omega
  · have hbytes : bytes <+: written := by
      have hafter := hrefused.written_after hj hu
      rw [hw] at hafter
      exact (List.prefix_append_right_inj _).1 hafter
    obtain ⟨more, rfl⟩ := hbytes
    obtain ⟨hrefuses, rfl, -, -⟩ := hrefused
    generalize hsink : n.sink = sink at hrefuses
    cases hrefuses with
    | unflushed _ hflushes => cases hflushes
    | full hroom hlt =>
      cases hroom
      rw [List.length_append]
      refine ⟨fun hle => by omega, fun _ => ⟨n, resume_of_dispatch hj hv (by rw [hf]; rfl), ?_⟩⟩
      rw [hsink, Sink.bytes_accept, List.take_append_of_le_length (by omega)]
      rfl

/-! ## Sinks that cannot be flushed -/

/-- The word to be fetched next writes a character. -/
structure Writes (u : Machine) (c : Char) : Prop where
  selected : u.upcoming? = some .output
  top : ∃ v rest, u.stack.items = v :: rest ∧ charOfValue? v = some c

/-- A dispatch that changes the sink writes a character. -/
theorem writes_of_sink_ne {u : Machine} (h : WellFormed u) (hne : (left dispatch u).sink ≠ u.sink) :
    ∃ c, Writes u c := by
  have hselected : u.upcoming? = some .output := by
    by_contra ho
    exact hne (sink_dispatch h ho)
  have hdispatch : left dispatch u = left (perform .output) u.fetched := by
    rcases left_dispatch h with he | he | ⟨a, ha, he⟩
    · rw [he] at hne
      exact absurd rfl hne
    · rw [he] at hne
      exact absurd rfl hne
    · rw [hselected] at ha
      cases ha
      exact he
  rcases hs : u.stack.items with _ | ⟨v, rest⟩
  · rw [hdispatch, left, perform, bind_error (pop_nil (m := u.fetched) hs)] at hne
    exact absurd rfl hne
  · cases hc : charOfValue? v with
    | some c => exact ⟨c, hselected, v, rest, hs, hc⟩
    | none =>
      obtain ⟨stack, hp, -⟩ := pop_cons (m := u.fetched) hs
      rw [hdispatch, left, perform, bind_ok hp, hc] at hne
      exact absurd rfl hne

/-- If the sink refuses the character, the dispatch fails. -/
theorem Writes.dispatch_error {u : Machine} {c : Char} {reason : String} {sink : Sink}
    (h : Writes u c) (hu : WellFormed u)
    (hsink : u.sink.write (Text.Utf8.encode c) = (some reason, sink)) :
    ∃ n, dispatch u = .error ⟨.transfer reason, n.here⟩ n ∧ n.sink = sink := by
  obtain ⟨v, rest, hs, hc⟩ := h.top
  obtain ⟨stack, hp, -⟩ := pop_cons (m := u.fetched) hs
  have hwrite := writeChar_of_some (m := { u.fetched with stack }) hsink
  have hperform : perform .output u.fetched =
      .error ⟨.transfer reason, u.fetched.here⟩ { u.fetched with stack, sink } := by
    rw [perform, bind_ok hp, hc]
    exact hwrite
  refine ⟨{ u.fetched with stack, sink }, ?_, rfl⟩
  rw [dispatch_of_upcoming? hu h.selected, hperform]
  rfl

/-- The first output of a run without bounds: after `k` dispatches nothing has been written, and the next
word writes a character. -/
structure FirstOutput (m : Machine) (program : Program) (k : Nat) (u : Machine) (c : Char) : Prop where
  running : after k ((m.restricted none true).start program) = .ok .running u
  sink_eq : u.sink = m.sink.restricted none true
  writes : Writes u c

theorem exists_firstOutput (hm : ∀ a, (m.dictionary.find? a).isSome = true) {k : Nat}
    (h : (machineOf (after k ((m.restricted none true).start program))).sink.bytes ≠ m.sink.bytes) :
    ∃ j < k, ∃ u c, FirstOutput m program j u c := by
  have hsink : (machineOf (after k ((m.restricted none true).start program))).sink ≠
      ((m.restricted none true).start program).sink := by
    intro he
    rw [he] at h
    exact h rfl
  obtain ⟨j, u, hj, hu, hsame, hne⟩ := exists_first_change (f := Machine.sink) hsink
  have hwell := wellFormed_running (wellFormed_start (m := m.restricted none true) hm program) hu
  obtain ⟨c, hc⟩ := writes_of_sink_ne hwell (hsame.symm ▸ hne)
  exact ⟨j, hj, u, c, hu, hsame, hc⟩

/-- Until its first output a run goes alike whatever the bounds of the sink. -/
theorem FirstOutput.running_restricted {k : Nat} {u : Machine} {c : Char}
    (h : FirstOutput m program k u c) (room : Option Nat) :
    after k ((m.restricted room false).start program) = .ok .running (u.restricted room false) := by
  rcases (agrees_dispatch_beside _).after ⟨[], beside_start m program room false⟩ k with
    hagree | ⟨j, u', v, failure, n, hj, hu', -, -, -, bytes, reason, hrefused⟩
  · obtain ⟨written, hbeside⟩ := hagree.machineOf
    obtain rfl := hbeside.flushed rfl
    have hsame := hagree.eq_onMachine (f := (·.restricted room false)) ?_ (by rw [hbeside.same]; rfl)
    · rw [hsame, h.running]
      rfl
    · rw [hbeside.same, Sink.accept_nil, h.running]
      show _ = restricted u room false
      rw [restricted, h.sink_eq]
      rfl
  · have hafter := hrefused.written_after hj hu'
    rw [h.running] at hafter
    have hle := hafter.length_le
    rw [List.length_append] at hle
    have hsize : u.sink.bytes.length = m.sink.bytes.length := by
      rw [h.sink_eq]
      rfl
    have hpos := List.length_pos_iff.2 hrefused.ne_nil
    exact absurd (show m.sink.bytes.length + bytes.length ≤ u.sink.bytes.length from hle) (by omega)

/-- **Sinks with bounds.**  If a run ends that writes to a sink without bounds, then with room for what
it writes it is the same, and with less room it fails, when the sink has taken as many bytes of that as
there was room for.  If a sink cannot be flushed, a run fails at its first output, when the sink has taken
the character that it writes. -/
theorem run_restricted (hm : ∀ a, (m.dictionary.find? a).isSome = true) (text : String) :
    (∀ fuel o, run fuel (m.restricted none true) text = some o →
      ∃ written, (machineOf o).sink.bytes = m.sink.bytes ++ written ∧ ∀ room,
        (written.length ≤ room → run fuel (m.restricted (some room) true) text =
          some (onMachine (·.restricted (some (room - written.length)) true) o)) ∧
        (room < written.length → ∃ n, run fuel (m.restricted (some room) true) text =
          some (.error ⟨.transfer m.sink.whenFull.reason, n.here⟩ n) ∧
            n.sink.bytes = m.sink.bytes ++ written.take room)) ∧
    (∀ k, (machineOf (after k ((m.restricted none true).start (.ofText text)))).sink.bytes ≠
        m.sink.bytes →
      ∃ j < k, ∃ u c, FirstOutput m (.ofText text) j u c ∧ ∀ room,
        (∀ r, room = some r → (Text.Utf8.encode c).length ≤ r) → ∃ n,
          dispatch (u.restricted room false) = .error ⟨.transfer "flush failed", n.here⟩ n ∧
          n.sink.bytes = m.sink.bytes ++ Text.Utf8.encode c ∧ ∀ fuel, j < fuel →
            run fuel (m.restricted room false) text =
              some (.error ⟨.transfer "flush failed", n.here⟩ n)) := by
  refine ⟨fun fuel o h => ?_, fun k h => ?_⟩
  · have hgrown : m.sink.bytes <+: (machineOf o).sink.bytes :=
      resume_keeps (stable_written m.sink.bytes).dispatch
        (m := (m.restricted none true).start (.ofText text)) (List.prefix_refl _) h
    obtain ⟨written, hwritten⟩ := hgrown
    exact ⟨written, hwritten.symm, fun room => resume_bounded h hwritten.symm⟩
  · obtain ⟨j, hj, u, c, hfirst⟩ := exists_firstOutput hm h
    refine ⟨j, hj, u, c, hfirst, fun room hroom => ?_⟩
    have hrunning := hfirst.running_restricted room
    have hwell :=
      wellFormed_running (wellFormed_start (m := m.restricted room false) hm (.ofText text)) hrunning
    have hwrites : Writes (u.restricted room false) c := ⟨hfirst.writes.selected, hfirst.writes.top⟩
    have hsink : (u.restricted room false).sink = (m.sink.restricted room false).accept [] := by
      rw [restricted, hfirst.sink_eq, Sink.accept_nil]
      rfl
    have hrefuses : (u.restricted room false).sink.write (Text.Utf8.encode c) =
        (some "flush failed", (m.sink.restricted room false).accept (Text.Utf8.encode c)) := by
      rw [hsink]
      exact Sink.write_of_fits (a := []) hroom
    obtain ⟨n, hn, hleft⟩ := hwrites.dispatch_error hwell hrefuses
    refine ⟨n, hn, ?_, fun fuel hfuel => resume_of_dispatch hfuel hrunning (by rw [hn]; rfl)⟩
    rw [hleft, Sink.bytes_accept]
    rfl

/-- A program that writes a character of two bytes twice.  With room for four bytes it runs to its end,
with room for three it fails within the second character, and without flushing after the first one. -/
theorem run_restricted_two_characters :
    let m : Machine := { letters := .ofList [('p', 5), ('u', 9), ('e', 233)] }
    (∃ o, run 9 (m.restricted none true) "p e u p e u" = some o ∧
      (machineOf o).sink.bytes = [0xC3, 0xA9, 0xC3, 0xA9] ∧
      run 9 (m.restricted (some 4) true) "p e u p e u" =
        some (onMachine (·.restricted (some 0) true) o)) ∧
    (∃ n, run 9 (m.restricted (some 3) true) "p e u p e u" =
      some (.error ⟨.transfer "sink full", n.here⟩ n) ∧ n.sink.bytes = [0xC3, 0xA9, 0xC3]) ∧
    ∃ j u c n, FirstOutput m (.ofText "p e u p e u") j u c ∧
      run 9 (m.restricted none false) "p e u p e u" =
        some (.error ⟨.transfer "flush failed", n.here⟩ n) ∧ n.sink.bytes = Text.Utf8.encode c := by
  intro m
  obtain ⟨hroom, hflush⟩ := run_restricted (m := m) isSome_find?_builtIn "p e u p e u"
  have hends : (run 9 (m.restricted none true) "p e u p e u").map
      (fun o => (machineOf o).sink.bytes) = some [0xC3, 0xA9, 0xC3, 0xA9] := by decide +kernel
  obtain ⟨o, ho, hbytes⟩ := Option.map_eq_some_iff.1 hends
  obtain ⟨written, hwritten, hrooms⟩ := hroom 9 o ho
  obtain rfl : written = [0xC3, 0xA9, 0xC3, 0xA9] := hwritten.symm.trans hbytes
  refine ⟨⟨o, ho, hbytes, (hrooms 4).1 (by decide)⟩, (hrooms 3).2 (by decide), ?_⟩
  obtain ⟨j, hj, u, c, hfirst, hfails⟩ := hflush 9 (by decide +kernel)
  obtain ⟨n, -, hsink, hrun⟩ := hfails none nofun
  exact ⟨j, u, c, n, hfirst, hrun 9 hj, hsink⟩

end Machine

end Beatnik
