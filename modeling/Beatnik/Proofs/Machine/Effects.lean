import Beatnik.Proofs.Machine.Course

/-!
# Reading and writing

Only words that select `output` change the sink:

    m.upcoming? ≠ some .output → (left dispatch m).sink = m.sink                    (sink_dispatch)

A sink only grows, at its end (`stable_written`).
-/

namespace Beatnik

/-! ## Sinks -/

theorem Sink.write_snd (s : Sink) (bytes : List UInt8) :
    (s.write bytes).2 = s.accept (s.fitting bytes) := by
  rw [write]
  split
  · rfl
  · split <;> rfl

namespace Machine

/-! ## Characters -/

section

variable {m : Machine} {c : Char} {sink : Sink} {source : Source}

theorem readChar_of_ok {c : Option Char} (h : Source.readChar m.source = .ok c source) :
    readChar m = .ok c { m with source } := by
  rw [readChar, h]

theorem readChar_of_error {fault : Fault} (h : Source.readChar m.source = .error fault source) :
    readChar m = .error ⟨fault, m.here⟩ { m with source } := by
  rw [readChar, h]

theorem writeChar_of_none (h : m.sink.write (Text.Utf8.encode c) = (none, sink)) :
    writeChar c m = .ok () { m with sink } := by
  rw [writeChar, h]

theorem writeChar_of_some {reason : String}
    (h : m.sink.write (Text.Utf8.encode c) = (some reason, sink)) :
    writeChar c m = .error ⟨.transfer reason, m.here⟩ { m with sink } := by
  rw [writeChar, h]

end

/-! ## Actions -/

theorem Internal.left_sink {α : Type} {x : Step α} (hx : Internal x) (m : Machine) :
    (left x m).sink = m.sink := by
  have hkeeps : Preserves (fun n => n.sink = m.sink) x := by
    induction hx with
    | pure a => exact .pure a
    | fail fault => exact .fail fault
    | bind _ _ ihx ihf => exact ihx.bind ihf
    | push v =>
      intro n hn
      rcases left_push v n with he | ⟨stack, -, he⟩
      · rwa [he]
      · rwa [he]
    | pop =>
      intro n hn
      rcases left_pop n with he | ⟨v, stack, -, he⟩
      · rwa [he]
      · rwa [he]
    | peek => exact Stable.peek
    | advance offset =>
      intro n hn
      rcases left_advance offset n with he | ⟨-, -, he⟩
      · rwa [he]
      · rwa [he]
    | halt => exact fun n hn => hn
  exact hkeeps m rfl

theorem left_writeChar_eq (c : Char) (m : Machine) :
    left (writeChar c) m =
      { m with sink := m.sink.accept (m.sink.fitting (Text.Utf8.encode c)) } := by
  rw [← Sink.write_snd, left, writeChar]
  rcases m.sink.write (Text.Utf8.encode c) with ⟨_ | reason, sink⟩ <;> rfl

variable {m : Machine} {a : Action}

theorem sink_perform (h : a ≠ .output) (m : Machine) : (left (perform a) m).sink = m.sink := by
  by_cases hi : a = .input
  · subst hi
    have hkeeps : Preserves (fun n => n.sink = m.sink) (perform .input) := by
      refine Preserves.bind (fun n hn => ?_) (fun c => ?_)
      · obtain ⟨source, he⟩ := left_readChar n
        rwa [he]
      · cases c with
        | some c => exact fun n hn => ((Internal.push _).left_sink n).trans hn
        | none => exact .fail _
    exact hkeeps m rfl
  · exact (internal_perform hi h).left_sink m

/-! ## Dispatches -/

/-- What a dispatch leaves is left by the behaviour that the word selects, if it selects any. -/
theorem left_dispatch (h : WellFormed m) :
    left dispatch m = m ∨ left dispatch m = m.fetched ∨
      ∃ a, m.upcoming? = some a ∧ left dispatch m = left (perform a) m.fetched := by
  have hcases := dispatched h
  rw [left]
  generalize dispatch m = r at hcases
  cases hcases with
  | last _ => exact .inl rfl
  | inert _ _ => exact .inr (.inl rfl)
  | done a m' hselected hp => exact .inr (.inr ⟨a, hselected, by rw [left, hp]; rfl⟩)
  | failed a failure m' hselected hp => exact .inr (.inr ⟨a, hselected, by rw [left, hp]; rfl⟩)

theorem sink_dispatch (h : WellFormed m) (ho : m.upcoming? ≠ some .output) :
    (left dispatch m).sink = m.sink := by
  rcases left_dispatch h with he | he | ⟨a, ha, he⟩
  · rw [he]
  · rw [he]
    rfl
  · rw [he]
    exact sink_perform (fun hout => ho (hout ▸ ha)) m.fetched

/-! ## Growth of the output -/

theorem Internal.preserves_written {α : Type} {x : Step α} (hx : Internal x) (bytes : List UInt8) :
    Preserves (fun m => bytes <+: m.sink.bytes) x := by
  intro m h
  show bytes <+: (left x m).sink.bytes
  rwa [hx.left_sink m]

/-- What has been written stays written. -/
theorem stable_written (bytes : List UInt8) : Stable fun m => bytes <+: m.sink.bytes where
  push v := (Internal.push v).preserves_written bytes
  pop := Internal.pop.preserves_written bytes
  advance offset := (Internal.advance offset).preserves_written bytes
  halt := Internal.halt.preserves_written bytes
  readChar m h := by
    obtain ⟨source, he⟩ := left_readChar m
    rwa [he]
  writeChar c m h := by
    rw [left_writeChar_eq]
    show bytes <+: (m.sink.accept _).bytes
    rw [Sink.bytes_accept]
    exact h.trans (List.prefix_append _ _)

end Machine

end Beatnik
