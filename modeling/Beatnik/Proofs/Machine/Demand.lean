import Beatnik.Proofs.Machine.Effects

/-!
# Reading on demand

A machine looks at its source only when a word reads a character, and then only at the bytes that the
character asks for.  So a dispatch that gets all the bytes that it asks for takes some bytes off the
source, and does the same whatever comes after them (`exists_taken`):

    ∀ more, dispatch (u.fed (ofBytes (taken ++ more))) =
      onMachine (·.fed (ofBytes more)) (dispatch u)

A run that never asks for more bytes than there are does the same with any other bytes after those that it
has taken, and leaves them; a run that asks for more fails there (`run_on_demand`).
-/

namespace Beatnik.Machine

def fed (m : Machine) (source : Source) : Machine := { m with source }

/-! ## Computations that do not read -/

/-- A computation does the same whatever the source. -/
def Ignores {α : Type} (x : Step α) : Prop :=
  ∀ (m : Machine) (source : Source), x (m.fed source) = onMachine (·.fed source) (x m)

namespace Ignores

variable {α β : Type}

theorem fail (fault : Fault) : Ignores (Machine.fail fault : Step α) := fun _ _ => rfl

theorem bind {x : Step α} {f : α → Step β} (hx : Ignores x) (hf : ∀ a, Ignores (f a)) :
    Ignores (x >>= f) := by
  intro m source
  cases h : x m with
  | ok a m' =>
    have h' : x (m.fed source) = .ok a (m'.fed source) := by rw [hx, h]; rfl
    rw [bind_ok h, bind_ok h']
    exact hf a m' source
  | error e m' =>
    have h' : x (m.fed source) = .error e (m'.fed source) := by rw [hx, h]; rfl
    rw [bind_error h, bind_error h']
    rfl

theorem push (v : Value) : Ignores (Machine.push v) := by
  intro m source
  rw [Machine.push, Machine.push, show (m.fed source).stack = m.stack from rfl]
  cases m.stack.push v <;> rfl

theorem pop : Ignores Machine.pop := by
  intro m source
  rw [Machine.pop, Machine.pop, show (m.fed source).stack = m.stack from rfl]
  cases m.stack.pop <;> rfl

theorem peek : Ignores Machine.peek := by
  intro m source
  rw [Machine.peek, Machine.peek, show (m.fed source).stack = m.stack from rfl]
  cases m.stack.peek <;> rfl

theorem advance (offset : Value) : Ignores (Machine.advance offset) := by
  intro m source
  by_cases hc : -1 ≤ m.index + offset.toInt ∧ m.index + offset.toInt < m.words.size
  · have hc' : -1 ≤ (m.fed source).index + offset.toInt ∧
        (m.fed source).index + offset.toInt < (m.fed source).words.size := hc
    rw [Machine.advance, Machine.advance, if_pos hc, if_pos hc']
    rfl
  · rw [advance_out hc, advance_out (m := m.fed source) hc]
    rfl

theorem writeChar (c : Char) : Ignores (Machine.writeChar c) := by
  intro m source
  rw [Machine.writeChar, Machine.writeChar, show (m.fed source).sink = m.sink from rfl]
  rcases m.sink.write (Text.Utf8.encode c) with ⟨_ | reason, sink⟩ <;> rfl

theorem of_internal {x : Step α} (h : Internal x) : Ignores x := by
  induction h with
  | pure a => exact fun _ _ => rfl
  | fail fault => exact fail fault
  | bind _ _ ihx ihf => exact ihx.bind ihf
  | push v => exact push v
  | pop => exact pop
  | peek => exact peek
  | advance offset => exact advance offset
  | halt => exact fun _ _ => rfl

theorem perform {a : Action} (h : a ≠ .input) : Ignores (Machine.perform a) := by
  by_cases ho : a = .output
  · subst ho
    refine pop.bind fun v => ?_
    cases charOfValue? v with
    | some c => exact writeChar c
    | none => exact fail _
  · exact of_internal (internal_perform h ho)

end Ignores

/-! ## Dispatches -/

section

variable {u : Machine} {bytes : List UInt8}

theorem WellFormed.fed (h : WellFormed u) (source : Source) : WellFormed (u.fed source) := { h with }

theorem concluded_fed (r : EStateM.Result Failure Machine Unit) (source : Source) :
    concluded (onMachine (·.fed source) r) = onMachine (·.fed source) (concluded r) := by
  cases r <;> rfl

/-- A word that reads no character does the same whatever the source. -/
theorem dispatch_fed (h : WellFormed u) (hi : u.upcoming? ≠ some .input) (source : Source) :
    dispatch (u.fed source) = onMachine (·.fed source) (dispatch u) := by
  by_cases hlast : u.index = u.words.size - 1
  · rw [dispatch_none hlast, dispatch_none (m := u.fed source) hlast]
    rfl
  · cases hs : u.upcoming? with
    | none =>
      rw [dispatch_of_upcoming?_none h hlast hs,
        dispatch_of_upcoming?_none (m := u.fed source) (h.fed source) hlast hs]
      rfl
    | some a =>
      have ha : a ≠ .input := fun hin => hi (hin ▸ hs)
      rw [dispatch_of_upcoming? h hs, dispatch_of_upcoming? (m := u.fed source) (h.fed source) hs,
        ← concluded_fed]
      exact congrArg concluded (Ignores.perform ha u.fetched source)

theorem perform_input_fed {m : Machine} {s t s' : Source} {r : Except Fault (Option Char)}
    (h : Source.readChar m.source = Source.giving r s) (h' : Source.readChar t = Source.giving r s') :
    perform .input (m.fed t) = onMachine (·.fed s') (perform .input m) := by
  cases r with
  | error fault =>
    rw [perform, bind_error (readChar_of_error h), bind_error (readChar_of_error (m := m.fed t) h')]
    rfl
  | ok c =>
    rw [perform, bind_ok (readChar_of_ok h), bind_ok (readChar_of_ok (m := m.fed t) h')]
    cases c with
    | none => rfl
    | some c => exact Ignores.push _ (m.fed s) s'

/-- A dispatch that gets the bytes that it asks for takes some bytes off the source, and does the same
whatever comes after them. -/
theorem exists_taken (h : WellFormed u) (hu : u.source = .ofBytes bytes)
    (hasked : u.upcoming? = some .input → Source.asked bytes ≤ bytes.length) :
    ∃ taken rest, bytes = taken ++ rest ∧ ∀ more, dispatch (u.fed (.ofBytes (taken ++ more))) =
      onMachine (·.fed (.ofBytes more)) (dispatch u) := by
  by_cases hi : u.upcoming? = some .input
  · obtain ⟨got, rest, rfl, hgot⟩ := Source.exists_asked (hasked hi)
    have hread := Source.readChar_of_length_eq hgot
    refine ⟨got, rest, rfl, fun more => ?_⟩
    have hsource : Source.readChar u.fetched.source = _ :=
      (congrArg Source.readChar hu).trans (hread rest)
    rw [dispatch_of_upcoming? h hi,
      dispatch_of_upcoming? (m := u.fed (.ofBytes (got ++ more))) (h.fed _) hi, ← concluded_fed]
    exact congrArg concluded (perform_input_fed hsource (hread more))
  · exact ⟨[], bytes, rfl, fun more => dispatch_fed h hi (.ofBytes more)⟩

/-- What is left of the source after such a dispatch. -/
theorem source_of_taken {taken rest : List UInt8} (hu : u.source = .ofBytes (taken ++ rest))
    (h : ∀ more, dispatch (u.fed (.ofBytes (taken ++ more))) =
      onMachine (·.fed (.ofBytes more)) (dispatch u)) :
    (left dispatch u).source = .ofBytes rest := by
  have hself := h rest
  rw [← hu, show u.fed u.source = u from rfl] at hself
  rw [left, hself]
  cases dispatch u <;> rfl

/-- A dispatch that asks for more bytes than there are takes them all and fails. -/
theorem dispatch_of_length_lt (h : WellFormed u) (hi : u.upcoming? = some .input)
    (hu : u.source = .ofBytes bytes) (hlt : bytes.length < Source.asked bytes) :
    dispatch u = .error
      ⟨if bytes = [] then .endOfInput else .undecodableInput bytes, u.fetched.here⟩
      (u.fetched.fed []) := by
  have hread : Source.readChar u.fetched.source = _ :=
    (congrArg Source.readChar hu).trans (Source.readChar_of_length_lt hlt)
  rw [dispatch_of_upcoming? h hi, perform]
  split at hread
  · next hnil =>
    rw [bind_ok (readChar_of_ok hread), if_pos hnil]
    rfl
  · next hne =>
    rw [bind_error (readChar_of_error hread), if_neg hne]
    rfl

end

/-! ## Runs -/

/-- A run meets the end of its input: it comes to a word that reads a character, which asks for more
bytes than there are. -/
def MeetsEnd (m : Machine) : Prop :=
  ∃ k u bytes, after k m = .ok .running u ∧ u.upcoming? = some .input ∧
    u.source = .ofBytes bytes ∧ bytes.length < Source.asked bytes

variable {m u : Machine} {input : List UInt8} {k : Nat}

/-- As long as a run goes on that does not meet the end, it goes on alike with any other bytes after
those that it has taken. -/
theorem running_on_demand (hm : WellFormed m) (hend : ¬ MeetsEnd (m.fed (.ofBytes input)))
    (hu : after k (m.fed (.ofBytes input)) = .ok .running u) :
    ∃ taken rest, input = taken ++ rest ∧ u.source = .ofBytes rest ∧
      ∀ more, after k (m.fed (.ofBytes (taken ++ more))) = .ok .running (u.fed (.ofBytes more)) := by
  induction k generalizing u with
  | zero =>
    cases hu
    exact ⟨[], input, rfl, rfl, fun more => rfl⟩
  | succ k ih =>
    obtain ⟨v, hv, hvu⟩ := running_of_succ hu
    obtain ⟨taken, rest, rfl, hsource, hgoes⟩ := ih hv
    obtain ⟨taken', rest', rfl, hdispatch⟩ :=
      exists_taken (wellFormed_running (hm.fed _) hv) hsource fun hi =>
        Nat.le_of_not_lt fun hlt => hend ⟨k, v, rest, hv, hi, hsource, hlt⟩
    have hleft := source_of_taken hsource hdispatch
    rw [left, hvu] at hleft
    refine ⟨taken ++ taken', rest', (List.append_assoc _ _ _).symm, hleft, fun more => ?_⟩
    rw [List.append_assoc, after_succ_of_running (hgoes (taken' ++ more)), hdispatch, hvu]
    rfl

/-- **On demand.**  A run that ends without having met the end of its input has taken some bytes off it.
With any other bytes after these it is the same, and leaves those, for a later run to start with.  A run
that meets the end fails there, for want of a character or of the rest of one. -/
theorem run_on_demand (hm : ∀ a, (m.dictionary.find? a).isSome = true) {text : String} {fuel : Nat}
    {o : Outcome} (h : run fuel (m.fed (.ofBytes input)) text = some o) :
    (¬ MeetsEnd ((m.fed (.ofBytes input)).start (.ofText text)) →
      ∃ taken unread, input = taken ++ unread ∧ (machineOf o).source = .ofBytes unread ∧ ∀ more,
        run fuel (m.fed (.ofBytes (taken ++ more))) text =
          some (onMachine (·.fed (.ofBytes more)) o) ∧
        ∀ later, ((machineOf (onMachine (·.fed (.ofBytes more)) o)).start later).source =
          .ofBytes more) ∧
    (MeetsEnd ((m.fed (.ofBytes input)).start (.ofText text)) →
      ∃ failure n, o = .error failure n ∧ n.source = [] ∧
        (failure.fault = .endOfInput ∨
          ∃ bytes, failure.fault = .undecodableInput bytes ∧ bytes.length < Source.asked bytes)) := by
  have hwell : WellFormed (m.start (.ofText text)) := wellFormed_start hm _
  rw [run, resume_eq_after] at h
  refine ⟨fun hend => ?_, ?_⟩
  · obtain ⟨k, u, hk, hu, ho⟩ := exists_last_dispatch h
    obtain ⟨taken, rest, rfl, hsource, hgoes⟩ := running_on_demand hwell hend hu
    obtain ⟨taken', unread, rfl, hdispatch⟩ :=
      exists_taken (wellFormed_running (hwell.fed _) hu) hsource fun hi =>
        Nat.le_of_not_lt fun hlt => hend ⟨k, u, rest, hu, hi, hsource, hlt⟩
    refine ⟨taken ++ taken', unread, (List.append_assoc _ _ _).symm, ?_, fun more => ⟨?_, ?_⟩⟩
    · rw [outcome?_machineOf ho]
      exact source_of_taken hsource hdispatch
    · rw [List.append_assoc]
      refine resume_of_dispatch hk (hgoes (taken' ++ more)) ?_
      rw [hdispatch, outcome?_onMachine, ho]
      rfl
    · intro later
      cases o <;> rfl
  · rintro ⟨k, u, bytes, hu, hi, hsource, hlt⟩
    have hended : outcome? (after (k + 1) ((m.fed (.ofBytes input)).start (.ofText text))) =
        some (.error ⟨if bytes = [] then .endOfInput else .undecodableInput bytes, u.fetched.here⟩
          (u.fetched.fed [])) := by
      rw [after_succ_of_running hu,
        dispatch_of_length_lt (wellFormed_running (hwell.fed _) hu) hi hsource hlt]
      rfl
    refine ⟨_, _, outcome?_unique h hended, rfl, ?_⟩
    show (if bytes = [] then _ else _) = _ ∨ ∃ _, (if bytes = [] then _ else _) = _ ∧ _
    split
    · exact .inl rfl
    · exact .inr ⟨bytes, rfl, hlt⟩

/-- A program that reads a character and stops takes its two bytes and no others.  With the first byte
alone it fails. -/
theorem run_on_demand_two_bytes :
    let m : Machine := { letters := .ofList [('i', 8), ('q', 17)] }
    ¬ MeetsEnd ((m.fed (.ofBytes [0xC3, 0xA9, 0x41])).start (.ofText "i q i")) ∧
    (∃ o, run 9 (m.fed (.ofBytes [0xC3, 0xA9, 0x41])) "i q i" = some o ∧
      ∀ more, run 9 (m.fed (.ofBytes (0xC3 :: 0xA9 :: more))) "i q i" =
        some (onMachine (·.fed (.ofBytes more)) o)) ∧
    MeetsEnd ((m.fed (.ofBytes [0xC3])).start (.ofText "i q i")) ∧
    ∃ failure n, run 9 (m.fed (.ofBytes [0xC3])) "i q i" = some (.error failure n) ∧
      n.source = [] := by
  intro m
  have hstops : (run 9 (m.fed (.ofBytes [0xC3, 0xA9, 0x41])) "i q i").map
      (fun o => (failure? o, (machineOf o).source)) = some (none, .ofBytes [0x41]) := by
    decide +kernel
  obtain ⟨o, ho, hsource⟩ := Option.map_eq_some_iff.1 hstops
  obtain ⟨hdemand, hmeets⟩ := run_on_demand isSome_find?_builtIn ho
  have hend : ¬ MeetsEnd ((m.fed (.ofBytes [0xC3, 0xA9, 0x41])).start (.ofText "i q i")) := by
    intro h
    obtain ⟨failure, n, rfl, -⟩ := hmeets h
    cases hsource
  obtain ⟨taken, unread, hinput, hunread, hmore⟩ := hdemand hend
  obtain rfl : unread = [0x41] := by
    refine List.map_injective_iff.2 (fun _ _ h => Delivery.byte.inj h) ?_
    exact hunread.symm.trans (congrArg Prod.snd hsource)
  obtain rfl : taken = [0xC3, 0xA9] := List.append_cancel_right hinput.symm
  have hfails : (run 9 (m.fed (.ofBytes [0xC3])) "i q i").isSome = true := by decide +kernel
  obtain ⟨o', ho'⟩ := Option.isSome_iff_exists.1 hfails
  have hend' : MeetsEnd ((m.fed (.ofBytes [0xC3])).start (.ofText "i q i")) :=
    ⟨0, _, [0xC3], rfl, by decide +kernel, rfl, by decide⟩
  obtain ⟨failure, n, rfl, hn, -⟩ := (run_on_demand isSome_find?_builtIn ho').2 hend'
  exact ⟨hend, ⟨o, ho, fun more => (hmore more).1⟩, hend', failure, n, ho', hn⟩

end Beatnik.Machine
