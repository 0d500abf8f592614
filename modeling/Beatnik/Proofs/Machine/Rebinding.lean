import Beatnik.Proofs.Machine.Lockstep
import Beatnik.Proofs.Machine.Sessions

/-!
# Re-bound actions

An action that is given the behaviour of another one has from then on the built-in behaviour that the
other one has at that moment, and keeps it when the other one is given a new one.  So after a session
each action has one built-in behaviour, its origin, found by following the bindings in order
(`origin`), and the texts that it was given last (`texts`).  The dictionary says just that, and so do
the actions:

    m.obeyAll commands = some m' → m'.dictionary.Holds (entryAfter commands)     (holds_of_obeyAll)
    … → execute a m' = concluded (perform (origin commands a) m')             (execute_bound_early)

for a machine `m` with the built-in dictionary.
-/

namespace Beatnik.Machine

/-! ## What was bound -/

/-- The origins of actions after a command. -/
def Command.redirect (origin : Action → Action) : Command → Action → Action
  | .rebind action source _ _ => Function.update origin action (origin source)
  | _ => origin

/-- The built-in behaviour that each action has after some commands: at first its own, and with each
binding the one that the source has then. -/
def origin (commands : List Command) : Action → Action := commands.foldl Command.redirect id

/-- The description and the signature that a command gives to an action. -/
def Command.texts? (a : Action) : Command → Option (String × String)
  | .rebind action _ description signature =>
    if action = a then some (description, signature) else none
  | _ => none

/-- The description and the signature of an action after some commands: those of the last command that
gives it any. -/
def texts (commands : List Command) (a : Action) : String × String :=
  (commands.reverse.findSome? (Command.texts? a)).getD (Dictionary.describe a, Dictionary.signatureOf a)

/-- The entry that an action should have after some commands. -/
def entryAfter (commands : List Command) (a : Action) : Dictionary.Entry :=
  ⟨a, origin commands a, (texts commands a).1, (texts commands a).2⟩

/-- A command gives no behaviour to an action. -/
def Command.Spares (a : Action) (c : Command) : Prop :=
  ∀ source description signature, c ≠ .rebind a source description signature

theorem origin_concat (commands : List Command) (c : Command) :
    origin (commands ++ [c]) = c.redirect (origin commands) := by
  rw [origin, List.foldl_append]
  rfl

theorem texts_concat (commands : List Command) (c : Command) (a : Action) :
    texts (commands ++ [c]) a = (c.texts? a).getD (texts commands a) := by
  rw [texts, List.reverse_append, List.reverse_singleton, List.singleton_append,
    List.findSome?_cons]
  cases c.texts? a with
  | none => rfl
  | some t => rfl

theorem entryAfter_concat_rebind (commands : List Command) (action source : Action)
    (description signature : String) :
    entryAfter (commands ++ [.rebind action source description signature]) =
      Function.update (entryAfter commands) action
        ⟨action, (entryAfter commands source).behaviour, description, signature⟩ := by
  funext a
  rw [entryAfter, origin_concat, texts_concat, Function.update_apply]
  by_cases ha : a = action
  · subst ha
    simp [Command.redirect, Command.texts?, entryAfter]
  · simp [Command.redirect, Command.texts?, entryAfter, ha, Ne.symm ha]

theorem entryAfter_concat {c : Command} (h : ∀ a, c.Spares a) (commands : List Command) :
    entryAfter (commands ++ [c]) = entryAfter commands := by
  funext a
  rw [entryAfter, origin_concat, texts_concat]
  cases c with
  | rebind action source description signature =>
    exact absurd rfl (h action source description signature)
  | _ => rfl

/-- Bindings of other actions leave the origin of an action, also those of the action that it has got its
behaviour from. -/
theorem origin_append {a : Action} {more : List Command} (h : ∀ c ∈ more, c.Spares a)
    (commands : List Command) : origin (commands ++ more) a = origin commands a := by
  induction more using List.reverseRecOn with
  | nil => rw [List.append_nil]
  | append_singleton more c ih =>
    have hmore := ih fun c' hc' => h c' (List.mem_append_left _ hc')
    rw [← List.append_assoc, origin_concat, ← hmore]
    cases c with
    | rebind action source description signature =>
      have hne : a ≠ action := by
        rintro rfl
        exact h _ (List.mem_append_right _ (List.mem_singleton.2 rfl)) _ _ _ rfl
      exact Function.update_of_ne hne _ _
    | _ => rfl

/-! ## The dictionary after a session -/

theorem stable_dictionary (d : Dictionary) : Stable fun m => m.dictionary = d where
  push v m h := ((stable_frame m).push v m (.refl m)).dictionary.trans h
  pop m h := ((stable_frame m).pop m (.refl m)).dictionary.trans h
  advance offset m h := ((stable_frame m).advance offset m (.refl m)).dictionary.trans h
  halt _ h := h
  readChar m h := ((stable_frame m).readChar m (.refl m)).dictionary.trans h
  writeChar c m h := ((stable_frame m).writeChar c m (.refl m)).dictionary.trans h

theorem obeyAll_append (m : Machine) (commands more : List Command) :
    m.obeyAll (commands ++ more) = (m.obeyAll commands).bind (·.obeyAll more) :=
  List.foldlM_append

theorem obeyAll_singleton (m : Machine) (c : Command) : m.obeyAll [c] = m.obey c := by
  rw [obeyAll, List.foldlM_cons]
  exact bind_pure _

/-- What a command makes of a dictionary. -/
theorem holds_of_obey {m m' : Machine} {c : Command} {commands : List Command}
    (hm : m.dictionary.Holds (entryAfter commands)) (h : m.obey c = some m') :
    m'.dictionary.Holds (entryAfter (commands ++ [c])) := by
  by_cases hc : ∀ a, c.Spares a
  · have hsame : m'.dictionary = m.dictionary :=
      (stable_dictionary m.dictionary).obey (fun _ h => h) (fun _ h => h) h hc rfl
    rwa [entryAfter_concat hc, hsame]
  · simp only [Command.Spares, ne_eq, not_forall, not_not] at hc
    obtain ⟨action, source, description, signature, rfl⟩ := hc
    cases h
    rw [entryAfter_concat_rebind]
    exact hm.rebind action source description signature

theorem holds_of_obeyAll {m m' : Machine} {commands : List Command} (hm : m.dictionary = .builtIn)
    (h : m.obeyAll commands = some m') : m'.dictionary.Holds (entryAfter commands) := by
  induction commands using List.reverseRecOn generalizing m' with
  | nil =>
    cases h
    rw [hm]
    exact Dictionary.holds_builtIn
  | append_singleton commands c ih =>
    rw [obeyAll_append] at h
    obtain ⟨u, hu, hc⟩ := Option.bind_eq_some_iff.1 h
    rw [obeyAll_singleton] at hc
    exact holds_of_obey (ih hu) hc

/-! ## Carrying out actions -/

def withDictionary (d : Dictionary) (m : Machine) : Machine := { m with dictionary := d }

/-- Built-in behaviours do not look at the dictionary. -/
theorem agrees_withDictionary (d : Dictionary) {α : Type} {x : Step α} (hx : Composed x) :
    Agrees (fun m n => n = m.withDictionary d) (fun _ _ _ => False) x := by
  induction hx with
  | pure a => exact .pure a
  | fail fault => exact .fail fault
  | bind _ _ ihx ihf => exact ihx.bind ihf fun _ _ _ _ => id
  | push v =>
    rintro m _ rfl
    rw [push, push, show (m.withDictionary d).stack = m.stack from rfl]
    cases m.stack.push v with
    | ok stack => exact .inl (.ok () rfl)
    | error fault => exact .inl (.error fault rfl)
  | pop =>
    rintro m _ rfl
    rw [pop, pop, show (m.withDictionary d).stack = m.stack from rfl]
    cases m.stack.pop with
    | ok r => exact .inl (.ok r.1 rfl)
    | error fault => exact .inl (.error fault rfl)
  | peek => exact .peek fun h => by rw [h]; rfl
  | advance offset =>
    refine .advance offset (fun h => ?_) (fun h => ?_) (fun h => ?_) (fun i h => ?_)
    · rw [h]; rfl
    · rw [h]; rfl
    · rw [h]; rfl
    · rw [h]; rfl
  | halt =>
    rintro m _ rfl
    exact .inl (.ok () rfl)
  | readChar =>
    refine .readChar (fun h => ?_) (fun source h => ?_)
    · rw [h]; rfl
    · rw [h]; rfl
  | writeChar c =>
    refine .writeChar c (fun h => ?_) (fun sink h => ?_)
    · rw [h]; rfl
    · rw [h]; rfl

theorem perform_withDictionary (d : Dictionary) (a : Action) (m : Machine) :
    perform a (m.withDictionary d) = onMachine (withDictionary d) (perform a m) := by
  have hagree := (agrees_withDictionary d (composed_perform a)).agree (m := m) rfl
  refine hagree.eq_onMachine hagree.machineOf ?_
  rw [hagree.machineOf]
  rfl

theorem concluded_onMachine (d : Dictionary) (r : EStateM.Result Failure Machine Unit) :
    concluded (onMachine (withDictionary d) r) = onMachine (withDictionary d) (concluded r) := by
  cases r <;> rfl

/-- An action does what the action that its behaviour comes from does on a machine with the built-in
dictionary. -/
theorem execute_eq_builtIn {m : Machine} {a b : Action}
    (h : execute a m = concluded (perform b m)) :
    onMachine (withDictionary .builtIn) (execute a m) = execute b (m.withDictionary .builtIn) := by
  have hfind : (m.withDictionary .builtIn).dictionary.find? b =
      some ⟨b, b, Dictionary.describe b, Dictionary.signatureOf b⟩ := Dictionary.holds_builtIn b
  rw [execute_of_find? hfind, perform_withDictionary, concluded_onMachine, h]

/-- **Actions are bound early.**  After any session with a new machine, carrying out an action is
carrying out the built-in behaviour that is its origin, just as the action of that name does it on a
machine with the built-in dictionary; what is done with the machine later makes no difference to this,
unless the action itself is bound again.  An action that succeeds stops the program exactly if the
machine is halted then.  The dictionary has thirteen entries, one for each action, and each is filed under
its own action and has the texts that were given to it last. -/
theorem execute_bound_early {letters : LetterScores} {actions : ActionScores} {limit : Option Nat}
    {source : Source} {sink : Sink} {commands : List Command} {m : Machine}
    (h : obeyAll { letters, actions, stack := .withLimit limit, source, sink } commands = some m) :
    (∀ a, execute a m = concluded (perform (origin commands a) m) ∧
      onMachine (withDictionary .builtIn) (execute a m) =
        execute (origin commands a) (m.withDictionary .builtIn)) ∧
    (∀ more m' a, m.obeyAll more = some m' → (∀ c ∈ more, c.Spares a) →
      execute a m' = concluded (perform (origin commands a) m')) ∧
    (∀ a progress m', execute a m = .ok progress m' → (progress = .stopped ↔ m'.halted = true)) ∧
    m.dictionary.size = 13 ∧
    m.dictionary.entries.map (·.action) = Action.all ∧
    ∀ a, m.dictionary.find? a =
      some ⟨a, origin commands a, (texts commands a).1, (texts commands a).2⟩ := by
  have hholds := holds_of_obeyAll rfl h
  have hexecute : ∀ a, execute a m = concluded (perform (origin commands a) m) :=
    fun a => execute_of_find? (hholds a)
  refine ⟨fun a => ⟨hexecute a, execute_eq_builtIn (hexecute a)⟩, fun more m' a hmore hspares => ?_,
    fun a progress m' hok => ?_, hholds.size_eq, ?_, hholds⟩
  · have hall : obeyAll { letters, actions, stack := .withLimit limit, source, sink }
        (commands ++ more) = some m' := by
      rw [obeyAll_append, h]
      exact hmore
    rw [← origin_append hspares commands]
    exact execute_of_find? (holds_of_obeyAll rfl hall a)
  · rw [hexecute] at hok
    cases hp : perform (origin commands a) m with
    | ok u u' =>
      rw [hp] at hok
      cases hok
      cases m'.halted <;> decide
    | error failure u' =>
      rw [hp] at hok
      cases hok
  · rw [hholds.entries_eq fun _ => rfl, List.map_map]
    exact List.map_id _

/-- `add` is given the behaviour of `quit`, then `quit` that of `dup`, then `dup` that of `add`: `dup`
halts the machine, and `quit` copies the value on its stack, whatever `quit` is bound to later. -/
theorem execute_bound_early_cycle :
    let commands : List Command := [.rebind .add .quit "Stop." " -- ", .push 3,
      .rebind .quit .dup "Copy." "v -- v v", .rebind .dup .add "End." ""]
    ∃ m, obeyAll {} commands = some m ∧ origin commands .dup = .quit ∧ origin commands .quit = .dup ∧
      execute .dup m = concluded (perform .quit m) ∧ execute .quit m = concluded (perform .dup m) ∧
      (∃ m', execute .dup m = .ok .stopped m' ∧ m'.halted = true) ∧
      m.dictionary.size = 13 ∧
      m.dictionary.find? .dup = some ⟨.dup, .quit, "End.", ""⟩ := by
  intro commands
  have hsome : (obeyAll {} commands).isSome = true := by decide +kernel
  obtain ⟨m, hm⟩ := Option.isSome_iff_exists.1 hsome
  have hdup : origin commands .dup = .quit := by decide
  have hquit : origin commands .quit = .dup := by decide
  obtain ⟨hexecute, -, hstop, hsize, -, hfind⟩ := execute_bound_early hm
  refine ⟨m, hm, hdup, hquit, hdup ▸ (hexecute .dup).1, hquit ▸ (hexecute .quit).1,
    ⟨{ m with halted := true }, ?_, rfl⟩, hsize, ?_⟩
  · rw [(hexecute .dup).1, hdup]
    rfl
  · rw [hfind .dup, hdup]
    rfl

end Beatnik.Machine
