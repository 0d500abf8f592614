import Beatnik.Proofs.Machine.Fetch

/-!
# The course of a run

A run is followed dispatch by dispatch: `after k m` is what the `k`-th dispatch from `m` on gives, or
what the run ended with before.  A run with fuel is read off it, and what a dispatch keeps, a run keeps:

    resume fuel m = outcome? (after fuel m)                                       (resume_eq_after)
    Preserves P dispatch → P m → P (machineOf (after k m))                            (after_keeps)

The four things that a dispatch can come to are listed in `Dispatched`.
-/

namespace Beatnik.Machine

/-! ## One dispatch -/

/-- The built-in behaviour that the word to be fetched next selects, if it selects any. -/
def upcoming? (m : Machine) : Option Action :=
  (m.words[(m.index + 1).toNat]?.bind fun w => m.actions.action? (m.letters.score w.text)).bind
    fun a => (m.dictionary.find? a).map (·.behaviour)

def fetched (m : Machine) : Machine := { m with index := m.index + 1 }

/-- What a dispatch comes to. -/
inductive Dispatched (m : Machine) : EStateM.Result Failure Machine Progress → Prop
  /-- there is no word left -/
  | last : m.index = m.words.size - 1 → Dispatched m (.ok .stopped m)
  /-- the next word selects nothing -/
  | inert : m.index ≠ m.words.size - 1 → m.upcoming? = none → Dispatched m (.ok .running m.fetched)
  /-- the next word selects a behaviour, which is carried out -/
  | done (a : Action) (m' : Machine) : m.upcoming? = some a → perform a m.fetched = .ok () m' →
      Dispatched m (.ok (if m'.halted then .stopped else .running) m')
  /-- the next word selects a behaviour, which fails -/
  | failed (a : Action) (failure : Failure) (m' : Machine) : m.upcoming? = some a →
      perform a m.fetched = .error failure m' → Dispatched m (.error failure m')

theorem dispatched {m : Machine} (h : WellFormed m) : Dispatched m (dispatch m) := by
  have hge := h.index_ge
  have hlt := h.index_lt
  by_cases hlast : m.index = m.words.size - 1
  · rw [dispatch_none hlast]
    exact .last hlast
  · obtain ⟨i, hi⟩ : ∃ i : Nat, m.index + 1 = i := ⟨(m.index + 1).toNat, by omega⟩
    have hw := Array.getElem?_eq_getElem (show i < m.words.size by omega)
    have hfetched : { m with index := (i : Int) } = m.fetched := by rw [fetched, hi]
    have hupcoming : m.upcoming? = (m.actions.action? (m.letters.score m.words[i].text)).bind
        fun a => (m.dictionary.find? a).map (·.behaviour) := by
      rw [upcoming?, hi, Int.toNat_natCast, hw, Option.bind_some]
    rw [dispatch_some hi hw, hfetched]
    cases ha : m.actions.action? (m.letters.score m.words[i].text) with
    | none => exact .inert hlast (by rw [hupcoming, ha, Option.bind_none])
    | some a =>
      obtain ⟨e, he⟩ := Option.isSome_iff_exists.1 (h.complete a)
      have hselected : m.upcoming? = some e.behaviour := by
        rw [hupcoming, ha, Option.bind_some, he, Option.map_some]
      dsimp only
      cases hp : perform e.behaviour m.fetched with
      | ok u m' =>
        rw [execute_ok (m := m.fetched) he hp]
        exact .done _ _ hselected hp
      | error failure m' =>
        rw [execute_error (m := m.fetched) he hp]
        exact .failed _ _ _ hselected hp

/-- Fetching a word leaves a machine well formed, if there is one to fetch. -/
theorem WellFormed.fetched {m : Machine} (h : WellFormed m) (hlast : m.index ≠ m.words.size - 1) :
    WellFormed m.fetched := by
  have hge := h.index_ge
  have hlt := h.index_lt
  refine { h with index_ge := ?_, index_lt := ?_ }
  · show -1 ≤ m.index + 1
    omega
  · show m.index + 1 < m.words.size
    omega

/-- A word that selects a behaviour is no word past the last one. -/
theorem index_ne_of_upcoming? {m : Machine} {a : Action} (h : m.upcoming? = some a) :
    m.index ≠ m.words.size - 1 := by
  intro hlast
  have hnone : m.words[(m.index + 1).toNat]? = none := by
    rw [Array.getElem?_eq_none_iff]
    omega
  rw [upcoming?, hnone] at h
  cases h

/-- A dispatch fails only in the behaviour that its word selects. -/
theorem perform_of_dispatch_error {m m' : Machine} {failure : Failure} (h : WellFormed m)
    (hf : dispatch m = .error failure m') :
    ∃ a, m.upcoming? = some a ∧ WellFormed m.fetched ∧ perform a m.fetched = .error failure m' := by
  have hcases := dispatched h
  generalize dispatch m = r at hf hcases
  cases hcases with
  | last _ => cases hf
  | inert _ _ => cases hf
  | done a v _ _ => cases hf
  | failed a failure' v hselected hp =>
    cases hf
    exact ⟨a, hselected, h.fetched (index_ne_of_upcoming? hselected), hp⟩

/-- What a dispatch makes of the behaviour that its word selects. -/
def concluded : EStateM.Result Failure Machine Unit → EStateM.Result Failure Machine Progress
  | .ok _ m => .ok (if m.halted then .stopped else .running) m
  | .error failure m => .error failure m

theorem execute_of_find? {m : Machine} {a : Action} {e : Dictionary.Entry}
    (h : m.dictionary.find? a = some e) : execute a m = concluded (perform e.behaviour m) := by
  cases hp : perform e.behaviour m with
  | ok u m' => exact execute_ok h hp
  | error failure m' => exact execute_error h hp

theorem dispatch_of_upcoming? {m : Machine} {a : Action} (h : WellFormed m)
    (hselected : m.upcoming? = some a) : dispatch m = concluded (perform a m.fetched) := by
  have hcases := dispatched h
  generalize dispatch m = r at hcases
  cases hcases with
  | last hlast => exact absurd hlast (index_ne_of_upcoming? hselected)
  | inert _ hnone =>
    rw [hselected] at hnone
    cases hnone
  | done b v hb hv =>
    rw [hselected] at hb
    cases hb
    rw [hv]
    rfl
  | failed b failure v hb hv =>
    rw [hselected] at hb
    cases hb
    rw [hv]
    rfl

theorem dispatch_of_upcoming?_none {m : Machine} (h : WellFormed m) (hlast : m.index ≠ m.words.size - 1)
    (hnone : m.upcoming? = none) : dispatch m = .ok .running m.fetched := by
  have hcases := dispatched h
  generalize dispatch m = r at hcases
  cases hcases with
  | last hend => exact absurd hend hlast
  | inert _ _ => rfl
  | done b v hb _ =>
    rw [hnone] at hb
    cases hb
  | failed b failure v hb _ =>
    rw [hnone] at hb
    cases hb

/-! ## Many dispatches -/

/-- What a run has come to after a number of dispatches, or what it ended with before. -/
def after : Nat → Machine → EStateM.Result Failure Machine Progress
  | 0, m => .ok .running m
  | k + 1, m =>
    match after k m with
    | .ok .running m' => dispatch m'
    | r => r

/-- What a run ended with, if it has ended. -/
def outcome? : EStateM.Result Failure Machine Progress → Option Outcome
  | .ok .running _ => none
  | .ok .stopped m => some (.ok () m)
  | .error failure m => some (.error failure m)

def failure? {α : Type} : EStateM.Result Failure Machine α → Option Failure
  | .ok _ _ => none
  | .error failure _ => some failure

def onMachine {α : Type} (f : Machine → Machine) :
    EStateM.Result Failure Machine α → EStateM.Result Failure Machine α
  | .ok a m => .ok a (f m)
  | .error failure m => .error failure (f m)

theorem outcome?_onMachine (f : Machine → Machine) (r : EStateM.Result Failure Machine Progress) :
    outcome? (onMachine f r) = (outcome? r).map (onMachine f) := by
  rcases r with ⟨_ | _, m⟩ | ⟨failure, m⟩ <;> rfl

variable {m u : Machine} {j k : Nat} {o : Outcome}

theorem after_succ_of_running (h : after k m = .ok .running u) : after (k + 1) m = dispatch u := by
  rw [after, h]

theorem after_succ_of_ended (h : outcome? (after k m) = some o) : after (k + 1) m = after k m := by
  rw [after]
  split
  · next hr => rw [hr] at h; cases h
  · rfl

/-- Once a run has ended, nothing changes any more. -/
theorem after_of_le (h : outcome? (after j m) = some o) (hjk : j ≤ k) : after k m = after j m := by
  induction hjk with
  | refl => rfl
  | step _ ih => rw [after_succ_of_ended (ih ▸ h), ih]

theorem outcome?_unique {o' : Outcome} (h : outcome? (after j m) = some o)
    (h' : outcome? (after k m) = some o') : o = o' := by
  rcases Nat.le_total j k with hjk | hkj
  · rw [after_of_le h hjk, h] at h'
    exact Option.some.inj h'
  · rw [after_of_le h' hkj, h'] at h
    exact (Option.some.inj h).symm

theorem after_succ_of_dispatch {m' : Machine} (h : dispatch m = .ok .running m') (k : Nat) :
    after (k + 1) m = after k m' := by
  induction k with
  | zero => exact h
  | succ k ih => rw [after, ih, after]

theorem outcome?_machineOf {r : EStateM.Result Failure Machine Progress} (h : outcome? r = some o) :
    machineOf o = machineOf r := by
  rcases r with ⟨_ | _, m⟩ | ⟨failure, m⟩
  · cases h
  · cases h
    rfl
  · cases h
    rfl

theorem eq_stopped_of_outcome? {r : EStateM.Result Failure Machine Progress}
    (h : outcome? r = some (.ok () m)) : r = .ok .stopped m := by
  rcases r with ⟨_ | _, m⟩ | ⟨failure, m⟩ <;> cases h
  rfl

/-- A run with fuel is the run after as many dispatches. -/
theorem resume_eq_after (fuel : Nat) (m : Machine) : resume fuel m = outcome? (after fuel m) := by
  induction fuel generalizing m with
  | zero => rfl
  | succ fuel ih =>
    have hended : ∀ {o : Outcome}, outcome? (dispatch m) = some o →
        outcome? (after (fuel + 1) m) = some o := by
      intro o ho
      rw [after_of_le (j := 1) ho (by omega)]
      exact ho
    rw [resume]
    cases hd : dispatch m with
    | error failure m' => exact (hended (by rw [hd]; rfl)).symm
    | ok progress m' =>
      cases progress with
      | running => exact (ih m').trans (by rw [after_succ_of_dispatch hd])
      | stopped => exact (hended (by rw [hd]; rfl)).symm

/-- A run that has ended did so with a dispatch, all dispatches before it having gone on. -/
theorem exists_last_dispatch (h : outcome? (after k m) = some o) :
    ∃ j u, j < k ∧ after j m = .ok .running u ∧ outcome? (dispatch u) = some o := by
  induction k with
  | zero => cases h
  | succ k ih =>
    cases hk : outcome? (after k m) with
    | some o' =>
      rw [after_succ_of_ended hk] at h
      obtain ⟨j, u, hj, hu, hd⟩ := ih h
      exact ⟨j, u, by omega, hu, hd⟩
    | none =>
      rcases hr : after k m with ⟨_ | _, u⟩ | ⟨failure, u⟩
      · rw [after_succ_of_running hr] at h
        exact ⟨k, u, by omega, hr, h⟩
      · rw [hr] at hk
        cases hk
      · rw [hr] at hk
        cases hk

/-- If a part of the machine has changed after some dispatches, one of them was the first to change it. -/
theorem exists_first_change {β : Type} {f : Machine → β} (h : f (machineOf (after k m)) ≠ f m) :
    ∃ j u, j < k ∧ after j m = .ok .running u ∧ f u = f m ∧ f (left dispatch u) ≠ f m := by
  induction k with
  | zero => exact absurd rfl h
  | succ k ih =>
    by_cases hk : f (machineOf (after k m)) = f m
    · rcases hr : after k m with ⟨_ | _, u⟩ | ⟨failure, u⟩
      · rw [after_succ_of_running hr] at h
        rw [hr] at hk
        exact ⟨k, u, by omega, hr, hk, h⟩
      · rw [after_succ_of_ended (by rw [hr]; rfl)] at h
        exact absurd hk h
      · rw [after_succ_of_ended (by rw [hr]; rfl)] at h
        exact absurd hk h
    · obtain ⟨j, u, hj, hrest⟩ := ih hk
      exact ⟨j, u, by omega, hrest⟩

/-- A run that goes on after one dispatch more went on before it. -/
theorem running_of_succ (h : after (k + 1) m = .ok .running u) :
    ∃ v, after k m = .ok .running v ∧ dispatch v = .ok .running u := by
  rcases hr : after k m with ⟨_ | _, v⟩ | ⟨failure, v⟩
  · exact ⟨v, rfl, (after_succ_of_running hr).symm.trans h⟩
  · rw [after_succ_of_ended (by rw [hr]; rfl), hr] at h
    cases h
  · rw [after_succ_of_ended (by rw [hr]; rfl), hr] at h
    cases h

/-- What dispatches that go on keep holds as long as a run goes on. -/
theorem running_keeps {P : Machine → Prop}
    (hstep : ∀ {v w : Machine}, P v → dispatch v = .ok .running w → P w) (hm : P m)
    (h : after k m = .ok .running u) : P u := by
  induction k generalizing u with
  | zero =>
    cases h
    exact hm
  | succ k ih =>
    obtain ⟨v, hv, hvu⟩ := running_of_succ h
    exact hstep (ih hv) hvu

theorem after_keeps_of_le {P : Machine → Prop} (hp : Preserves P dispatch) (hjk : j ≤ k)
    (hj : P (machineOf (after j m))) : P (machineOf (after k m)) := by
  induction hjk with
  | refl => exact hj
  | @step k _ ih =>
    rcases hr : after k m with ⟨_ | _, u⟩ | ⟨failure, u⟩
    · rw [hr] at ih
      rw [after_succ_of_running hr]
      exact hp u ih
    · rw [after_succ_of_ended (by rw [hr]; rfl)]
      exact ih
    · rw [after_succ_of_ended (by rw [hr]; rfl)]
      exact ih

/-- What a dispatch keeps, a run keeps. -/
theorem after_keeps {P : Machine → Prop} (hp : Preserves P dispatch) (hm : P m) (k : Nat) :
    P (machineOf (after k m)) :=
  after_keeps_of_le hp (Nat.zero_le k) hm

theorem wellFormed_running (hm : WellFormed m) (hu : after k m = .ok .running u) : WellFormed u := by
  have hk := after_keeps stable_wellFormed.dispatch hm k
  rwa [hu] at hk

/-- A run ends with the dispatch that ends it, if there is fuel to come to it. -/
theorem resume_of_dispatch {fuel : Nat} (hk : k < fuel) (hu : after k m = .ok .running u)
    (ho : outcome? (dispatch u) = some o) : resume fuel m = some o := by
  have hended : after (k + 1) m = dispatch u := after_succ_of_running hu
  rw [resume_eq_after, after_of_le (by rw [hended]; exact ho) hk, hended, ho]

theorem resume_keeps {P : Machine → Prop} (hp : Preserves P dispatch) (hm : P m) {fuel : Nat}
    (h : resume fuel m = some o) : P (machineOf o) := by
  rw [resume_eq_after] at h
  rw [outcome?_machineOf h]
  exact after_keeps hp hm fuel

end Beatnik.Machine
