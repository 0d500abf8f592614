import Beatnik.Proofs.Machine.Invariants

/-!
# The history of a stack

A stack is called again and again (`Call`), and goes on after a call that fails.  Next to it stands a
plain list whose last value is the top (`plain`), which remembers no depth and refuses a value only when
it has as many as the limit says.  Answer by answer the two agree, as long as the stack is within its
limit (`call_eq_plain`), and it always is.

The depth that the stack remembers is the greatest length that the list has had since the last time
that it was cleared.  One call that is not `clear` adds one length to those (`lengthsSince_concat`), and
the stack takes the larger of that length and the depth it remembers (`deepest_call`):

    IsGreatest (lengthsSince limit calls) (run limit calls).2.deepest             (isGreatest_deepest)
-/

namespace Beatnik.ValueStack

/-! ## Calls -/

inductive Call where
  | push (v : Value)
  | pop
  | peek
  | clear
deriving DecidableEq, Repr

/-- The answer to a call: a value where one is asked for, or a fault. -/
abbrev Answer := Except Fault (Option Value)

/-- The answer of a stack, and the stack after the call. -/
def call (s : ValueStack) : Call → Answer × ValueStack
  | .push v =>
    match s.push v with
    | .ok t => (.ok none, t)
    | .error fault => (.error fault, s)
  | .pop =>
    match s.pop with
    | .ok (v, t) => (.ok (some v), t)
    | .error fault => (.error fault, s)
  | .peek =>
    match s.peek with
    | .ok v => (.ok (some v), s)
    | .error fault => (.error fault, s)
  | .clear => (.ok none, s.clear)

/-- The answer of a list whose last value is the top, and the list after the call. -/
def plain (limit : Option Nat) (vs : List Value) : Call → Answer × List Value
  | .push v =>
    if limit = some vs.length then (.error (.stackOverflow vs.length), vs) else (.ok none, vs ++ [v])
  | .pop =>
    match vs.getLast? with
    | some v => (.ok (some v), vs.dropLast)
    | none => (.error .stackUnderflow, vs)
  | .peek =>
    match vs.getLast? with
    | some v => (.ok (some v), vs)
    | none => (.error .stackUnderflow, vs)
  | .clear => (.ok none, [])

/-- All answers to a sequence of calls, and what is there after it. -/
def answers {σ : Type} (step : σ → Call → Answer × σ) (s : σ) (calls : List Call) : List Answer × σ :=
  calls.foldl (fun r c => (r.1 ++ [(step r.2 c).1], (step r.2 c).2)) ([], s)

def run (limit : Option Nat) (calls : List Call) : List Answer × ValueStack :=
  answers call (withLimit limit) calls

def plainRun (limit : Option Nat) (calls : List Call) : List Answer × List Value :=
  answers (plain limit) [] calls

/-- The lengths that the list has had with no clearing afterwards. -/
def lengthsSince (limit : Option Nat) (calls : List Call) : Set Nat :=
  { n | ∃ earlier later, calls = earlier ++ later ∧ Call.clear ∉ later ∧
    n = (plainRun limit earlier).2.length }

theorem answers_concat {σ : Type} (step : σ → Call → Answer × σ) (s : σ) (calls : List Call)
    (c : Call) :
    answers step s (calls ++ [c]) =
      ((answers step s calls).1 ++ [(step (answers step s calls).2 c).1],
        (step (answers step s calls).2 c).2) := by
  simp only [answers, List.foldl_append, List.foldl_cons, List.foldl_nil]

/-! ## One call -/

variable {s : ValueStack}

theorem push_error {fault : Fault} {v : Value} (h : s.push v = .error fault) :
    ∃ d, s.limit = some d ∧ d ≤ s.depth ∧ fault = .stackOverflow d := by
  rw [push] at h
  split at h
  · next d hf =>
    cases h
    obtain ⟨hlimit, hle⟩ := Option.filter_eq_some_iff.1 hf
    exact ⟨d, hlimit, by simpa using hle, rfl⟩
  · cases h

theorem call_error {c : Call} {fault : Fault} (h : (s.call c).1 = .error fault) :
    (s.call c).2 = s := by
  cases c with
  | push v =>
    simp only [call] at h ⊢
    cases hp : s.push v with
    | ok t => rw [hp] at h; cases h
    | error fault' => rfl
  | pop =>
    simp only [call] at h ⊢
    cases hp : s.pop with
    | ok r => rw [hp] at h; cases h
    | error fault' => rfl
  | peek =>
    simp only [call]
    cases s.peek <;> rfl
  | clear => cases h

theorem limit_call (s : ValueStack) (c : Call) : (s.call c).2.limit = s.limit := by
  cases c with
  | push v =>
    simp only [call]
    cases hp : s.push v with
    | ok t => exact (push_ok hp).2.2.2.2
    | error fault => rfl
  | pop =>
    simp only [call]
    cases hp : s.pop with
    | ok r => exact (pop_ok hp).2.2.2
    | error fault => rfl
  | peek =>
    simp only [call]
    cases s.peek <;> rfl
  | clear => rfl

/-- A stack within its limit answers as its list of values does. -/
theorem call_eq_plain (hs : ∀ d, s.limit = some d → s.depth ≤ d) (c : Call) :
    (s.call c).1 = (plain s.limit s.toList c).1 ∧
      (s.call c).2.toList = (plain s.limit s.toList c).2 := by
  cases c with
  | push v =>
    simp only [call, plain, length_toList]
    cases hp : s.push v with
    | ok t =>
      have hroom : s.limit ≠ some s.depth := by
        intro hl
        have := (push_ok hp).1 _ hl
        omega
      rw [if_neg hroom]
      exact ⟨rfl, toList_of_push hp⟩
    | error fault =>
      obtain ⟨d, hl, hle, rfl⟩ := push_error hp
      have hd : d = s.depth := Nat.le_antisymm hle (hs d hl)
      rw [if_pos (hd ▸ hl), hd]
      exact ⟨rfl, rfl⟩
  | pop =>
    simp only [call, plain]
    cases hp : s.pop with
    | ok r =>
      rw [toList_of_pop hp, List.getLast?_concat, List.dropLast_concat]
      exact ⟨rfl, rfl⟩
    | error fault =>
      have hnil : s.items = [] ∧ fault = .stackUnderflow := by
        rw [pop] at hp
        split at hp
        · next hitems => cases hp; exact ⟨hitems, rfl⟩
        · cases hp
      simp [toList, hnil]
  | peek =>
    simp only [call, plain, peek, toList, List.getLast?_reverse]
    cases hs : s.items <;> simp [hs]
  | clear => exact ⟨rfl, rfl⟩

/-- A call remembers the larger of the depth so far and the new one, unless it clears the stack. -/
theorem deepest_call (hs : s.depth ≤ s.deepest) {c : Call} (hc : c ≠ .clear) :
    (s.call c).2.deepest = max (s.call c).2.toList.length s.deepest := by
  simp only [length_toList]
  cases c with
  | push v =>
    simp only [call]
    cases hp : s.push v with
    | ok t =>
      obtain ⟨-, -, hdepth, hdeepest, -⟩ := push_ok hp
      rw [hdepth, hdeepest, Nat.max_comm]
    | error fault => exact (Nat.max_eq_right hs).symm
  | pop =>
    simp only [call]
    cases hp : s.pop with
    | ok r =>
      obtain ⟨-, hdepth, hdeepest, -⟩ := pop_ok hp
      show r.2.deepest = max r.2.depth s.deepest
      omega
    | error fault => exact (Nat.max_eq_right hs).symm
  | peek =>
    simp only [call]
    cases s.peek <;> exact (Nat.max_eq_right hs).symm
  | clear => exact absurd rfl hc

/-! ## All calls -/

variable (limit : Option Nat)

theorem limit_run (calls : List Call) : (run limit calls).2.limit = limit := by
  induction calls using List.reverseRecOn with
  | nil => rfl
  | append_singleton calls c ih =>
    rw [run, answers_concat]
    exact (limit_call _ c).trans ih

theorem length_plain_le {vs : List Value} (h : ∀ d, limit = some d → vs.length ≤ d) (c : Call) {d : Nat}
    (hd : limit = some d) : (plain limit vs c).2.length ≤ d := by
  have hvs := h d hd
  cases c with
  | push v =>
    simp only [plain]
    split
    · exact hvs
    · next hne =>
      have : d ≠ vs.length := fun he => hne (he ▸ hd)
      rw [List.length_append, List.length_singleton]
      omega
  | pop =>
    simp only [plain]
    cases vs.getLast? with
    | none => exact hvs
    | some v =>
      show vs.dropLast.length ≤ d
      rw [List.length_dropLast]
      omega
  | peek =>
    simp only [plain]
    cases vs.getLast? <;> exact hvs
  | clear => exact Nat.zero_le d

theorem length_plainRun_le (calls : List Call) :
    ∀ d, limit = some d → (plainRun limit calls).2.length ≤ d := by
  induction calls using List.reverseRecOn with
  | nil => exact fun d _ => Nat.zero_le d
  | append_singleton calls c ih =>
    intro d hd
    rw [plainRun, answers_concat]
    exact length_plain_le limit ih c hd

/-- The stack gives the answers of the list and holds its values. -/
theorem run_eq_plainRun (calls : List Call) :
    (run limit calls).1 = (plainRun limit calls).1 ∧
      (run limit calls).2.toList = (plainRun limit calls).2 := by
  induction calls using List.reverseRecOn with
  | nil => exact ⟨rfl, rfl⟩
  | append_singleton calls c ih =>
    obtain ⟨hanswers, hvalues⟩ := ih
    have hwithin : ∀ d, (run limit calls).2.limit = some d → (run limit calls).2.depth ≤ d := by
      intro d hd
      rw [limit_run] at hd
      rw [← length_toList, hvalues]
      exact length_plainRun_le limit calls d hd
    obtain ⟨hanswer, hvalue⟩ := call_eq_plain hwithin c
    rw [limit_run, hvalues] at hanswer hvalue
    rw [run, plainRun, answers_concat, answers_concat, ← run, ← plainRun, hanswers, hanswer]
    exact ⟨rfl, hvalue⟩

/-! ## The largest depth -/

theorem lengthsSince_clear (calls : List Call) : lengthsSince limit (calls ++ [.clear]) = {0} := by
  ext n
  constructor
  · rintro ⟨earlier, later, hsplit, hclear, rfl⟩
    -- the call that clears the list is the last one, so nothing comes after it
    have hlater : later = [] := by
      rcases later.eq_nil_or_concat' with hnil | ⟨front, c, rfl⟩
      · exact hnil
      · rw [← List.append_assoc] at hsplit
        rw [← (List.append_inj' hsplit rfl).2] at hclear
        simp at hclear
    rw [hlater, List.append_nil] at hsplit
    rw [← hsplit, plainRun, answers_concat]
    rfl
  · rintro rfl
    refine ⟨calls ++ [.clear], [], by simp, by simp, ?_⟩
    rw [plainRun, answers_concat]
    rfl

theorem lengthsSince_concat (calls : List Call) {c : Call} (hc : c ≠ .clear) :
    lengthsSince limit (calls ++ [c]) =
      insert (plainRun limit (calls ++ [c])).2.length (lengthsSince limit calls) := by
  ext n
  constructor
  · rintro ⟨earlier, later, hsplit, hclear, rfl⟩
    rcases later.eq_nil_or_concat' with rfl | ⟨front, c', rfl⟩
    · rw [hsplit, List.append_nil]
      exact Set.mem_insert _ _
    · rw [← List.append_assoc] at hsplit
      have hcalls := (List.append_inj' hsplit rfl).1
      refine Set.mem_insert_of_mem _ ⟨earlier, front, hcalls, fun hfront => ?_, rfl⟩
      exact hclear (List.mem_append_left _ hfront)
  · rintro (rfl | ⟨earlier, later, rfl, hclear, rfl⟩)
    · exact ⟨calls ++ [c], [], by simp, by simp, rfl⟩
    · exact ⟨earlier, later ++ [c], by simp, by simp [hclear, Ne.symm hc], rfl⟩

theorem isGreatest_deepest (calls : List Call) :
    IsGreatest (lengthsSince limit calls) (run limit calls).2.deepest := by
  induction calls using List.reverseRecOn with
  | nil =>
    refine ⟨⟨[], [], rfl, by simp, rfl⟩, ?_⟩
    rintro n ⟨earlier, later, hsplit, -, rfl⟩
    rw [(List.append_eq_nil_iff.1 hsplit.symm).1]
    exact Nat.le_refl 0
  | append_singleton calls c ih =>
    have hvalues := (run_eq_plainRun limit (calls ++ [c])).2
    by_cases hc : c = .clear
    · subst hc
      rw [lengthsSince_clear, run, answers_concat]
      exact isGreatest_singleton
    · -- the present length is one of those since the last clearing
      have hdepth : (run limit calls).2.depth ≤ (run limit calls).2.deepest := by
        rw [← length_toList, (run_eq_plainRun limit calls).2]
        exact ih.2 ⟨calls, [], by simp, by simp, rfl⟩
      have hdeepest := deepest_call hdepth hc
      rw [run, answers_concat, ← run] at hvalues
      rw [hvalues] at hdeepest
      rw [lengthsSince_concat limit calls hc, run, answers_concat, ← run, hdeepest]
      exact ih.insert _

/-- **A stack is a list with a limit and an exact high-water mark.**  After any calls, failed ones among
them: the answers and the values are those of a plain list; a push fails exactly if there are as many
values as the limit says; a call that fails changes neither the values nor the largest depth nor the
limit; the largest depth is the greatest length since the stack was made or last cleared; and the
length is within the limit. -/
theorem history_of_calls (calls : List Call) :
    (run limit calls).1 = (plainRun limit calls).1 ∧
    (run limit calls).2.toList = (plainRun limit calls).2 ∧
    (∀ v fault, ((run limit calls).2.call (.push v)).1 = .error fault ↔
      limit = some (run limit calls).2.toList.length ∧
        fault = .stackOverflow (run limit calls).2.toList.length) ∧
    (∀ c fault, ((run limit calls).2.call c).1 = .error fault →
      ((run limit calls).2.call c).2.toList = (run limit calls).2.toList ∧
      ((run limit calls).2.call c).2.deepest = (run limit calls).2.deepest ∧
      ((run limit calls).2.call c).2.limit = (run limit calls).2.limit) ∧
    IsGreatest (lengthsSince limit calls) (run limit calls).2.deepest ∧
    (run limit calls).2.limit = limit ∧
    ∀ d, limit = some d → (run limit calls).2.toList.length ≤ d := by
  obtain ⟨hanswers, hvalues⟩ := run_eq_plainRun limit calls
  have hwithin : ∀ d, limit = some d → (run limit calls).2.toList.length ≤ d := by
    rw [hvalues]
    exact length_plainRun_le limit calls
  refine ⟨hanswers, hvalues, fun v fault => ?_, fun c fault h => ?_, isGreatest_deepest limit calls,
    limit_run limit calls, hwithin⟩
  · have hroom : ∀ d, (run limit calls).2.limit = some d → (run limit calls).2.depth ≤ d := by
      rw [limit_run, ← length_toList]
      exact hwithin
    rw [(call_eq_plain hroom (.push v)).1, limit_run, plain]
    split
    · next hfull =>
      constructor
      · intro h
        cases h
        exact ⟨hfull, rfl⟩
      · rintro ⟨-, rfl⟩
        rfl
    · next hroom =>
      constructor
      · intro h
        cases h
      · rintro ⟨hfull, -⟩
        exact absurd hfull hroom
  · rw [call_error h]
    exact ⟨rfl, rfl, rfl⟩

end Beatnik.ValueStack
