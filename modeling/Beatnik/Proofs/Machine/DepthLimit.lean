import Beatnik.Proofs.Machine.Lockstep
import Beatnik.Proofs.Machine.Refinement

/-!
# The limit on the depth of the stack

A run with a limit is compared to the run without one.  As long as the stack without a limit has not
been deeper than the limit, both go alike (`Within`).  The first push that leads beyond it fails on the
machine with the limit, whose stack is full then, and from there on the other machine has been deeper
(`Beyond`).  So the largest depth of the run without a limit decides:

    Lockstep (Within d) (Beyond d)                                                 (lockstep_within)
    deepest ≤ d → the run with the limit d is the same
    d < deepest → the run with the limit d fails at its first push beyond d           (run_limited)
-/

namespace Beatnik

/-! ## Stacks with another limit -/

namespace ValueStack

def limited (s : ValueStack) (limit : Option Nat) : ValueStack := { s with limit }

variable {s t : ValueStack} {v : Value}

theorem push_of_limit_none (hs : s.limit = none) :
    ∃ t, s.push v = .ok t ∧ t.limit = none ∧ t.depth = s.depth + 1 ∧
      t.deepest = max s.deepest (s.depth + 1) := by
  rw [push, hs]
  exact ⟨_, rfl, rfl, rfl, rfl⟩

/-- With room below the limit a push goes as without a limit. -/
theorem push_limited {d : Nat} (hd : s.depth < d) (hp : s.push v = .ok t) :
    (s.limited (some d)).push v = .ok (t.limited (some d)) := by
  obtain ⟨-, hitems, hdepth, hdeepest, -⟩ := push_ok hp
  have hroom : (s.limited (some d)).limit.filter (· ≤ (s.limited (some d)).depth) = none := by
    show (some d).filter (· ≤ s.depth) = none
    rw [Option.filter_some, if_neg (by simpa using hd)]
  rw [push, hroom]
  refine congrArg Except.ok (ValueStack.ext ?_ ?_ ?_ rfl)
  · exact hitems.symm
  · exact hdepth.symm
  · exact hdeepest.symm

theorem push_limited_full {d : Nat} (hd : d ≤ s.depth) :
    (s.limited (some d)).push v = .error (.stackOverflow d) := by
  have hfull : (s.limited (some d)).limit.filter (· ≤ (s.limited (some d)).depth) = some d := by
    show (some d).filter (· ≤ s.depth) = some d
    rw [Option.filter_some, if_pos (by simpa using hd)]
  rw [push, hfull]

theorem pop_limited (s : ValueStack) (limit : Option Nat) :
    (s.limited limit).pop = s.pop.map fun r => (r.1, r.2.limited limit) := by
  rcases s with ⟨_ | ⟨v, rest⟩, depth, deepest, limit', hdepth⟩ <;> rfl

end ValueStack

namespace Machine

def limited (m : Machine) (limit : Option Nat) : Machine := { m with stack := m.stack.limited limit }

def limitedOf {α : Type} (limit : Option Nat) :
    EStateM.Result Failure Machine α → EStateM.Result Failure Machine α
  | .ok a m => .ok a (m.limited limit)
  | .error failure m => .error failure (m.limited limit)

/-! ## Within and beyond a limit -/

/-- A machine without a limit that has never been deeper than `d`, and the same machine with the
limit `d`. -/
structure Within (d : Nat) (m n : Machine) : Prop where
  same : n = m.limited (some d)
  unlimited : m.stack.limit = none
  depth_le : m.stack.depth ≤ m.stack.deepest
  deepest_le : m.stack.deepest ≤ d

/-- A machine that has been deeper than `d`, and what is left of the machine with the limit `d`. -/
structure Beyond (d : Nat) (m : Machine) (failure : Failure) (n : Machine) : Prop where
  lt_deepest : d < m.stack.deepest
  failure_eq : failure = ⟨.stackOverflow d, n.here⟩
  depth_eq : n.stack.depth = d

/-- No operation but a start lowers the largest depth. -/
theorem stable_lt_deepest (d : Nat) : Stable fun m => d < m.stack.deepest where
  push v m h := by
    rcases left_push v m with he | ⟨stack, hp, he⟩
    · rwa [he]
    · have hdeepest := (ValueStack.push_ok hp).2.2.2.1
      rw [he]
      show d < stack.deepest
      rw [hdeepest]
      exact Nat.lt_of_lt_of_le h (Nat.le_max_left _ _)
  pop m h := by
    rcases left_pop m with he | ⟨v, stack, hp, he⟩
    · rwa [he]
    · have hdeepest := (ValueStack.pop_ok hp).2.2.1
      rw [he]
      show d < stack.deepest
      rwa [hdeepest]
  advance offset m h := by
    rcases left_advance offset m with he | ⟨-, -, he⟩
    · rwa [he]
    · rwa [he]
  halt m h := h
  readChar m h := by
    obtain ⟨source, he⟩ := left_readChar m
    rwa [he]
  writeChar c m h := by
    obtain ⟨sink, he⟩ := left_writeChar c m
    rwa [he]

theorem stable_beyond (d : Nat) (failure : Failure) (n : Machine) :
    Stable (Beyond d · failure n) := by
  have h := stable_lt_deepest d
  exact {
    push v m hb := { hb with lt_deepest := h.push v m hb.lt_deepest }
    pop m hb := { hb with lt_deepest := h.pop m hb.lt_deepest }
    advance offset m hb := { hb with lt_deepest := h.advance offset m hb.lt_deepest }
    halt m hb := { hb with lt_deepest := h.halt m hb.lt_deepest }
    readChar m hb := { hb with lt_deepest := h.readChar m hb.lt_deepest }
    writeChar c m hb := { hb with lt_deepest := h.writeChar c m hb.lt_deepest } }

/-! ## Lockstep -/

theorem agrees_push (d : Nat) (v : Value) : Agrees (Within d) (Beyond d) (push v) := by
  intro m n h
  obtain ⟨rfl, hnone, hdepth, hdeepest⟩ := h
  obtain ⟨t, hp, ht, htdepth, htdeepest⟩ := ValueStack.push_of_limit_none (v := v) hnone
  have hpush : push v m = .ok () { m with stack := t } := by rw [push, hp]
  by_cases hd : m.stack.depth < d
  · have hpush' : push v (m.limited (some d)) = .ok () (limited { m with stack := t } (some d)) := by
      rw [push, show (m.limited (some d)).stack = m.stack.limited (some d) from rfl,
        ValueStack.push_limited hd hp]
      rfl
    rw [hpush, hpush']
    refine .inl (.ok () ⟨rfl, ht, ?_, ?_⟩)
    · show t.depth ≤ t.deepest
      omega
    · show t.deepest ≤ d
      omega
  · -- the stack is as deep as it has ever been, and full
    refine .inr ⟨⟨.stackOverflow d, m.here⟩, m.limited (some d), ?_, ?_, rfl, ?_⟩
    · rw [push, show (m.limited (some d)).stack = m.stack.limited (some d) from rfl,
        ValueStack.push_limited_full (by omega)]
      rfl
    · rw [left, hpush]
      show d < t.deepest
      omega
    · show m.stack.depth = d
      omega

theorem agrees_pop (d : Nat) : Agrees (Within d) (Beyond d) pop := by
  intro m n h
  obtain ⟨rfl, hnone, hdepth, hdeepest⟩ := h
  have hlimited := m.stack.pop_limited (some d)
  rw [pop, pop, show (m.limited (some d)).stack = m.stack.limited (some d) from rfl, hlimited]
  cases hp : m.stack.pop with
  | error fault => exact .inl (.error fault ⟨rfl, hnone, hdepth, hdeepest⟩)
  | ok r =>
    obtain ⟨-, htdepth, htdeepest, htlimit⟩ := ValueStack.pop_ok hp
    refine .inl (.ok r.1 ⟨rfl, htlimit.trans hnone, ?_, ?_⟩)
    · show r.2.depth ≤ r.2.deepest
      omega
    · show r.2.deepest ≤ d
      omega

/-- What leaves the stack alone stays within the limit. -/
theorem Within.of_stack_eq {d : Nat} {m m' n : Machine} (h : Within d m n)
    (hs : m'.stack = m.stack) : Within d m' (m'.limited (some d)) :=
  ⟨rfl, hs ▸ h.unlimited, hs ▸ h.depth_le, hs ▸ h.deepest_le⟩

theorem lockstep_within (d : Nat) : Lockstep (Within d) (Beyond d) where
  push := agrees_push d
  pop := agrees_pop d
  peek := .peek fun h => by rw [h.same]; rfl
  advance offset := by
    refine .advance offset (fun h => ?_) (fun h => ?_) (fun h => ?_) (fun i h => ?_)
    · rw [h.same]; rfl
    · rw [h.same]; rfl
    · rw [h.same]; rfl
    · obtain rfl := h.same
      exact h.of_stack_eq rfl
  halt m n h := by
    obtain rfl := h.same
    exact .inl (.ok () (h.of_stack_eq rfl))
  readChar := by
    refine .readChar (fun h => ?_) (fun source h => ?_)
    · rw [h.same]; rfl
    · obtain rfl := h.same
      exact h.of_stack_eq rfl
  writeChar c := by
    refine .writeChar c (fun h => ?_) (fun sink h => ?_)
    · rw [h.same]; rfl
    · obtain rfl := h.same
      exact h.of_stack_eq rfl
  stable := stable_beyond d
  dictionary h := by rw [h.same]; rfl
  halted h := by rw [h.same]; rfl

theorem agrees_dispatch_within (d : Nat) : Agrees (Within d) (Beyond d) dispatch := by
  refine (lockstep_within d).dispatch (fun h => ?_) (fun h => ?_)
  · rw [h.same]
    rfl
  · rw [h.same]
    exact Iff.rfl

/-! ## Runs -/

theorem Agree.eq_limitedOf {d : Nat} {α : Type} {r s : EStateM.Result Failure Machine α}
    (h : Agree (Within d) r s) : s = limitedOf (some d) r := by
  cases h with
  | ok a h =>
    rw [h.same]
    rfl
  | error fault h =>
    rw [h.same]
    rfl

theorem outcome?_limitedOf (limit : Option Nat) (r : EStateM.Result Failure Machine Progress) :
    outcome? (limitedOf limit r) = (outcome? r).map (limitedOf limit) := by
  rcases r with ⟨_ | _, m⟩ | ⟨failure, m⟩ <;> rfl

/-- Only a behaviour that puts one value more on the stack overflows, and it leaves the stack as it
was. -/
theorem overflow_of_dispatch {m m' : Machine} {failure : Failure} (h : WellFormed m)
    (hf : dispatch m = .error failure m') (hkind : failure.fault.kind = .stackOverflow) :
    ∃ a, m.upcoming? = some a ∧ (a = .push ∨ a = .input ∨ a = .dup) ∧
      m'.stack.toList = m.stack.toList := by
  obtain ⟨a, hselected, hwell, hp⟩ := perform_of_dispatch_error h hf
  obtain ⟨haction, hstack⟩ := (perform_error hwell hp).overflow hkind
  have hitems : m'.stack.items = m.stack.items :=
    List.map_injective_iff.2 (fun _ _ => Int64.toInt_inj.1) hstack
  exact ⟨a, hselected, haction, by rw [ValueStack.toList, hitems]; rfl⟩

/-- The run of a program with the limit `d` fails at the dispatch after the `k`-th, at which the run
without a limit first gets deeper than `d`. -/
structure Overflow (m : Machine) (program : Program) (d k : Nat) (u : Machine) (a : Action)
    (n : Machine) : Prop where
  running : after k ((m.limited none).start program) = .ok .running u
  running_limited : after k ((m.limited (some d)).start program) = .ok .running (u.limited (some d))
  deepest_le : u.stack.deepest ≤ d
  lt_deepest : d < (left dispatch u).stack.deepest
  selected : u.upcoming? = some a
  puts : a = .push ∨ a = .input ∨ a = .dup
  failed : dispatch (u.limited (some d)) = .error ⟨.stackOverflow d, n.here⟩ n
  full : n.stack.toList.length = d
  values : n.stack.toList = u.stack.toList

theorem within_start (m : Machine) (program : Program) (d : Nat) :
    Within d ((m.limited none).start program) ((m.limited (some d)).start program) :=
  ⟨rfl, rfl, Nat.le_refl _, Nat.zero_le _⟩

/-- A dispatch that fails only with the limit overflows. -/
theorem overflow_of_beyond {m u v n : Machine} {program : Program} {d k : Nat} {failure : Failure}
    (hm : ∀ a, (m.dictionary.find? a).isSome = true)
    (hu : after k ((m.limited none).start program) = .ok .running u)
    (hv : after k ((m.limited (some d)).start program) = .ok .running v) (huv : Within d u v)
    (hf : dispatch v = .error failure n) (hb : Beyond d (left dispatch u) failure n) :
    ∃ a, Overflow m program d k u a n := by
  have hwell : WellFormed v := by
    have hk := after_keeps stable_wellFormed.dispatch
      (wellFormed_start (m := m.limited (some d)) hm program) k
    rwa [hv] at hk
  obtain rfl := hb.failure_eq
  obtain rfl := huv.same
  obtain ⟨a, hselected, haction, hvalues⟩ := overflow_of_dispatch hwell hf rfl
  refine ⟨a, hu, hv, huv.deepest_le, hb.lt_deepest, hselected, haction, hf, ?_, hvalues⟩
  rw [ValueStack.length_toList, hb.depth_eq]

/-- **The limit is an exact threshold.**  A run that ends without a limit is the same with any limit
from its largest depth on.  With any lower limit it overflows, at the action that first puts more values
on the stack than the limit allows, and leaves the values that were there before. -/
theorem run_limited {m : Machine} (hm : ∀ a, (m.dictionary.find? a).isSome = true) {text : String}
    {fuel : Nat} {o : Outcome} (h : run fuel (m.limited none) text = some o) (d : Nat) :
    ((machineOf o).stack.deepest ≤ d →
      run fuel (m.limited (some d)) text = some (limitedOf (some d) o)) ∧
    (d < (machineOf o).stack.deepest → ∃ k u a n, Overflow m (.ofText text) d k u a n ∧
      run fuel (m.limited (some d)) text = some (.error ⟨.stackOverflow d, n.here⟩ n)) := by
  rw [run, resume_eq_after] at h
  rw [run, resume_eq_after, outcome?_machineOf h]
  rcases (agrees_dispatch_within d).after (within_start m (.ofText text) d) fuel with
    hagree | ⟨k, u, v, failure, n, hk, hu, hv, huv, hf, hb⟩
  · refine ⟨fun _ => ?_, fun hlt => ?_⟩
    · rw [hagree.eq_limitedOf, outcome?_limitedOf, h]
      rfl
    · have hle := hagree.machineOf.deepest_le
      omega
  · refine ⟨fun hle => ?_, fun _ => ?_⟩
    · -- the largest depth was above the limit after the dispatch, and stays so
      have hlt : d < (machineOf
          (after fuel ((m.limited none).start (.ofText text)))).stack.deepest := by
        refine after_keeps_of_le (stable_lt_deepest d).dispatch hk ?_
        rw [after_succ_of_running hu]
        exact hb.lt_deepest
      omega
    · obtain ⟨a, hoverflow⟩ := overflow_of_beyond hm hu hv huv hf hb
      refine ⟨k, u, a, n, hoverflow, ?_⟩
      have hended : after (k + 1) ((m.limited (some d)).start (.ofText text)) = .error failure n := by
        rw [after_succ_of_running hv, hf]
      rw [after_of_le (by rw [hended]; rfl) hk, hended, hb.failure_eq]
      rfl

/-- One value is pushed and then doubled, and the two are swapped: a limit of 2 is enough, also for the
swap, and with a limit of 1 the doubling fails. -/
theorem run_limited_dup_swap :
    let m : Machine := {}
    ∃ o, run 9 (m.limited none) "k a kkaa kka" = some o ∧ (machineOf o).stack.deepest = 2 ∧
      run 9 (m.limited (some 2)) "k a kkaa kka" = some (limitedOf (some 2) o) ∧
      ∃ k u a n, Overflow m (.ofText "k a kkaa kka") 1 k u a n ∧
        run 9 (m.limited (some 1)) "k a kkaa kka" =
          some (.error ⟨.stackOverflow 1, n.here⟩ n) := by
  intro m
  have hends : (run 9 (m.limited none) "k a kkaa kka").map (fun o => (machineOf o).stack.deepest) =
      some 2 := by decide +kernel
  obtain ⟨o, ho, hdeepest⟩ := Option.map_eq_some_iff.1 hends
  have hlimited := run_limited (m := m) isSome_find?_builtIn ho
  exact ⟨o, ho, hdeepest, (hlimited 2).1 (by omega), (hlimited 1).2 (by omega)⟩

end Machine

end Beatnik
