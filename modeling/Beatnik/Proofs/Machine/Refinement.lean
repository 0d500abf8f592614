import Beatnik.Proofs.Machine.Fetch
import Beatnik.Proofs.Machine.Ideal
import Beatnik.Proofs.WordScores

/-!
# The machine is the ideal machine

Every machine shows a state of the ideal machine (`Machine.ideal`): the scores of its words, its
counter, the values on its stack as integers, its limit, source, sink and halt mark.  Of a fault its
kind is shown (`Machine.idealOf`).  For every reachable machine with the built-in dictionary

    idealOf (dispatch m) = (ideal m).step (selects m.actions)               (dispatch_refines_ideal)
    (resume fuel m).map idealOf = (ideal m).run (selects m.actions) fuel       (map_idealOf_resume)

Each action has its own lemma, which follows the operations the action is made of (`idealOf_perform`).
The stack never gets deeper than its limit, so the actions that take values off before they put values
on never find it full (`WellFormed.room`).  The halt mark is a part of the state, and a distance may be
negative: neither can be left out (`dispatch_halted_and_wrapped`).
-/

namespace Beatnik.Machine

/-! ## Views -/

/-- The state of the ideal machine that a machine shows. -/
def ideal (m : Machine) : Ideal where
  scores := m.words.toList.map fun w => (m.letters.score w.text).toInt
  counter := m.index
  stack := m.stack.items.map Int64.toInt
  limit := m.stack.limit
  source := m.source
  sink := m.sink
  halted := m.halted

def idealOf {α : Type} : EStateM.Result Failure Machine α → Ideal.Effect α
  | .ok a m => (.ok a, m.ideal)
  | .error failure m => (.error failure.fault.kind, m.ideal)

/-- The action that an integer selects, if it is a score that does. -/
def selects (actions : ActionScores) (n : Int) : Option Action :=
  (Value.ofInt? n).bind actions.action?

theorem ideal_stack {m : Machine} {items : List Value} (h : m.stack.items = items) :
    m.ideal.stack = items.map Int64.toInt := by
  rw [ideal, h]

theorem ideal_score? (m : Machine) (i : Nat) :
    m.ideal.score? i = m.words[i]?.map fun w => (m.letters.score w.text).toInt := by
  simp [ideal, Ideal.score?]

theorem idealOf_eq_ok {α : Type} {r : EStateM.Result Failure Machine α} {a : α} {s : Ideal}
    (h : idealOf r = (.ok a, s)) : ∃ m, r = .ok a m ∧ m.ideal = s := by
  cases r with
  | ok b m =>
    cases h
    exact ⟨m, rfl, rfl⟩
  | error failure m => cases h

theorem idealOf_eq_error {α : Type} {r : EStateM.Result Failure Machine α} {kind : FaultKind}
    {s : Ideal} (h : idealOf r = (.error kind, s)) :
    ∃ failure m, r = .error failure m ∧ failure.fault.kind = kind ∧ m.ideal = s := by
  cases r with
  | ok b m => cases h
  | error failure m =>
    cases h
    exact ⟨failure, m, rfl, rfl, rfl⟩

theorem score_mem_ideal_start (m : Machine) {program : Program} {w : Word} (hw : w ∈ program) :
    (m.letters.score w.text).toInt ∈ (m.start program).ideal.scores :=
  List.mem_map.2 ⟨w, hw, rfl⟩

/-- What a machine shows that starts on tokens joined with spaces. -/
theorem ideal_start (m : Machine) {ts : List String} (h : ∀ t ∈ ts, Word.IsToken t) :
    (m.start (.ofText (" ".intercalate ts))).ideal = {
      scores := ts.map fun t => (m.letters.score t).toInt
      counter := -1
      stack := []
      limit := m.stack.limit
      source := m.source
      sink := m.sink
      halted := false } := by
  have hscores : (m.start (.ofText (" ".intercalate ts))).ideal.scores =
      ts.map fun t => (m.letters.score t).toInt := by
    show (Program.ofText (" ".intercalate ts)).toArray.toList.map
      (fun w => (m.letters.score w.text).toInt) = _
    conv_rhs => rw [← Word.text_scan_intercalate ts h Program.unnamed]
    rw [List.map_map]
    rfl
  rw [← hscores]
  rfl

/-! ## Values -/

theorem ofInt?_of_inRange {n : Int} (h : Ideal.inRange n = true) :
    ∃ v, Value.ofInt? n = some v ∧ v.toInt = n := by
  have hn : Value.least ≤ n ∧ n ≤ Value.greatest := by simpa [Ideal.inRange] using h
  have hv : Value.ofInt? n = some (Int64.ofInt n) := by rw [Value.ofInt?, if_pos hn]
  exact ⟨_, hv, Value.toInt_of_ofInt? hv⟩

theorem ofInt?_of_not_inRange {n : Int} (h : Ideal.inRange n = false) : Value.ofInt? n = none := by
  rw [Value.ofInt?, if_neg]
  simpa [Ideal.inRange] using h

theorem toInt_ofNat_char (c : Char) : (Int64.ofNat c.toNat).toInt = c.toNat := by
  have hlt : c.toNat < 0x110000 := by
    have hv := c.valid
    rw [UInt32.isValidChar, Nat.isValidChar] at hv
    show c.val.toNat < _
    omega
  exact Int64.toInt_ofNat_of_lt (by omega)

theorem selects_toInt (actions : ActionScores) (v : Value) :
    selects actions v.toInt = actions.action? v := by
  rw [selects, Value.ofInt?_toInt]
  rfl

/-- A branch back by a distance moves the counter one word further, unless the opposite of the distance
is no value. -/
theorem offset?_backward (n : Value) :
    (n.toInt = Value.least ∧ Direction.backward.offset? n = none) ∨
      (n.toInt ≠ Value.least ∧
        ∃ offset, Direction.backward.offset? n = some offset ∧ offset.toInt = -n.toInt - 1) := by
  have hle := n.le_toInt
  have hlt := n.toInt_lt
  by_cases hn : n.toInt = Value.least
  · refine .inl ⟨hn, ?_⟩
    have hout : Ideal.inRange (Int64.toInt 0 - n.toInt) = false := by
      rw [hn]
      decide
    rw [Direction.offset?, Value.sub?, ofInt?_of_not_inRange hout]
    rfl
  · refine .inr ⟨hn, ?_⟩
    unfold Value.least at hn
    obtain ⟨u, hu, hun⟩ := ofInt?_of_inRange (n := Int64.toInt 0 - n.toInt) (by
      simp [Ideal.inRange, Value.least, Value.greatest]
      omega)
    rw [Int64.toInt_zero] at hun
    obtain ⟨v, hv, hvn⟩ := ofInt?_of_inRange (n := u.toInt - Int64.toInt 1) (by
      simp [hun, Ideal.inRange, Value.least, Value.greatest]
      omega)
    refine ⟨v, ?_, ?_⟩
    · rw [Direction.offset?, Value.sub?, hu]
      exact hv
    · rw [hvn, hun, Int64.toInt_one]
      omega

theorem charOfValue?_eq (v : Value) : charOfValue? v = Ideal.char? v.toInt := by
  have hiff : (0 ≤ v.toInt ∧ v.toInt.toNat.isValidChar) ↔
      ((0 ≤ v.toInt ∧ v.toInt < 0xD800) ∨ (0xDFFF < v.toInt ∧ v.toInt < 0x110000)) := by
    rw [Nat.isValidChar]
    omega
  rw [charOfValue?, Ideal.char?]
  simp only [hiff]

/-! ## Stack operations -/

variable {m : Machine} {v : Value} {rest : List Value}

/-- A stack with fewer values than the one of a machine within its limit has room for another value. -/
theorem WellFormed.room (h : WellFormed m) {stack : ValueStack}
    (hi : stack.items.length < m.stack.items.length) (hl : stack.limit = m.stack.limit) :
    ∀ limit, stack.limit = some limit → stack.items.length < limit := by
  intro limit hlimit
  have hdepth := h.depth_le
  have hdeepest := h.deepest_le limit (hl.symm.trans hlimit)
  have heq := m.stack.depth_eq
  omega

theorem pop_nil (h : m.stack.items = []) : pop m = fail .stackUnderflow m := by
  have hp : m.stack.pop = .error .stackUnderflow := by
    rw [ValueStack.pop]
    split
    · rfl
    · next hs => rw [h] at hs; cases hs
  rw [pop, hp]

theorem pop_cons (h : m.stack.items = v :: rest) :
    ∃ stack, pop m = .ok v { m with stack } ∧ stack.items = rest ∧ stack.limit = m.stack.limit := by
  cases hp : m.stack.pop with
  | ok r =>
    obtain ⟨hs, -, -, hl⟩ := ValueStack.pop_ok hp
    rw [h, List.cons.injEq] at hs
    refine ⟨r.2, ?_, hs.2.symm, hl⟩
    rw [pop, hp, hs.1]
  | error fault =>
    rw [ValueStack.pop] at hp
    split at hp
    · next hs => rw [h] at hs; cases hs
    · cases hp

theorem pop_pop {a b : Value} (h : m.stack.items = b :: a :: rest) :
    ∃ s₁ stack, pop m = .ok b { m with stack := s₁ } ∧
      pop { m with stack := s₁ } = .ok a { m with stack } ∧
      stack.items = rest ∧ stack.limit = m.stack.limit := by
  obtain ⟨s₁, hp₁, hi₁, hl₁⟩ := pop_cons h
  obtain ⟨s₂, hp₂, hi₂, hl₂⟩ := pop_cons (m := { m with stack := s₁ }) hi₁
  exact ⟨s₁, s₂, hp₁, hp₂, hi₂, hl₂.trans hl₁⟩

/-- Taking two values off a stack with fewer than two leaves it empty. -/
theorem idealOf_pop_pop (h : m.stack.items.length < 2) (f : Value → Value → Step Unit) :
    idealOf ((pop >>= fun b => pop >>= fun a => f a b) m) =
      (.error .stackUnderflow, { m.ideal with stack := [] }) := by
  rcases hs : m.stack.items with _ | ⟨b, rest⟩
  · rw [bind_error (pop_nil hs)]
    simp [idealOf, ideal, hs, Fault.kind]
  · obtain ⟨stack, hp, hi, hl⟩ := pop_cons hs
    have hnil : rest = [] := by
      rw [hs, List.length_cons] at h
      exact List.eq_nil_of_length_eq_zero (by omega)
    rw [hnil] at hi
    rw [bind_ok hp, bind_error (pop_nil hi)]
    simp [idealOf, ideal, hi, hl, Fault.kind]

theorem idealOf_push (v : Value) (m : Machine) : idealOf (push v m) = m.ideal.put v.toInt := by
  have hfull : m.ideal.isFull = m.stack.limit.any (· ≤ m.stack.depth) := by
    simp [Ideal.isFull, ideal, m.stack.depth_eq]
  rw [Ideal.put, hfull, push, ValueStack.push]
  cases hl : m.stack.limit.filter (· ≤ m.stack.depth) with
  | some limit =>
    have hany := Option.filter_eq_some_iff.1 hl
    rw [if_pos (by rw [hany.1]; exact hany.2)]
    rfl
  | none =>
    have hany := Option.filter_eq_none_iff.1 hl
    rw [if_neg (by rw [Option.any_eq_true]; rintro ⟨x, hx, hle⟩; exact hany x hx hle)]
    rfl

theorem push_of_lt (v : Value)
    (h : ∀ limit, m.stack.limit = some limit → m.stack.items.length < limit) :
    ∃ stack, push v m = .ok () { m with stack } ∧ stack.items = v :: m.stack.items ∧
      stack.limit = m.stack.limit := by
  have hnone : m.stack.limit.filter (· ≤ m.stack.depth) = none := by
    rw [Option.filter_eq_none_iff]
    intro limit hl hle
    have hlt := h limit hl
    have heq := m.stack.depth_eq
    have hle := of_decide_eq_true hle
    omega
  rw [push, ValueStack.push, hnone]
  exact ⟨_, rfl, rfl, rfl⟩

/-! ## Actions -/

theorem idealOf_arithmetic {operation : Value → Value → Option Value} {fault : Value → Value → Fault}
    {op : Int → Int → Int} (ho : ∀ a b, operation a b = Value.ofInt? (op a.toInt b.toInt))
    (hf : ∀ a b, (fault a b).kind = .arithmeticOverflow) (h : WellFormed m) :
    idealOf (arithmetic operation fault m) = m.ideal.arithmetic op := by
  rw [Ideal.arithmetic, arithmetic]
  rcases hs : m.stack.items with _ | ⟨b, _ | ⟨a, rest⟩⟩
  · simp [idealOf_pop_pop, ideal, hs]
  · simp [idealOf_pop_pop, ideal, hs]
  · obtain ⟨s₁, stack, hp₁, hp₂, hi, hl⟩ := pop_pop hs
    rw [bind_ok hp₁, bind_ok hp₂, ho]
    cases hr : Ideal.inRange (op a.toInt b.toInt) with
    | true =>
      -- two values are gone, so that the limit leaves room for the result
      obtain ⟨v, hv, hvn⟩ := ofInt?_of_inRange hr
      obtain ⟨t, hp, hit, hlt⟩ := push_of_lt (m := { m with stack }) v
        (h.room (by simp only [hs, hi, List.length_cons]; omega) hl)
      rw [hv]
      dsimp only
      rw [hp]
      simp [idealOf, ideal, hs, hi, hit, hl, hlt, hvn, hr]
    | false =>
      rw [ofInt?_of_not_inRange hr]
      simp [idealOf, fail, ideal, hs, hi, hl, hr, hf]

/-- Two values that have just been popped can be pushed. -/
theorem perform_swap {a b : Value} (h : WellFormed m) (hs : m.stack.items = a :: b :: rest) :
    ∃ stack, perform .swap m = .ok () { m with stack } ∧ stack.items = b :: a :: rest ∧
      stack.limit = m.stack.limit := by
  obtain ⟨s₁, s₂, hp₁, hp₂, hi₂, hl₂⟩ := pop_pop hs
  obtain ⟨s₃, hp₃, hi₃, hl₃⟩ := push_of_lt (m := { m with stack := s₂ }) a
    (h.room (by simp only [hs, hi₂, List.length_cons]; omega) hl₂)
  have hl₃ := hl₃.trans hl₂
  obtain ⟨s₄, hp₄, hi₄, hl₄⟩ := push_of_lt (m := { m with stack := s₃ }) b
    (h.room (by simp only [hs, hi₂, hi₃, List.length_cons]; omega) hl₃)
  refine ⟨s₄, ?_, by rw [hi₄, hi₃, hi₂], hl₄.trans hl₃⟩
  rw [perform, bind_ok hp₁, bind_ok hp₂, bind_ok hp₃, hp₄]

theorem idealOf_swap (h : WellFormed m) : idealOf (perform .swap m) = m.ideal.act .swap := by
  rw [Ideal.act]
  rcases hs : m.stack.items with _ | ⟨a, _ | ⟨b, rest⟩⟩
  · simp [perform, idealOf_pop_pop, ideal, hs]
  · simp [perform, idealOf_pop_pop, ideal, hs]
  · obtain ⟨stack, hp, hi, hl⟩ := perform_swap h hs
    rw [hp]
    simp [idealOf, ideal, hs, hi, hl]

/-- A move of the counter, as one to a target. -/
theorem idealOf_advance {offset : Value} {target : Int} (ht : m.index + offset.toInt = target) :
    idealOf ((advance offset >>= fun _ => pure ()) m) =
      if -1 ≤ target ∧ target < m.ideal.scores.length then (.ok (), { m.ideal with counter := target })
      else (.error .counterOutOfBounds, m.ideal) := by
  have hlen : m.ideal.scores.length = m.words.size := by simp [ideal]
  subst ht
  rw [hlen]
  by_cases hc : -1 ≤ m.index + offset.toInt ∧ m.index + offset.toInt < m.words.size
  · obtain ⟨score, ha⟩ := advance_in hc
    rw [if_pos hc, bind_ok ha]
    rfl
  · rw [if_neg hc, bind_error (advance_out hc)]
    rfl

/-- A taken branch, the counter being at its operand. -/
theorem idealOf_land (direction : Direction) {i : Int} (hi : m.index = i + 1) (n : Value) :
    idealOf ((match direction.offset? n with
      | some offset => do
        let _ ← advance offset
        return ()
      | none => fail (.distanceOverflow n) : Step Unit) m) =
      Ideal.land direction i n.toInt m.ideal := by
  rw [Ideal.land]
  cases direction with
  | forward =>
    rw [if_neg (by simp), Ideal.target]
    exact idealOf_advance (by omega)
  | backward =>
    rcases offset?_backward n with ⟨hn, hnone⟩ | ⟨hn, offset, hsome, hoff⟩
    · rw [if_pos ⟨rfl, hn⟩, hnone]
      rfl
    · rw [if_neg (fun h => hn h.2), hsome, Ideal.target]
      exact idealOf_advance (by omega)

theorem idealOf_branch (direction : Direction) {condition : Value → Bool} {taken : Int → Bool}
    (hc : ∀ v, condition v = taken v.toInt) (h : -1 ≤ m.index) :
    idealOf (branch direction condition m) = m.ideal.branch direction taken := by
  obtain ⟨i, hi⟩ : ∃ i : Nat, m.index + 1 = i := ⟨(m.index + 1).toNat, by omega⟩
  rw [Ideal.branch, show m.ideal.counter + 1 = i from hi, ideal_score?, branch]
  cases hw : m.words[i]? with
  | none =>
    -- without an operand the condition stays on the stack
    rw [bind_error (nextScore_none hi hw)]
    rfl
  | some w =>
    rw [bind_ok (nextScore_some hi hw), Option.map_some]
    cases hs : m.stack.items with
    | nil =>
      rw [bind_error (pop_nil (m := { m with index := i }) hs)]
      simp [idealOf, ideal, hs, Fault.kind]
    | cons v rest =>
      obtain ⟨stack, hp, hit, hl⟩ := pop_cons (m := { m with index := i }) hs
      have hideal : ideal { m with index := i, stack } =
          { m.ideal with counter := i, stack := rest.map Int64.toInt } := by
        simp [ideal, hit, hl]
      rw [bind_ok hp, ideal_stack hs, List.map_cons, hc]
      dsimp only
      split
      · refine (idealOf_land (m := { m with index := i, stack }) direction hi.symm _).trans ?_
        rw [hideal]
        rfl
      · rw [← hideal]
        rfl

theorem idealOf_pushOperand (h : -1 ≤ m.index) : idealOf (perform .push m) = m.ideal.act .push := by
  obtain ⟨i, hi⟩ : ∃ i : Nat, m.index + 1 = i := ⟨(m.index + 1).toNat, by omega⟩
  rw [Ideal.act, show m.ideal.counter + 1 = i from hi, ideal_score?, perform]
  cases hw : m.words[i]? with
  | none =>
    rw [bind_error (nextScore_none hi hw)]
    rfl
  | some w =>
    rw [bind_ok (nextScore_some hi hw), idealOf_push]
    rfl

theorem idealOf_input (m : Machine) : idealOf (perform .input m) = m.ideal.act .input := by
  rw [Ideal.act, perform, show m.ideal.source = m.source from rfl]
  cases hr : Source.readChar m.source with
  | ok c source =>
    have hread : readChar m = .ok c { m with source } := by rw [readChar, hr]
    rw [bind_ok hread]
    cases c with
    | none => rfl
    | some c =>
      dsimp only
      rw [idealOf_push, toInt_ofNat_char]
      rfl
  | error fault source =>
    have hread : readChar m = .error ⟨fault, m.here⟩ { m with source } := by rw [readChar, hr]
    rw [bind_error hread]
    rfl

theorem idealOf_output (m : Machine) : idealOf (perform .output m) = m.ideal.act .output := by
  rw [Ideal.act, perform]
  cases hs : m.stack.items with
  | nil =>
    rw [bind_error (pop_nil hs)]
    simp [idealOf, ideal, hs, Fault.kind]
  | cons v rest =>
    obtain ⟨stack, hp, hi, hl⟩ := pop_cons hs
    rw [bind_ok hp, charOfValue?_eq, ideal_stack hs, List.map_cons]
    dsimp only
    cases Ideal.char? v.toInt with
    | none => simp [idealOf, fail, ideal, hi, hl, Fault.kind]
    | some c =>
      dsimp only
      rw [writeChar, show m.ideal.sink = m.sink from rfl]
      dsimp only
      rcases m.sink.write (Text.Utf8.encode c) with ⟨_ | reason, sink⟩
      · simp [idealOf, ideal, hi, hl]
      · simp [idealOf, ideal, hi, hl, Fault.kind]

theorem idealOf_pop (m : Machine) : idealOf (perform .pop m) = m.ideal.act .pop := by
  rw [Ideal.act, perform]
  cases hs : m.stack.items with
  | nil =>
    rw [bind_error (pop_nil hs)]
    simp [idealOf, ideal, hs, Fault.kind]
  | cons v rest =>
    obtain ⟨stack, hp, hi, hl⟩ := pop_cons hs
    rw [bind_ok hp]
    simp [idealOf, ideal, hi, hl, hs, pure, EStateM.pure]

theorem idealOf_dup (m : Machine) : idealOf (perform .dup m) = m.ideal.act .dup := by
  rw [Ideal.act, perform]
  cases hs : m.stack.items with
  | nil =>
    have hp : peek m = fail .stackUnderflow m := by rw [peek, ValueStack.peek, hs]
    rw [bind_error hp]
    simp [idealOf, ideal, hs, Fault.kind]
  | cons v rest =>
    have hp : peek m = .ok v m := by rw [peek, ValueStack.peek, hs]
    rw [bind_ok hp, idealOf_push, ideal_stack hs, List.map_cons]

/-- Each action does what the ideal machine does. -/
theorem idealOf_perform (h : WellFormed m) (a : Action) : idealOf (perform a m) = m.ideal.act a := by
  have hiff : ∀ v : Value, v = 0 ↔ v.toInt = 0 := by
    intro v
    rw [← Int64.toInt_inj, Int64.toInt_zero]
  have hzero : ∀ v : Value, decide (v = 0) = decide (v.toInt = 0) :=
    fun v => decide_eq_decide.2 (hiff v)
  have hnonzero : ∀ v : Value, decide (v ≠ 0) = decide (v.toInt ≠ 0) :=
    fun v => decide_eq_decide.2 (not_congr (hiff v))
  cases a with
  | push => exact idealOf_pushOperand h.index_ge
  | pop => exact idealOf_pop m
  | add => exact idealOf_arithmetic (fun _ _ => rfl) (fun _ _ => rfl) h
  | input => exact idealOf_input m
  | output => exact idealOf_output m
  | subtract => exact idealOf_arithmetic (fun _ _ => rfl) (fun _ _ => rfl) h
  | swap => exact idealOf_swap h
  | dup => exact idealOf_dup m
  | forwardIfZero => exact idealOf_branch .forward hzero h.index_ge
  | forwardIfNonzero => exact idealOf_branch .forward hnonzero h.index_ge
  | backwardIfZero => exact idealOf_branch .backward hzero h.index_ge
  | backwardIfNonzero => exact idealOf_branch .backward hnonzero h.index_ge
  | quit => rfl

theorem perform_error {a : Action} {failure : Failure} {m' : Machine} (h : WellFormed m)
    (hp : perform a m = .error failure m') :
    Ideal.Failed a failure.fault.kind m.ideal m'.ideal := by
  have hideal := idealOf_perform h a
  rw [hp, idealOf] at hideal
  exact Ideal.act_error hideal.symm

/-! ## Dispatches -/

/-- The score of a word whose points add up to a value. -/
theorem toInt_score {letters : LetterScores} {text : String}
    (h : letters.total text ≤ Value.greatest) : (letters.score text).toInt = letters.total text := by
  unfold Value.greatest at h
  exact Int64.toInt_ofNat_of_lt (by omega)

theorem idealOf_execute (h : WellFormed m) (hd : m.dictionary = .builtIn) (a : Action) :
    idealOf (execute a m) =
      match m.ideal.act a with
      | (.ok (), s) => (.ok (if a = .quit ∨ m.halted then .stopped else .running), s)
      | (.error kind, s) => (.error kind, s) := by
  have hperform := idealOf_perform h a
  have hhalted := m.ideal.act_halted a
  have hfind : m.dictionary.find? a = some _ := hd ▸ find?_builtIn a
  cases hp : perform a m with
  | ok u m' =>
    rw [hp, idealOf] at hperform
    rw [execute_ok hfind hp]
    rw [← hperform] at hhalted ⊢
    have hiff : m'.halted = true ↔ a = .quit ∨ m.halted = true := hhalted
    simp only [idealOf, hiff]
  | error failure m' =>
    rw [hp, idealOf] at hperform
    rw [execute_error hfind hp, ← hperform]
    rfl

theorem idealOf_dispatch (h : WellFormed m) (hd : m.dictionary = .builtIn) :
    idealOf (dispatch m) = m.ideal.step (selects m.actions) := by
  have hge := h.index_ge
  have hlen : m.ideal.scores.length = m.words.size := by simp [ideal]
  rw [Ideal.step, hlen, show m.ideal.counter = m.index from rfl]
  by_cases hlast : m.index = m.words.size - 1
  · rw [if_pos hlast, dispatch_none hlast]
    rfl
  · obtain ⟨i, hi⟩ : ∃ i : Nat, m.index + 1 = i := ⟨(m.index + 1).toNat, by omega⟩
    have hlt : i < m.words.size := by
      have := h.index_lt
      omega
    have hw := Array.getElem?_eq_getElem hlt
    rw [if_neg hlast, hi, ideal_score?, hw, dispatch_some hi hw, Option.map_some, Option.bind_some,
      selects_toInt]
    cases m.actions.action? (m.letters.score m.words[i].text) with
    | none => rfl
    | some a =>
      have hmoved : WellFormed { m with index := i } := by
        refine { h with index_ge := ?_, index_lt := ?_ }
        · show (-1 : Int) ≤ i
          omega
        · show (i : Int) < m.words.size
          omega
      exact idealOf_execute hmoved hd a

/-- A run takes the steps of a run of the ideal machine, and ends or fails as it does. -/
theorem map_idealOf_resume (h : WellFormed m) (hd : m.dictionary = .builtIn) (fuel : Nat) :
    (resume fuel m).map idealOf = m.ideal.run (selects m.actions) fuel := by
  induction fuel generalizing m with
  | zero => rfl
  | succ fuel ih =>
    have hstep := idealOf_dispatch h hd
    -- the machine left by a dispatch satisfies the hypotheses again, with the same actions
    have hwell := stable_wellFormed.dispatch m h
    have hframe := (stable_frame m).dispatch m ⟨rfl, rfl, rfl, rfl, rfl⟩
    rw [resume, Ideal.run, ← hstep]
    rw [left] at hwell hframe
    cases hr : dispatch m with
    | error failure m' => rfl
    | ok progress m' =>
      cases progress with
      | stopped => rfl
      | running =>
        rw [hr] at hwell hframe
        rw [← hframe.actions]
        exact ih hwell (hframe.dictionary.trans hd)

/-! ## Branches by long words -/

/-- A table in which `z` has the largest number of points. -/
def longLetters : LetterScores :=
  .ofList [('k', 5), ('a', 1), ('f', 14), ('z', 4294967295), ('x', 4294967292), ('y', 4294967291)]

/-- Words that put 1 on the stack and then branch forward, by the score of a word with 2^32 times the
letter `z` and one letter more. -/
def longBranch (c : Char) : List String := ["k", "a", "f", Word.longText (2 ^ 32) 'z' c]

def longMachine : Machine := { letters := longLetters, stack := .withLimit none }

def longStart (c : Char) : Machine := longMachine.start (.ofText (" ".intercalate (longBranch c)))

theorem isToken_of_mem_longBranch {c : Char} (hc : Word.isWordChar c = true) :
    ∀ t ∈ longBranch c, Word.IsToken t := by
  simp only [longBranch, List.forall_mem_cons, List.not_mem_nil, false_implies, implies_true, and_true]
  exact ⟨by decide, by decide, by decide, Word.isToken_longText (by decide) hc⟩

/-- The points of the last word add up to those of its last letter and 2^64 - 2^32. -/
theorem map_score_longBranch {c : Char} {p : Nat} (hp : longLetters.share c = p) :
    (longBranch c).map (fun t => (longLetters.score t).toInt) =
      [5, 1, 14, (Int64.ofNat (2 ^ 32 * 4294967295 + p)).toInt] := by
  have hz : longLetters.share 'z' = 4294967295 := by decide +kernel
  have hk : (longLetters.score "k").toInt = 5 := by decide +kernel
  have ha : (longLetters.score "a").toInt = 1 := by decide +kernel
  have hf : (longLetters.score "f").toInt = 14 := by decide +kernel
  rw [longBranch, List.map_cons, List.map_cons, List.map_cons, List.map_cons, List.map_nil, hk, ha, hf,
    LetterScores.score, LetterScores.total_longText, hz, hp]

theorem step_before_longBranch (n : Int) :
    (Ideal.plain [5, 1, 14, n] (-1) []).step (selects .standard) =
      (.ok .running, .plain [5, 1, 14, n] 1 [1]) := rfl

section

variable {c : Char} {p : Nat} {n : Int} (hc : Word.isWordChar c = true)
  (hp : longLetters.share c = p) (hn : (Int64.ofNat (2 ^ 32 * 4294967295 + p)).toInt = n)

include hc hp hn

theorem ideal_longStart : (longStart c).ideal = .plain [5, 1, 14, n] (-1) [] := by
  have hideal := ideal_start longMachine (isToken_of_mem_longBranch hc)
  rw [show longMachine.letters = longLetters from rfl, map_score_longBranch hp, hn] at hideal
  exact hideal

/-- The machine comes to the branch. -/
theorem exists_before_longBranch :
    ∃ m, dispatch (longStart c) = .ok .running m ∧ Reachable m ∧ Frame (longStart c) m ∧
      m.ideal = .plain [5, 1, 14, n] 1 [1] := by
  have hstart : Reachable (longStart c) := .start _ (.fresh longLetters .standard none [] {})
  have hreach := hstart.call .dispatch
  have hframe := (stable_frame (longStart c)).dispatch (longStart c) ⟨rfl, rfl, rfl, rfl, rfl⟩
  have hstep := idealOf_dispatch hstart.wellFormed rfl
  rw [ideal_longStart hc hp hn] at hstep
  obtain ⟨m, hm, hideal⟩ := idealOf_eq_ok (hstep.trans (step_before_longBranch n))
  rw [left, hm] at hreach hframe
  exact ⟨m, hm, hreach, hframe, hideal⟩

end

/-- **Refinement.**  A dispatch of a reachable machine with the built-in dictionary is a step of the
ideal machine, and leaves the words, the tables and the limit as they are, so that the next dispatch is
a step with the same scores and the same selection.  A branch by an operand whose points add up to a
value leads where `jump` says. -/
theorem dispatch_refines_ideal {m : Machine} (h : Reachable m) (hd : m.dictionary = .builtIn) :
    idealOf (dispatch m) = m.ideal.step (selects m.actions) ∧
      Frame m (left dispatch m) ∧
      ∀ (i : Nat) (w : Word), m.words[i + 1]? = some w → m.letters.total w.text ≤ Value.greatest →
        m.ideal.score? (i + 1) = some (m.letters.total w.text : Int) ∧
          ∀ (direction : Direction) (s : Ideal), s.scores = m.ideal.scores →
            Ideal.land direction i (m.letters.total w.text) s =
              Ideal.jump direction i (m.letters.total w.text) s := by
  refine ⟨idealOf_dispatch h.wellFormed hd, (stable_frame m).dispatch m ⟨rfl, rfl, rfl, rfl, rfl⟩, ?_⟩
  intro i w hw hle
  have hlt := (Array.getElem?_eq_some_iff.1 hw).1
  refine ⟨?_, fun direction s hs => ?_⟩
  · have hscore := ideal_score? m (i + 1)
    rw [hw, Option.map_some, toInt_score hle] at hscore
    exact hscore
  · have hlen : s.scores.length = m.words.size := by simp [hs, ideal]
    exact Ideal.land_eq_jump direction (by omega) (by omega) (by omega)

/-- The words score 5, 1, 16 and 1.  After the first two have put 1 on the stack, the last two branch
back by 1, from the word 2 to the word 1. -/
theorem dispatch_refines_ideal_back :
    (idealOf (dispatch (left dispatch (start {} (.ofText "k a zhd a"))))).1.toOption = some .running ∧
      (idealOf (dispatch (left dispatch (start {} (.ofText "k a zhd a"))))).2 = {
        scores := [5, 1, 16, 1]
        counter := 1
        stack := []
        limit := none
        source := []
        sink := {}
        halted := false } ∧
      ∀ s : Ideal, s.scores = [5, 1, 16, 1] →
        Ideal.land .backward 2 1 s = Ideal.jump .backward 2 1 s := by
  have hstart : Reachable (start {} (.ofText "k a zhd a")) :=
    .start _ (.fresh .scrabble .standard none [] {})
  have hframe := (stable_frame (start {} (.ofText "k a zhd a"))).dispatch _ ⟨rfl, rfl, rfl, rfl, rfl⟩
  have hscores : (left dispatch (start {} (.ofText "k a zhd a"))).ideal.scores = [5, 1, 16, 1] := by
    decide +kernel
  have hword : (left dispatch (start {} (.ofText "k a zhd a"))).words[3]?.map Word.text = some "a" := by
    decide +kernel
  obtain ⟨w, hw, htext⟩ := Option.map_eq_some_iff.1 hword
  have htotal : (left dispatch (start {} (.ofText "k a zhd a"))).letters.total w.text = 1 := by
    rw [htext]
    decide +kernel
  obtain ⟨hstep, -, hland⟩ := dispatch_refines_ideal (.call .dispatch hstart) hframe.dictionary
  rw [hstep]
  refine ⟨by decide +kernel, by decide +kernel, fun s hs => ?_⟩
  have hjump := (hland 2 w hw (by rw [htotal]; decide)).2 .backward s (hs.trans hscores.symm)
  rwa [htotal] at hjump

/-- Two things that the words, the counter, the stack, the limit, the source and the sink alone do not
tell.  The word `qd` doubles the topmost value: a machine that was asked to stop before stops after it,
and otherwise goes on.  And a branch forward from the word 2 by -5, the score of a word whose points add
up to 2^64 - 5, fails although it does not lead past the last word. -/
theorem dispatch_halted_and_wrapped :
    (∃ m m' u u' : Machine, Reachable m ∧ Reachable m' ∧ m.dictionary = .builtIn ∧
      m'.dictionary = .builtIn ∧ m'.actions = m.actions ∧ m'.ideal = { m.ideal with halted := true } ∧
      dispatch m = .ok .running u ∧ dispatch m' = .ok .stopped u' ∧
      u'.ideal = { u.ideal with halted := true }) ∧
    ∃ (m m' : Machine) (failure : Failure), Reachable m ∧ m.dictionary = .builtIn ∧
      m.ideal = .plain [5, 1, 14, -5] 1 [1] ∧ selects m.actions 14 = some .forwardIfNonzero ∧
      dispatch m = .error failure m' ∧ failure.fault.kind = .counterOutOfBounds ∧
      ¬ (m.ideal.scores.length : Int) ≤ 2 + 1 + -5 := by
  constructor
  · have hm := (Reachable.start (.ofText "qd") (.fresh .scrabble .standard none [] {})).call (.push 1)
    exact ⟨_, _, _, _, hm, hm.call .halt, rfl, rfl, rfl, rfl, rfl, rfl, rfl⟩
  · obtain ⟨m, -, hm, hframe, hideal⟩ : ∃ m, dispatch (longStart 'y') = .ok .running m ∧ Reachable m ∧
        Frame (longStart 'y') m ∧ m.ideal = .plain [5, 1, 14, -5] 1 [1] :=
      exists_before_longBranch (by decide) (p := 4294967291) (by decide +kernel) (by decide +kernel)
    have hactions : m.actions = .standard := hframe.actions
    have hstep := idealOf_dispatch hm.wellFormed hframe.dictionary
    rw [hideal, hactions] at hstep
    have hout : (Ideal.plain [5, 1, 14, -5] 1 [1]).step (selects .standard) =
        (.error .counterOutOfBounds, .plain [5, 1, 14, -5] 3 []) := rfl
    obtain ⟨failure, m', hm', hkind, -⟩ := idealOf_eq_error (hstep.trans hout)
    refine ⟨m, m', failure, hm, hframe.dictionary, hideal, ?_, hm', hkind, ?_⟩
    · rw [hactions]
      rfl
    · rw [hideal]
      decide

end Beatnik.Machine
