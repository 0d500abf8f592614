import Beatnik.Proofs.Machine.SinkLimits

/-!
# Characters in and out

Values that are Unicode scalar values are written as characters, and characters are read as such values.
What `output` writes `input` reads back, and what `input` reads `output` writes again:

    `output` again and again: values to the bytes of those that are scalar values    (attempts_output)
    `input` again and again: the bytes of characters to their codes                   (attempts_input)
    `input` and `output` in turn: the bytes of characters to the same bytes            (attempts_echo)

An action that fails does not end such a sequence: the next one goes on from where it has led
(`attempts`).
-/

namespace Beatnik.Machine

/-! ## Codes -/

/-- A value is a Unicode scalar value: a code point that is no surrogate. -/
def IsScalar (v : Value) : Prop :=
  (0 ≤ v.toInt ∧ v.toInt < 0xD800) ∨ (0xDFFF < v.toInt ∧ v.toInt < 0x110000)

instance : DecidablePred IsScalar := fun v =>
  inferInstanceAs (Decidable
    ((0 ≤ v.toInt ∧ v.toInt < 0xD800) ∨ (0xDFFF < v.toInt ∧ v.toInt < 0x110000)))

/-- The value that a character is read as. -/
def code (c : Char) : Value := Int64.ofNat c.toNat

def encoded (vs : List Value) : List UInt8 :=
  vs.flatMap fun v => Text.Utf8.encode (Char.ofNat v.toInt.toNat)

theorem encoded_nil : encoded [] = [] := rfl

theorem encoded_cons (v : Value) (vs : List Value) :
    encoded (v :: vs) = Text.Utf8.encode (Char.ofNat v.toInt.toNat) ++ encoded vs :=
  List.flatMap_cons

section

variable {v : Value}

theorem charOfValue?_of_isScalar (h : IsScalar v) :
    charOfValue? v = some (Char.ofNat v.toInt.toNat) := by
  rw [charOfValue?_eq, Ideal.char?]
  exact if_pos h

theorem charOfValue?_of_not_isScalar (h : ¬ IsScalar v) : charOfValue? v = none := by
  rw [charOfValue?_eq, Ideal.char?]
  exact if_neg h

theorem ofNat_code (c : Char) : Char.ofNat (code c).toInt.toNat = c := by
  rw [code, toInt_ofNat_char, Int.toNat_natCast, Char.ofNat_toNat]

theorem isScalar_code (c : Char) : IsScalar (code c) := by
  have hvalid := c.valid
  rw [UInt32.isValidChar, Nat.isValidChar] at hvalid
  rw [IsScalar, code, toInt_ofNat_char]
  show ((0 : Int) ≤ c.val.toNat ∧ (c.val.toNat : Int) < _) ∨
    (_ < (c.val.toNat : Int) ∧ (c.val.toNat : Int) < _)
  omega

theorem code_ofNat (h : IsScalar v) : code (Char.ofNat v.toInt.toNat) = v := by
  have hvalid : v.toInt.toNat.isValidChar := by
    rw [IsScalar] at h
    rw [Nat.isValidChar]
    omega
  have hnonneg : 0 ≤ v.toInt := by
    rw [IsScalar] at h
    omega
  apply Int64.toInt_inj.1
  rw [code, toInt_ofNat_char, Char.toNat_ofNat, if_pos hvalid, Int.toNat_of_nonneg hnonneg]

end

theorem encoded_map_code (cs : List Char) : encoded (cs.map code) = cs.flatMap Text.Utf8.encode := by
  simp only [encoded, List.flatMap_map, ofNat_code]

/-- Scalar values are the codes of characters. -/
theorem exists_map_code {vs : List Value} (h : ∀ v ∈ vs, IsScalar v) :
    ∃ cs : List Char, vs = cs.map code := by
  refine ⟨vs.map fun v => Char.ofNat v.toInt.toNat, ?_⟩
  have hcode : ∀ v ∈ vs, (code ∘ fun v => Char.ofNat v.toInt.toNat) v = id v :=
    fun v hv => code_ofNat (h v hv)
  rw [List.map_map, List.map_congr_left hcode, List.map_id]

/-! ## Attempts -/

/-- Attempts a computation a number of times, each time from where the one before has led, also if it
has failed.  Gives how each attempt has failed, if it has, and the machine in the end. -/
def attempts {α : Type} (x : Step α) : Nat → Machine → List (Option Failure) × Machine
  | 0, m => ([], m)
  | n + 1, m =>
    let (failures, last) := attempts x n (left x m)
    (failure? (x m) :: failures, last)

section

variable {α : Type} {x : Step α} {m m' last : Machine} {n : Nat} {failures : List (Option Failure)}

theorem attempts_of_ok {a : α} (hx : x m = .ok a m') (h : attempts x n m' = (failures, last)) :
    attempts x (n + 1) m = (none :: failures, last) := by
  rw [attempts, left, hx, show machineOf (.ok a m') = m' from rfl, h]
  rfl

theorem attempts_of_error {failure : Failure} (hx : x m = .error failure m')
    (h : attempts x n m' = (failures, last)) :
    attempts x (n + 1) m = (some failure :: failures, last) := by
  rw [attempts, left, hx, show machineOf (.error failure m') = m' from rfl, h]
  rfl

end

/-! ## Actions -/

/-- An action has its own built-in behaviour. -/
def Standard (m : Machine) (a : Action) : Prop :=
  (m.dictionary.find? a).map (·.behaviour) = some a

def echo : Step Progress := do
  let _ ← execute .input
  execute .output

section

variable {m : Machine} {a : Action} {v : Value} {rest : List Value}

theorem Standard.execute (h : m.Standard a) : execute a m = concluded (perform a m) := by
  obtain ⟨e, he, hb⟩ := Option.map_eq_some_iff.1 h
  rw [execute_of_find? he, hb]

theorem execute_output_of_isScalar (hd : m.Standard .output) (hsink : m.sink.Unlimited)
    (hs : m.stack.items = v :: rest) (hv : IsScalar v) :
    ∃ stack, execute .output m = .ok (if m.halted then .stopped else .running)
        { m with stack, sink := m.sink.accept (Text.Utf8.encode (Char.ofNat v.toInt.toNat)) } ∧
      stack.items = rest ∧ stack.limit = m.stack.limit := by
  obtain ⟨stack, hpop, hitems, hlimit⟩ := pop_cons hs
  have hwrite := writeChar_of_none (m := { m with stack })
    (hsink.write (Text.Utf8.encode (Char.ofNat v.toInt.toNat)))
  refine ⟨stack, ?_, hitems, hlimit⟩
  rw [hd.execute, perform, bind_ok hpop, charOfValue?_of_isScalar hv]
  exact congrArg concluded hwrite

theorem execute_output_of_not_isScalar (hd : m.Standard .output)
    (hs : m.stack.items = v :: rest) (hv : ¬ IsScalar v) :
    ∃ stack, execute .output m = .error ⟨.invalidCharacter v, m.here⟩ { m with stack } ∧
      stack.items = rest ∧ stack.limit = m.stack.limit := by
  obtain ⟨stack, hpop, hitems, hlimit⟩ := pop_cons hs
  refine ⟨stack, ?_, hitems, hlimit⟩
  rw [hd.execute, perform, bind_ok hpop, charOfValue?_of_not_isScalar hv]
  rfl

theorem execute_input_of_cons (hd : m.Standard .input)
    (hroom : ∀ limit, m.stack.limit = some limit → m.stack.items.length < limit)
    {c : Char} {bytes : List UInt8} (hs : m.source = .ofBytes (Text.Utf8.encode c ++ bytes)) :
    ∃ stack, execute .input m = .ok (if m.halted then .stopped else .running)
        { m with stack, source := .ofBytes bytes } ∧
      stack.items = code c :: m.stack.items ∧ stack.limit = m.stack.limit := by
  have hread := readChar_of_ok ((congrArg Source.readChar hs).trans (Source.readChar_encode c bytes))
  obtain ⟨stack, hpush, hitems, hlimit⟩ :=
    push_of_lt (m := { m with source := .ofBytes bytes }) (code c) hroom
  refine ⟨stack, ?_, hitems, hlimit⟩
  rw [hd.execute, perform, bind_ok hread]
  exact congrArg concluded hpush

theorem execute_input_of_nil (hd : m.Standard .input) (hs : m.source = []) :
    execute .input m = .error ⟨.endOfInput, m.here⟩ { m with source := [] } := by
  have hread : Source.readChar m.source = .ok none [] := by
    rw [hs]
    rfl
  rw [hd.execute, perform, bind_ok (readChar_of_ok hread)]
  rfl

theorem echo_of_cons (hin : m.Standard .input) (hout : m.Standard .output)
    (hsink : m.sink.Unlimited)
    (hroom : ∀ limit, m.stack.limit = some limit → m.stack.items.length < limit)
    {c : Char} {bytes : List UInt8} (hs : m.source = .ofBytes (Text.Utf8.encode c ++ bytes)) :
    ∃ stack, echo m = .ok (if m.halted then .stopped else .running)
        { m with stack, source := .ofBytes bytes, sink := m.sink.accept (Text.Utf8.encode c) } ∧
      stack.items = m.stack.items ∧ stack.limit = m.stack.limit := by
  obtain ⟨stack, hread, hitems, hlimit⟩ := execute_input_of_cons hin hroom hs
  obtain ⟨stack', hwrite, hitems', hlimit'⟩ :=
    execute_output_of_isScalar (m := { m with stack, source := .ofBytes bytes }) hout hsink hitems
      (isScalar_code c)
  rw [ofNat_code] at hwrite
  exact ⟨stack', (bind_ok hread).trans hwrite, hitems', hlimit'.trans hlimit⟩

end

/-! ## Sequences of actions -/

theorem attempts_output {m : Machine} {vs rest : List Value} (hd : m.Standard .output)
    (hsink : m.sink.Unlimited) (hs : m.stack.items = vs ++ rest) :
    ∃ stack, attempts (execute .output) vs.length m =
        (vs.map fun v => if IsScalar v then none else some ⟨.invalidCharacter v, m.here⟩,
          { m with stack, sink := m.sink.accept (encoded (vs.filter IsScalar)) }) ∧
      stack.items = rest ∧ stack.limit = m.stack.limit := by
  induction vs generalizing m with
  | nil =>
    refine ⟨m.stack, ?_, hs, rfl⟩
    rw [List.filter_nil, encoded_nil, Sink.accept_nil]
    rfl
  | cons v vs ih =>
    rw [List.length_cons, List.map_cons]
    by_cases hv : IsScalar v
    · obtain ⟨stack, he, hitems, hlimit⟩ := execute_output_of_isScalar hd hsink hs hv
      obtain ⟨stack', hrest, hitems', hlimit'⟩ := ih (m := { m with
        stack, sink := m.sink.accept (Text.Utf8.encode (Char.ofNat v.toInt.toNat)) }) hd
        (hsink.accept _) hitems
      refine ⟨stack', ?_, hitems', hlimit'.trans hlimit⟩
      rw [attempts_of_ok he hrest, if_pos hv, List.filter_cons_of_pos (by simpa using hv), encoded_cons,
        ← Sink.accept_accept]
      rfl
    · obtain ⟨stack, he, hitems, hlimit⟩ := execute_output_of_not_isScalar hd hs hv
      obtain ⟨stack', hrest, hitems', hlimit'⟩ := ih (m := { m with stack }) hd hsink hitems
      refine ⟨stack', ?_, hitems', hlimit'.trans hlimit⟩
      rw [attempts_of_error he hrest, if_neg hv, List.filter_cons_of_neg (by simpa using hv)]
      rfl

theorem attempts_input {n : Machine} {cs : List Char} (hd : n.Standard .input)
    (hlimit : n.stack.limit = none) (hs : n.source = .ofBytes (cs.flatMap Text.Utf8.encode)) :
    ∃ stack, attempts (execute .input) (cs.length + 1) n =
        (List.replicate cs.length none ++ [some ⟨.endOfInput, n.here⟩],
          { n with stack, source := [] }) ∧
      stack.items = (cs.map code).reverse ++ n.stack.items ∧ stack.limit = none := by
  induction cs generalizing n with
  | nil => exact ⟨n.stack, attempts_of_error (execute_input_of_nil hd hs) rfl, rfl, hlimit⟩
  | cons c cs ih =>
    obtain ⟨stack, he, hitems, hlimit'⟩ := execute_input_of_cons hd (by simp [hlimit]) hs
    obtain ⟨stack', hrest, hitems', hlimit''⟩ :=
      ih (n := { n with stack, source := .ofBytes (cs.flatMap Text.Utf8.encode) }) hd
        (hlimit'.trans hlimit) rfl
    refine ⟨stack', attempts_of_ok he hrest, ?_, hlimit''⟩
    rw [hitems', List.map_cons, List.reverse_cons, List.append_assoc]
    exact congrArg _ hitems

theorem attempts_echo {n : Machine} {cs : List Char} (hin : n.Standard .input)
    (hout : n.Standard .output) (hsink : n.sink.Unlimited)
    (hroom : ∀ limit, n.stack.limit = some limit → n.stack.items.length < limit)
    (hs : n.source = .ofBytes (cs.flatMap Text.Utf8.encode)) :
    ∃ stack, attempts echo (cs.length + 1) n =
        (List.replicate cs.length none ++ [some ⟨.endOfInput, n.here⟩],
          { n with stack, source := [], sink := n.sink.accept (cs.flatMap Text.Utf8.encode) }) ∧
      stack.items = n.stack.items ∧ stack.limit = n.stack.limit := by
  induction cs generalizing n with
  | nil =>
    refine ⟨n.stack, ?_, rfl, rfl⟩
    have he : echo n = _ := bind_error (execute_input_of_nil hin hs)
    rw [List.flatMap_nil, Sink.accept_nil]
    exact attempts_of_error he rfl
  | cons c cs ih =>
    obtain ⟨stack, he, hitems, hlimit⟩ := echo_of_cons hin hout hsink hroom hs
    have hroom' : ∀ limit, stack.limit = some limit → stack.items.length < limit := by
      rwa [hitems, hlimit]
    obtain ⟨stack', hrest, hitems', hlimit'⟩ := ih (n := { n with
      stack, source := .ofBytes (cs.flatMap Text.Utf8.encode),
      sink := n.sink.accept (Text.Utf8.encode c) }) hin hout (hsink.accept _) hroom' rfl
    refine ⟨stack', ?_, hitems'.trans hitems, hlimit'.trans hlimit⟩
    rw [List.length_cons, attempts_of_ok he hrest, List.flatMap_cons, ← Sink.accept_accept]
    rfl

/-- **Codec.**  Of the values that are given out one after another just the scalar values are written; the
others fail.  Reading what was written gives these values back in order, and then the end.  In turn,
writing each character as it is read writes the bytes of a valid input as they were. -/
theorem output_input_inverse :
    (∀ (m : Machine) (vs rest : List Value), m.Standard .output → m.sink.Unlimited →
      m.stack.items = vs ++ rest →
      (∃ stack, attempts (execute .output) vs.length m =
          (vs.map fun v => if IsScalar v then none else some ⟨.invalidCharacter v, m.here⟩,
            { m with stack, sink := m.sink.accept (encoded (vs.filter IsScalar)) }) ∧
        stack.items = rest) ∧
      ∀ n : Machine, n.Standard .input → n.stack.limit = none →
        n.source = .ofBytes (encoded (vs.filter IsScalar)) →
        ∃ stack, attempts (execute .input) ((vs.filter IsScalar).length + 1) n =
            (List.replicate (vs.filter IsScalar).length none ++ [some ⟨.endOfInput, n.here⟩],
              { n with stack, source := [] }) ∧
          stack.items = (vs.filter IsScalar).reverse ++ n.stack.items) ∧
    ∀ (n : Machine) (bytes : List UInt8), n.Standard .input → n.Standard .output →
      n.sink.Unlimited → (∀ limit, n.stack.limit = some limit → n.stack.items.length < limit) →
      bytes.toByteArray.IsValidUTF8 → n.source = .ofBytes bytes →
      ∃ count stack, attempts echo (count + 1) n =
          (List.replicate count none ++ [some ⟨.endOfInput, n.here⟩],
            { n with stack, source := [], sink := n.sink.accept bytes }) ∧
        stack.items = n.stack.items := by
  refine ⟨fun m vs rest hd hsink hs => ⟨?_, fun n hd hlimit hsource => ?_⟩, ?_⟩
  · obtain ⟨stack, he, hitems, -⟩ := attempts_output hd hsink hs
    exact ⟨stack, he, hitems⟩
  · have hscalar : ∀ v ∈ vs.filter IsScalar, IsScalar v := fun v hv =>
      of_decide_eq_true (List.mem_filter.1 hv).2
    obtain ⟨cs, hcs⟩ := exists_map_code hscalar
    rw [hcs, encoded_map_code] at hsource
    obtain ⟨stack, he, hitems, -⟩ := attempts_input hd hlimit hsource
    rw [hcs, List.length_map]
    exact ⟨stack, he, hitems⟩
  · rintro n bytes hin hout hsink hroom ⟨cs, hcs⟩ hsource
    obtain rfl : bytes = cs.flatMap Text.Utf8.encode := List.toByteArray_inj.1 hcs
    obtain ⟨stack, he, hitems, -⟩ := attempts_echo hin hout hsink hroom hsource
    exact ⟨cs.length, stack, he, hitems⟩

/-- A letter, a surrogate and a sign of three bytes.  The surrogate is left out, and the others are read
back and also echoed. -/
theorem output_input_inverse_surrogate :
    let m : Machine := { stack := { items := [0x41, 0xD800, 0x20AC], depth := 3 } }
    let n : Machine := { source := .ofBytes [0x41, 0xE2, 0x82, 0xAC] }
    (attempts (execute .output) 3 m).1 = [none, some ⟨.invalidCharacter 0xD800, none⟩, none] ∧
    (attempts (execute .output) 3 m).2.sink.bytes = [0x41, 0xE2, 0x82, 0xAC] ∧
    (attempts (execute .input) 3 n).1 = [none, none, some ⟨.endOfInput, none⟩] ∧
    (attempts (execute .input) 3 n).2.stack.items = [0x20AC, 0x41] ∧
    ∃ count, (attempts echo (count + 1) n).2.sink.bytes = [0x41, 0xE2, 0x82, 0xAC] := by
  intro m n
  have hm : ∀ a, m.Standard a := fun a => by
    rw [Standard, show m.dictionary = .builtIn from rfl, find?_builtIn]
    rfl
  have hn : ∀ a, n.Standard a := hm
  have hscalar : ([0x41, 0xD800, 0x20AC] : List Value).filter IsScalar = [0x41, 0x20AC] := by decide
  have hencoded : encoded [0x41, 0x20AC] = [0x41, 0xE2, 0x82, 0xAC] := by decide +kernel
  obtain ⟨hvalues, hbytes⟩ := output_input_inverse
  obtain ⟨⟨stack, hout, -⟩, hread⟩ :=
    hvalues m [0x41, 0xD800, 0x20AC] [] (hm .output) ⟨rfl, rfl⟩ rfl
  rw [hscalar, hencoded] at hout hread
  obtain ⟨stack', hin, hitems⟩ := hread n (hn .input) rfl rfl
  obtain ⟨count, stack'', hecho, -⟩ :=
    hbytes n [0x41, 0xE2, 0x82, 0xAC] (hn .input) (hn .output) ⟨rfl, rfl⟩ nofun
      ⟨['A', '€'], by decide +kernel⟩ rfl
  refine ⟨congrArg Prod.fst hout, congrArg (·.2.sink.bytes) hout, congrArg Prod.fst hin,
    (congrArg (·.2.stack.items) hin).trans hitems, count, congrArg (·.2.sink.bytes) hecho⟩

end Beatnik.Machine
