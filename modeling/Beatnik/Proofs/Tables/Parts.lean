import Beatnik.Proofs.LowerCase
import Beatnik.TableFile

/-!
# The parts of an entry

What the key and the value of an entry may be, said without the functions that read them: a letter
(`IsLetter`), a number of points (`IsPoints`), a score (`IsScore`) and the name of an action (`IsName`).
Each reader accepts just these, and otherwise fails at the line of the entry (`Reads`).  A text is
trimmed by taking off blanks at both ends until there are none (`Trims`), and

    Trims cs t ↔ trim cs = t                                                      (trims_iff)
-/

namespace Beatnik.Text

/-! ## Trimming -/

/-- `t` is what is left of `cs` without the blanks at its two ends. -/
structure Trims (cs t : List Char) : Prop where
  around : ∃ a b, cs = a ++ t ++ b ∧ (∀ c ∈ a, isBlank c = true) ∧ ∀ c ∈ b, isBlank c = true
  first : ∀ c, t.head? = some c → isBlank c = false
  last : ∀ c, t.getLast? = some c → isBlank c = false

theorem dropWhile_of_head? {cs : List Char} (h : ∀ c, cs.head? = some c → isBlank c = false) :
    cs.dropWhile isBlank = cs := by
  cases cs with
  | nil => rfl
  | cons c cs => rw [List.dropWhile_cons_of_neg (by simp [h c rfl])]

theorem head?_dropWhile (cs : List Char) {c : Char} (h : (cs.dropWhile isBlank).head? = some c) :
    isBlank c = false := by
  have hnot := List.head?_dropWhile_not isBlank cs
  rw [h] at hnot
  exact hnot

theorem trim_eq_nil_iff {cs : List Char} : trim cs = [] ↔ ∀ c ∈ cs, isBlank c = true := by
  unfold trim
  rw [List.reverse_eq_nil_iff, List.dropWhile_eq_nil_iff]
  simp only [List.mem_reverse]
  constructor
  · intro h
    rw [← List.dropWhile_eq_nil_iff]
    -- a first character that is not blank would be among those said to be blank
    by_contra hne
    obtain ⟨c, rest, hc⟩ := List.exists_cons_of_ne_nil hne
    have hblank := h c (by rw [hc]; exact List.mem_cons_self)
    rw [head?_dropWhile cs (by rw [hc]; rfl)] at hblank
    cases hblank
  · intro h c hc
    exact h c ((List.dropWhile_sublist isBlank).subset hc)

theorem Trims.trim_eq {cs t : List Char} (h : Trims cs t) : trim cs = t := by
  obtain ⟨⟨a, b, rfl, ha, hb⟩, hfirst, hlast⟩ := h
  by_cases ht : t = []
  · subst ht
    rw [trim_eq_nil_iff]
    intro c hc
    simp only [List.append_nil, List.mem_append] at hc
    rcases hc with hc | hc
    · exact ha c hc
    · exact hb c hc
  · have hhead : (t ++ b).dropWhile isBlank = t ++ b := by
      apply dropWhile_of_head?
      intro c hc
      rw [List.head?_append_of_ne_nil _ ht] at hc
      exact hfirst c hc
    have hrev : t.reverse.dropWhile isBlank = t.reverse := by
      apply dropWhile_of_head?
      intro c hc
      rw [List.head?_reverse] at hc
      exact hlast c hc
    unfold trim
    rw [List.append_assoc, List.dropWhile_append_of_pos ha, hhead, List.reverse_append,
      List.dropWhile_append_of_pos (by simpa using hb), hrev, List.reverse_reverse]

theorem trims_trim (cs : List Char) : Trims cs (trim cs) := by
  have hrest : (cs.dropWhile isBlank) =
      trim cs ++ ((cs.dropWhile isBlank).reverse.takeWhile isBlank).reverse := by
    unfold trim
    rw [← List.reverse_append, List.takeWhile_append_dropWhile, List.reverse_reverse]
  refine ⟨⟨cs.takeWhile isBlank, ((cs.dropWhile isBlank).reverse.takeWhile isBlank).reverse, ?_, ?_, ?_⟩,
    ?_, ?_⟩
  · rw [List.append_assoc, ← hrest, List.takeWhile_append_dropWhile]
  · exact fun c hc => List.mem_takeWhile_imp hc
  · intro c hc
    exact List.mem_takeWhile_imp (List.mem_reverse.1 hc)
  · intro c hc
    apply head?_dropWhile cs
    rw [hrest, List.head?_append, hc]
    rfl
  · intro c hc
    apply head?_dropWhile (cs.dropWhile isBlank).reverse
    rw [← hc]
    unfold trim
    rw [List.getLast?_reverse]

theorem trims_iff {cs t : List Char} : Trims cs t ↔ trim cs = t := by
  constructor
  · exact Trims.trim_eq
  · rintro rfl
    exact trims_trim cs

/-- A trimmed text has nothing to be trimmed. -/
theorem Trims.self {cs t : List Char} (h : Trims cs t) : trim t = t := by
  refine Trims.trim_eq ⟨⟨[], [], ?_, ?_, ?_⟩, h.first, h.last⟩
  · simp
  · simp
  · simp

/-! ## Numbers -/

/-- A number in decimal digits, at least one. -/
structure Decimal (ds : List Char) (n : Nat) : Prop where
  nonempty : ds ≠ []
  digits : ∀ c ∈ ds, c.isDigit = true
  value : Nat.ofDigitChars 10 ds 0 = n

theorem digits?_eq_some {ds : List Char} {n : Nat} : digits? ds = some n ↔ Decimal ds n := by
  unfold digits?
  constructor
  · intro h
    split at h
    · next hds =>
      cases h
      exact ⟨hds.1, List.all_eq_true.1 hds.2, Nat.ofDigitChars_eq_foldl⟩
    · cases h
  · rintro ⟨hne, hdigits, rfl⟩
    rw [if_pos ⟨hne, List.all_eq_true.2 hdigits⟩, Nat.ofDigitChars_eq_foldl]
    rfl

/-- Digits do not start with a sign. -/
theorem Decimal.head_isDigit {c : Char} {cs : List Char} {n : Nat} (h : Decimal (c :: cs) n) :
    c.isDigit = true :=
  h.digits c List.mem_cons_self

theorem natural?_eq_some {max n : Nat} {cs : List Char} :
    natural? max cs = some n ↔ n ≤ max ∧ ∃ ds, (cs = ds ∨ cs = '+' :: ds) ∧ Decimal ds n := by
  unfold natural?
  rw [Option.filter_eq_some_iff, digits?_eq_some, decide_eq_true_eq, and_comm]
  refine and_congr_right fun _ => ?_
  split
  · next rest =>
    constructor
    · exact fun h => ⟨rest, .inr rfl, h⟩
    · rintro ⟨ds, rfl | hds, h⟩
      · exact absurd h.head_isDigit (by decide)
      · cases hds
        exact h
  · next hplus =>
    constructor
    · exact fun h => ⟨cs, .inl rfl, h⟩
    · rintro ⟨ds, rfl | rfl, h⟩
      · exact h
      · exact absurd rfl (hplus ds)

/-- An integer in decimal digits, perhaps with a sign. -/
def SignedDecimal (cs : List Char) (i : Int) : Prop :=
  ∃ ds n, Decimal ds n ∧ (((cs = ds ∨ cs = '+' :: ds) ∧ i = n) ∨ (cs = '-' :: ds ∧ i = -n))

theorem integer?_eq_some {cs : List Char} {i : Int} : integer? cs = some i ↔ SignedDecimal cs i := by
  unfold integer? SignedDecimal
  split
  · next rest =>
    simp only [Option.map_eq_some_iff, digits?_eq_some]
    constructor
    · rintro ⟨n, h, rfl⟩
      exact ⟨rest, n, h, .inr ⟨rfl, rfl⟩⟩
    · rintro ⟨ds, n, h, ⟨rfl | hds, rfl⟩ | ⟨hds, rfl⟩⟩
      · exact absurd h.head_isDigit (by decide)
      · cases hds
      · cases hds
        exact ⟨n, h, rfl⟩
  · next rest =>
    simp only [Option.map_eq_some_iff, digits?_eq_some]
    constructor
    · rintro ⟨n, h, rfl⟩
      exact ⟨rest, n, h, .inl ⟨.inr rfl, rfl⟩⟩
    · rintro ⟨ds, n, h, ⟨rfl | hds, rfl⟩ | ⟨hds, rfl⟩⟩
      · exact absurd h.head_isDigit (by decide)
      · cases hds
        exact ⟨n, h, rfl⟩
      · cases hds
  · next hminus hplus =>
    simp only [Option.map_eq_some_iff, digits?_eq_some]
    constructor
    · rintro ⟨n, h, rfl⟩
      exact ⟨cs, n, h, .inl ⟨.inl rfl, rfl⟩⟩
    · rintro ⟨ds, n, h, ⟨rfl | rfl, rfl⟩ | ⟨rfl, rfl⟩⟩
      · exact ⟨n, h, rfl⟩
      · exact absurd rfl (hplus ds)
      · exact absurd rfl (hminus ds)

theorem value?_eq_some {cs : List Char} {v : Value} :
    value? cs = some v ↔ SignedDecimal cs v.toInt := by
  rw [value?, Option.bind_eq_some_iff]
  constructor
  · rintro ⟨i, hi, hv⟩
    rw [Value.toInt_of_ofInt? hv]
    exact integer?_eq_some.1 hi
  · intro h
    exact ⟨v.toInt, integer?_eq_some.2 h, Value.ofInt?_toInt v⟩

end Beatnik.Text

namespace Beatnik

/-! ## Names -/

theorem Action.name_injective {a b : Action} (h : a.name.toList = b.name.toList) : a = b := by
  cases a <;> cases b <;> first | rfl | exact absurd h (by decide)

theorem Action.isAlpha_name (a : Action) : ∀ d ∈ a.name.toList, d.isAlpha = true ∧ d ≠ 'k' := by
  have hall : a.name.toList.all (fun d => d.isAlpha && d != 'k') = true := by
    cases a <;> decide
  intro d hd
  have h := List.all_eq_true.1 hall d hd
  rwa [Bool.and_eq_true, bne_iff_ne] at h

/-- A name is recognised between blanks and in any case of its ASCII letters. -/
theorem Action.ofText?_eq_some {cs : List Char} {a : Action} :
    ofText? cs = some a ↔ (Text.trim cs).map Char.toLower = a.name.toList := by
  rw [← Text.lowerText_eq_iff a.isAlpha_name]
  unfold ofText?
  constructor
  · intro h
    have hname := List.find?_some h
    rw [beq_iff_eq] at hname
    exact hname.symm
  · intro h
    cases hfind : all.find? fun b => b.name.toList == Text.lowerText (Text.trim cs) with
    | none =>
      have hnot := List.find?_eq_none.1 hfind a a.mem_all
      rw [h] at hnot
      exact absurd (beq_self_eq_true _) hnot
    | some b =>
      have hname := List.find?_some hfind
      rw [beq_iff_eq, h] at hname
      rw [Action.name_injective hname]

namespace TableFile

/-! ## Readers -/

def IsLetter (cs : List Char) (c : Char) : Prop := cs = [c] ∧ Text.isAlphabetic c = true

/-- A number of points: decimal digits, perhaps after a plus sign, in the range of 32 bits. -/
def IsPoints (cs : List Char) (points : UInt32) : Prop :=
  ∃ ds, (cs = ds ∨ cs = '+' :: ds) ∧ Text.Decimal ds points.toNat

/-- A score: decimal digits, perhaps after a sign, in the range of values. -/
def IsScore (cs : List Char) (score : Value) : Prop := Text.SignedDecimal cs score.toInt

/-- The name of an action, in any case of its ASCII letters. -/
def IsName (cs : List Char) (a : Action) : Prop := cs.map Char.toLower = a.name.toList

instance (cs : List Char) (a : Action) : Decidable (IsName cs a) :=
  inferInstanceAs (Decidable (cs.map Char.toLower = a.name.toList))

/-- An entry without blanks around its key and its value. -/
def Entry.Trimmed (e : Entry) : Prop := Text.trim e.key = e.key ∧ Text.trim e.value = e.value

/-- A reader of a part of entries accepts what `Is` says, and gives it; in any other case it fails with
the stated fault, at the place of the entry. -/
structure Reads {α : Type} (read : Entry → Except Failure α) (part : Entry → List Char)
    (Is : List Char → α → Prop) (fault : String → Fault) : Prop where
  ok_iff : ∀ {e : Entry} {a : α}, e.Trimmed → (read e = .ok a ↔ Is (part e) a)
  error : ∀ {e : Entry} {failure : Failure}, e.Trimmed → read e = .error failure →
    failure = ⟨fault (String.ofList (part e)), some e.location⟩

theorem Reads.error_of_not {α : Type} {read : Entry → Except Failure α} {part : Entry → List Char}
    {Is : List Char → α → Prop} {fault : String → Fault} (h : Reads read part Is fault) {e : Entry}
    (he : e.Trimmed) (hnot : ∀ a, ¬ Is (part e) a) :
    read e = .error ⟨fault (String.ofList (part e)), some e.location⟩ := by
  cases hread : read e with
  | ok a => exact absurd ((h.ok_iff he).1 hread) (hnot a)
  | error failure => rw [h.error he hread]

theorem reads_letter : Reads Entry.letter Entry.key IsLetter .notALetter where
  ok_iff {e c} _ := by
    unfold Entry.letter IsLetter
    split
    · next d hkey =>
      rw [hkey]
      by_cases hd : Text.isAlphabetic d = true
      · rw [if_pos hd]
        constructor
        · intro h
          cases h
          exact ⟨rfl, hd⟩
        · rintro ⟨h, -⟩
          cases h
          rfl
      · rw [if_neg hd]
        constructor
        · intro h
          cases h
        · rintro ⟨h, hc⟩
          cases h
          exact absurd hc hd
    · next hkey =>
      constructor
      · intro h
        cases h
      · rintro ⟨h, -⟩
        exact absurd h (hkey c)
  error {e failure} _ h := by
    unfold Entry.letter at h
    split at h
    · split at h
      · cases h
      · cases h
        rfl
    · cases h
      rfl

theorem reads_points : Reads Entry.points Entry.value IsPoints .notPoints where
  ok_iff {e p} _ := by
    have hnatural : Text.natural? maxPoints e.value = some p.toNat ↔ IsPoints e.value p := by
      have hlt := p.toNat_lt
      rw [Text.natural?_eq_some]
      exact and_iff_right (by unfold maxPoints; omega)
    rw [← hnatural]
    unfold Entry.points
    constructor
    · intro h
      cases hn : Text.natural? maxPoints e.value with
      | none =>
        rw [hn] at h
        cases h
      | some n =>
        have hle := (Text.natural?_eq_some.1 hn).1
        unfold maxPoints at hle
        rw [hn] at h
        cases h
        rw [UInt32.toNat_ofNat_of_lt' (by unfold UInt32.size; omega)]
    · intro h
      rw [h]
      simp
  error {e failure} _ h := by
    unfold Entry.points at h
    split at h
    · cases h
    · cases h
      rfl

theorem reads_score : Reads Entry.score Entry.key IsScore .notAScore where
  ok_iff {e v} _ := by
    unfold Entry.score IsScore
    rw [← Text.value?_eq_some]
    cases Text.value? e.key with
    | none =>
      constructor
      · intro h
        cases h
      · intro h
        cases h
    | some w =>
      constructor
      · intro h
        cases h
        rfl
      · intro h
        cases h
        rfl
  error {e failure} _ h := by
    unfold Entry.score at h
    split at h
    · cases h
    · cases h
      rfl

theorem reads_action : Reads Entry.action Entry.value IsName .unknownAction where
  ok_iff {e a} he := by
    -- the name is trimmed once more when it is read, which changes nothing
    have hname : Action.ofText? e.value = some a ↔ IsName e.value a := by
      rw [Action.ofText?_eq_some, he.2]
      rfl
    rw [← hname]
    unfold Entry.action Action.parse
    rw [String.toList_ofList]
    cases Action.ofText? e.value with
    | none =>
      constructor
      · intro h
        cases h
      · intro h
        cases h
    | some b =>
      constructor
      · intro h
        cases h
        rfl
      · intro h
        cases h
        rfl
  error {e failure} he h := by
    unfold Entry.action Action.parse at h
    rw [String.toList_ofList, he.2] at h
    cases hb : Action.ofText? e.value with
    | none =>
      rw [hb] at h
      cases h
      rfl
    | some b =>
      rw [hb] at h
      cases h

end TableFile

end Beatnik
