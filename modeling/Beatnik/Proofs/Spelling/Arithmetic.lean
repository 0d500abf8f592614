import Beatnik.Proofs.Spelling.Letters

/-!
# The arithmetic of spelling

Spelling computes with values of 64 bits.  Divisors are positive, and nothing leaves the range of the
values: the square of the largest letter, which can be larger than any value, is cut off only where no
total exceeds it.

    (window unit).toInt = min (unit.toInt * unit.toInt) greatest                     (toInt_window)
    (bulk unit target * unit).toInt = (bulk unit target).toInt * unit.toInt        (toInt_bulk_mul)

So the largest letter in bulk and the remainder make up a total as they do for all integers (`Division`,
`division_toNat`), and what is checked before the search are facts about natural numbers (`Outcome`,
`outcome_of_pos`).
-/

namespace Beatnik

namespace Value

theorem toInt_nearest (n : Int) : (nearest n).toInt = max least (min n greatest) := by
  unfold nearest least greatest
  exact Int64.toInt_ofInt_of_le (by omega) (by omega)

theorem toInt_le (v : Value) : v.toInt ≤ greatest := by
  have := v.toInt_lt
  unfold greatest
  omega

theorem toInt_pos {v : Value} (h : 0 < v) : 0 < v.toInt := by
  have := Int64.lt_iff_toInt_lt.1 h
  rwa [Int64.toInt_zero] at this

variable {a b : Value}

theorem toInt_sub_of_le (hb : 0 ≤ b.toInt) (h : b.toInt ≤ a.toInt) :
    (a - b).toInt = a.toInt - b.toInt := by
  have := a.toInt_lt
  rw [Int64.toInt_sub, Int.bmod_eq_of_le (by omega) (by omega)]

theorem toInt_mul_of_le (h : 0 ≤ a.toInt * b.toInt) (hle : a.toInt * b.toInt ≤ greatest) :
    (a * b).toInt = a.toInt * b.toInt := by
  unfold greatest at hle
  rw [Int64.toInt_mul, Int.bmod_eq_of_le (by omega) (by omega)]

theorem toInt_div_of_pos (ha : 0 ≤ a.toInt) (hb : 0 < b.toInt) : (a / b).toInt = a.toInt / b.toInt := by
  have hne : b ≠ -1 := by
    rintro rfl
    exact absurd hb (by decide)
  rw [Int64.toInt_div_of_ne_right a b hne, Int.tdiv_eq_ediv_of_nonneg ha]

theorem toInt_mod_of_nonneg (ha : 0 ≤ a.toInt) : (a % b).toInt = a.toInt % b.toInt := by
  rw [Int64.toInt_mod, Int.tmod_eq_emod_of_nonneg ha]

end Value

namespace Spelling

/-! ## Bulk and remainder -/

section

variable {unit target : Value} (hunit : 0 < unit.toInt)

include hunit

/-- The window is the square of the unit, or the largest value if that is less. -/
theorem toInt_window : (window unit).toInt = min (unit.toInt * unit.toInt) Value.greatest := by
  have hsq := Int.mul_pos hunit hunit
  rw [window, Value.toInt_nearest]
  unfold Value.least Value.greatest
  omega

theorem toInt_sub_window (h : window unit < target) :
    (target - window unit).toInt = target.toInt - (window unit).toInt := by
  have hsq := Int.mul_pos hunit hunit
  have hwindow := toInt_window hunit
  have hlt := Int64.lt_iff_toInt_lt.1 h
  unfold Value.greatest at hwindow
  exact Value.toInt_sub_of_le (by omega) (by omega)

theorem toInt_bulk : (bulk unit target).toInt =
    if window unit < target then (target.toInt - (window unit).toInt) / unit.toInt else 0 := by
  rw [bulk]
  split
  · next h =>
    have hsub := toInt_sub_window hunit h
    have hlt := Int64.lt_iff_toInt_lt.1 h
    rw [Value.toInt_div_of_pos (by omega) hunit, hsub]
  · rfl

/-- The largest letter is used in bulk only for what exceeds the square of its points, and as often as it
fits. -/
theorem toInt_bulk_cases (target : Value) :
    (bulk unit target).toInt = 0 ∧ target.toInt ≤ unit.toInt * unit.toInt ∨
      0 ≤ (bulk unit target).toInt ∧
        (bulk unit target).toInt * unit.toInt ≤ target.toInt - unit.toInt * unit.toInt ∧
        target.toInt - unit.toInt * unit.toInt < (bulk unit target).toInt * unit.toInt + unit.toInt := by
  have hle := target.toInt_le
  have hwindow := toInt_window hunit
  rw [toInt_bulk hunit]
  split
  · next h =>
    have hlt := Int64.lt_iff_toInt_lt.1 h
    -- a target above the window shows that the square is not cut off
    have hsq : (window unit).toInt = unit.toInt * unit.toInt := by omega
    rw [hsq] at hlt ⊢
    have hfit := Int.ediv_mul_le (target.toInt - unit.toInt * unit.toInt) (Int.ne_of_gt hunit)
    have hmore := Int.lt_ediv_add_one_mul_self (target.toInt - unit.toInt * unit.toInt) hunit
    rw [Int.add_mul, Int.one_mul] at hmore
    exact .inr ⟨Int.ediv_nonneg (by omega) (by omega), hfit, hmore⟩
  · next h =>
    have hge : ¬ (window unit).toInt < target.toInt := fun hlt => h (Int64.lt_iff_toInt_lt.2 hlt)
    exact .inl ⟨rfl, by omega⟩

variable (htarget : 0 ≤ target.toInt)

include htarget

theorem toInt_bulk_bounds : 0 ≤ (bulk unit target).toInt ∧
    0 ≤ (bulk unit target).toInt * unit.toInt ∧ (bulk unit target).toInt * unit.toInt ≤ target.toInt := by
  have hsq := Int.mul_pos hunit hunit
  rcases toInt_bulk_cases hunit target with ⟨hz, -⟩ | ⟨hnonneg, hfit, -⟩
  · rw [hz]
    omega
  · exact ⟨hnonneg, Int.mul_nonneg hnonneg (by omega), by omega⟩

theorem toInt_bulk_mul : (bulk unit target * unit).toInt = (bulk unit target).toInt * unit.toInt := by
  obtain ⟨-, hnonneg, hle⟩ := toInt_bulk_bounds hunit htarget
  exact Value.toInt_mul_of_le hnonneg (Int.le_trans hle target.toInt_le)

theorem toInt_remainder :
    (remainder unit target).toInt = target.toInt - (bulk unit target).toInt * unit.toInt := by
  obtain ⟨-, hnonneg, hle⟩ := toInt_bulk_bounds hunit htarget
  have hmul := toInt_bulk_mul hunit htarget
  rw [remainder, Value.toInt_sub_of_le (by omega) (by omega), hmul]

theorem toInt_remainder_nonneg : 0 ≤ (remainder unit target).toInt := by
  obtain ⟨-, -, hle⟩ := toInt_bulk_bounds hunit htarget
  rw [toInt_remainder hunit htarget]
  omega

end

/-- A total is divided into the largest letter, `many` times, and a rest.  The square of the letter is
left to the rest, and less than one letter besides. -/
structure Division (unit target many rest : Nat) : Prop where
  add_eq : rest + many * unit = target
  few : many = 0 ∨ many * unit + unit * unit ≤ target
  rest_lt : rest < unit * unit + unit

/-- The computed bulk and remainder divide a total. -/
theorem division_toNat {unit target : Value} (hunit : 0 < unit.toInt) (htarget : 0 ≤ target.toInt) :
    Division unit.toInt.toNat target.toInt.toNat (bulk unit target).toInt.toNat
      (remainder unit target).toInt.toNat := by
  have hcases := toInt_bulk_cases hunit target
  have hbulk := (toInt_bulk_bounds hunit htarget).1
  have hrest := toInt_remainder hunit htarget
  have hrest' := toInt_remainder_nonneg hunit htarget
  generalize (remainder unit target).toInt = r at hrest hrest' ⊢
  generalize (bulk unit target).toInt = b at hcases hbulk hrest ⊢
  lift unit.toInt to Nat using Int.le_of_lt hunit with u
  lift target.toInt to Nat using htarget with t
  lift b to Nat using hbulk
  lift r to Nat using hrest'
  simp only [Int.toNat_natCast]
  rcases hcases with ⟨hz, hle⟩ | ⟨-, hfit, hmore⟩
  · obtain rfl : b = 0 := by omega
    simp only [Nat.cast_zero, Int.zero_mul] at hrest
    exact ⟨by omega, .inl rfl, by omega⟩
  · exact ⟨by omega, .inr (by omega), by omega⟩

/-! ## What is checked -/

section

variable {s : LetterScores} {big : Letter} (hbig : (letters s).head? = some big)

include hbig

theorem points_head_lt : big.points < 2 ^ 32 := by
  rw [(mem_letters.1 (List.mem_of_head? hbig)).2.2]
  exact UInt32.toNat_lt _

theorem toInt_points_head : (Int64.ofNat big.points).toInt = big.points := by
  have := points_head_lt hbig
  exact Int64.toInt_ofNat_of_lt (by omega)

theorem toInt_step : (Int64.ofNat (step (letters s))).toInt = step (letters s) := by
  have hmem := List.mem_of_head? hbig
  have hle := Nat.le_of_dvd (mem_letters.1 hmem).2.1 (step_dvd hmem)
  have := points_head_lt hbig
  exact Int64.toInt_ofNat_of_lt (by omega)

theorem toInt_unit :
    (Int64.ofNat big.points / Int64.ofNat (step (letters s))).toInt = (scale (letters s) big).points := by
  have hstep := step_letters_pos hbig
  have hpoints := toInt_points_head hbig
  have htoInt := toInt_step hbig
  rw [Value.toInt_div_of_pos (by omega) (by omega), hpoints, htoInt]
  rfl

theorem toInt_unit_pos : 0 < (Int64.ofNat big.points / Int64.ofNat (step (letters s))).toInt := by
  have := inSteps_pos s _ (scale_mem (List.mem_of_head? hbig))
  rw [toInt_unit hbig]
  omega

variable {score : Value} (hpos : 0 < score)

include hpos

theorem toInt_target : (score / Int64.ofNat (step (letters s))).toInt =
    (score.toInt.toNat / step (letters s) : Nat) := by
  have hscore := Value.toInt_pos hpos
  have hstep := step_letters_pos hbig
  have htoInt := toInt_step hbig
  rw [Value.toInt_div_of_pos (by omega) (by omega), htoInt, Int.natCast_ediv,
    Int.toNat_of_nonneg (by omega)]

theorem mod_step_eq_zero_iff :
    score % Int64.ofNat (step (letters s)) = 0 ↔ step (letters s) ∣ score.toInt.toNat := by
  have hscore := Value.toInt_pos hpos
  rw [← Int64.toInt_inj, Value.toInt_mod_of_nonneg (by omega), toInt_step hbig, Int64.toInt_zero,
    ← Int.dvd_iff_emod_eq_zero, ← Int.natCast_dvd_natCast, Int.toNat_of_nonneg (by omega)]

theorem bound_lt_div_iff :
    Int64.ofNat maxLetters < score / Int64.ofNat big.points ↔
      maxLetters < score.toInt.toNat / big.points := by
  have hscore := Value.toInt_pos hpos
  have hbigpos := (mem_letters.1 (List.mem_of_head? hbig)).2.1
  have hpoints := toInt_points_head hbig
  rw [Int64.lt_iff_toInt_lt, Value.toInt_div_of_pos (by omega) (by omega), hpoints,
    Int64.toInt_ofNat_of_lt (by decide), ← Int.ofNat_lt, Int.natCast_ediv,
    Int.toNat_of_nonneg (by omega)]

end

/-- What holds of a score when its search starts, with the largest letter `many` times and `rest` totals
to search. -/
structure Checked (s : LetterScores) (big : Letter) (n many rest : Nat) : Prop where
  dvd : step (letters s) ∣ n
  short : n / big.points ≤ maxLetters
  division : Division (scale (letters s) big).points (n / step (letters s)) many rest
  narrow : rest ≤ maxTotals

/-- The ways in which spelling a positive score ends. -/
inductive Outcome (s : LetterScores) (big : Letter) (score : Value) (many rest : Nat) :
    Except Fault String → Prop
  | indivisible : ¬ step (letters s) ∣ score.toInt.toNat →
      Outcome s big score many rest (.error (.unspellable score))
  | tooLong : maxLetters < score.toInt.toNat / big.points →
      Outcome s big score many rest (.error (.wordTooLong score))
  | tooWide : Division (scale (letters s) big).points (score.toInt.toNat / step (letters s)) many rest →
      maxTotals < rest → Outcome s big score many rest (.error (.searchTooLong score big.points rest))
  | found {w : String} : Checked s big score.toInt.toNat many rest →
      find? (inSteps (letters s)) rest (String.ofList (List.replicate many big.char)) = some w →
      Outcome s big score many rest (.ok w)
  | missing : Checked s big score.toInt.toNat many rest →
      find? (inSteps (letters s)) rest (String.ofList (List.replicate many big.char)) = none →
      Outcome s big score many rest (.error (.unspellable score))

section

variable {s : LetterScores} {score : Value} (hpos : 0 < score)

include hpos

theorem ne_zero_and_not_neg : score ≠ 0 ∧ ¬ score < 0 := by
  have hscore := Value.toInt_pos hpos
  refine ⟨fun hz => by simp [hz] at hscore, fun hneg => ?_⟩
  have := Int64.lt_iff_toInt_lt.1 hneg
  rw [Int64.toInt_zero] at this
  omega

theorem spell_of_head?_eq_none (h : (letters s).head? = none) :
    s.spell score = .error (.unspellable score) := by
  obtain ⟨hne, hge⟩ := ne_zero_and_not_neg hpos
  rw [LetterScores.spell, LetterScores.spellWith, if_neg hne, if_neg hge, h]
  rfl

/-- Spelling a positive score ends in one of the ways, with the computed bulk and remainder. -/
theorem outcome_of_pos {big : Letter} (hbig : (letters s).head? = some big) {unit target : Value}
    (hunit : unit = Int64.ofNat big.points / Int64.ofNat (step (letters s)))
    (htarget : target = score / Int64.ofNat (step (letters s))) :
    Outcome s big score (bulk unit target).toInt.toNat (remainder unit target).toInt.toNat
      (s.spell score) := by
  obtain ⟨hne, hge⟩ := ne_zero_and_not_neg hpos
  have hunitInt := toInt_unit hbig
  have htargetInt := toInt_target hbig hpos
  have hunitPos := toInt_unit_pos hbig
  rw [← hunit] at hunitInt hunitPos
  rw [← htarget] at htargetInt
  have htargetNonneg : 0 ≤ target.toInt := htargetInt ▸ Int.natCast_nonneg _
  have hrest := toInt_remainder_nonneg hunitPos htargetNonneg
  have hdivision := division_toNat hunitPos htargetNonneg
  rw [hunitInt, htargetInt, Int.toNat_natCast, Int.toNat_natCast] at hdivision
  rw [LetterScores.spell, LetterScores.spellWith, if_neg hne, if_neg hge, hbig]
  dsimp only
  rw [← hunit, ← htarget]
  split
  · next hmod => exact .indivisible fun hdvd => hmod ((mod_step_eq_zero_iff hbig hpos).2 hdvd)
  next hmod =>
  have hdvd := (mod_step_eq_zero_iff hbig hpos).1 (Classical.not_not.1 hmod)
  split
  · next hlong => exact .tooLong ((bound_lt_div_iff hbig hpos).1 hlong)
  next hlong =>
  have hshort := Nat.not_lt.1 fun hlt => hlong ((bound_lt_div_iff hbig hpos).2 hlt)
  have hbound : Int64.ofNat maxTotals < remainder unit target ↔
      maxTotals < (remainder unit target).toInt.toNat := by
    rw [Int64.lt_iff_toInt_lt, Int64.toInt_ofNat_of_lt (by decide)]
    omega
  split
  · next hwide => exact .tooWide hdivision (hbound.1 hwide)
  next hwide =>
  have hchecked : Checked s big score.toInt.toNat _ _ :=
    ⟨hdvd, hshort, hdivision, Nat.not_lt.1 fun hlt => hwide (hbound.2 hlt)⟩
  split
  · next hfind => exact .found hchecked hfind
  · next hfind => exact .missing hchecked hfind

end

end Spelling

end Beatnik
