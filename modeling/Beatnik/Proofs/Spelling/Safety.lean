import Beatnik.Proofs.Spelling.Exact

/-!
# Spelling is safe

For every table with letters and every positive score, the arithmetic before the search stays within the
values (`SafeDivision`), the tables of the search hold the fewest letters of each total, and the way back
from the remainder meets only totals that have a spelling (`Search.SafeWalk`).  No index lies outside of
the tables, nothing is subtracted that is larger, and zero is reached after as many rounds as the remainder
takes letters (`spell_safe`).

The tables note place zero for the last letter of a total that has no spelling.  That the way back
never gets there is an invariant of its rounds: after `j` of `k` rounds the total takes `k - j` letters
(`Filled.exists_after`).
-/

namespace Beatnik.Spelling

open LetterScores

/-! ## Sums of step values -/

def stepValues (s : LetterScores) : Set Nat :=
  { v | v * step (letters s) ∈ letterValues s }

/-- How many numbers of a set, each any number of times, can add up to a total. -/
def sumLengths (vs : Set Nat) (total : Nat) : Set Nat :=
  { k | ∃ m : Multiset Nat, (∀ v ∈ m, v ∈ vs) ∧ m.sum = total ∧ m.card = k }

theorem mem_stepValues {s : LetterScores} {v : Nat} :
    v ∈ stepValues s ↔ ∃ l ∈ inSteps (letters s), l.points = v := by
  unfold stepValues
  rw [Set.mem_ofPred_eq, mem_letterValues]
  constructor
  · rintro ⟨l, hl, hpoints⟩
    have hstep := step_pos hl (mem_letters.1 hl).2.1
    refine ⟨scale (letters s) l, scale_mem hl, ?_⟩
    rw [← scale_points_mul hl] at hpoints
    exact Nat.eq_of_mul_eq_mul_right hstep hpoints
  · rintro ⟨l, hl, rfl⟩
    obtain ⟨k, hk, rfl⟩ := exists_of_mem_inSteps hl
    exact ⟨k, hk, (scale_points_mul hk).symm⟩

theorem exists_letters_of_stepValues {s : LetterScores} (vs : List Nat) (h : ∀ v ∈ vs, v ∈ stepValues s) :
    ∃ w, Spells (inSteps (letters s)) vs.sum w ∧ w.length = vs.length := by
  induction vs with
  | nil => exact ⟨[], ⟨by simp, rfl⟩, rfl⟩
  | cons v vs ih =>
    obtain ⟨l, hl, rfl⟩ := mem_stepValues.1 (h v List.mem_cons_self)
    obtain ⟨w, hw, hlen⟩ := ih fun u hu => h u (List.mem_cons_of_mem _ hu)
    refine ⟨l :: w, spells_cons.2 ⟨hl, ?_, ?_⟩, by rw [List.length_cons, List.length_cons, hlen]⟩
    · rw [List.sum_cons]
      omega
    · rwa [List.sum_cons, Nat.add_sub_cancel_left]

theorem mem_sumLengths {s : LetterScores} {total k : Nat} :
    k ∈ sumLengths (stepValues s) total ↔
      ∃ w, Spells (inSteps (letters s)) total w ∧ w.length = k := by
  constructor
  · rintro ⟨m, hm, rfl, rfl⟩
    induction m using Quotient.inductionOn with
    | _ vs => exact exists_letters_of_stepValues vs fun v hv => hm v (Multiset.mem_coe.2 hv)
  · rintro ⟨w, hw, rfl⟩
    refine ⟨(w.map Letter.points : List Nat), fun v hv => ?_, hw.worth_eq, by simp⟩
    obtain ⟨l, hl, rfl⟩ := List.mem_map.1 (Multiset.mem_coe.1 hv)
    exact mem_stepValues.2 ⟨l, hw.mem l hl, rfl⟩

/-- The right entry of a total says of how many step values it is a sum at least, if it is one. -/
theorem IsFewest.iff_sumLengths {s : LetterScores} {total : Nat} {o : Option Nat}
    (h : IsFewest (inSteps (letters s)) total o) :
    (∀ k, o = some k ↔ IsLeast (sumLengths (stepValues s) total) k) ∧
      (o = none ↔ sumLengths (stepValues s) total = ∅) := by
  cases h with
  | @shortest w hw hmin =>
    have hleast : IsLeast (sumLengths (stepValues s) total) w.length := by
      refine ⟨mem_sumLengths.2 ⟨w, hw, rfl⟩, fun k hk => ?_⟩
      obtain ⟨v, hv, rfl⟩ := mem_sumLengths.1 hk
      exact hmin v hv
    refine ⟨fun k => ⟨fun hk => Option.some.inj hk ▸ hleast, fun hk => ?_⟩, ?_⟩
    · rw [hleast.unique hk]
    · simp only [reduceCtorEq, false_iff]
      exact Set.nonempty_iff_ne_empty.1 ⟨_, hleast.1⟩
  | impossible hno =>
    have hempty : sumLengths (stepValues s) total = ∅ := by
      refine Set.eq_empty_of_forall_notMem fun k hk => ?_
      obtain ⟨w, hw, -⟩ := mem_sumLengths.1 hk
      exact hno w hw
    refine ⟨fun k => ⟨fun hk => ?_, fun hk => ?_⟩, fun _ => hempty, fun _ => rfl⟩
    · cases hk
    · exact absurd hk.1 (hempty ▸ Set.notMem_empty k)

/-! ## Rounds of the way back -/

namespace Search

/-- The total after some rounds of the way back. -/
def after (s : Search) (ls : List Letter) (total : Nat) : Nat → Option Nat
  | 0 => some total
  | rounds + 1 => (s.after ls total rounds).bind fun t => (s.back? ls t).map Prod.snd

/-- The way back from a total takes some rounds to zero.  Each of them starts at a total that has an
entry, and finds a letter in the tables that is not larger than the total. -/
structure SafeWalk (s : Search) (ls : List Letter) (total rounds : Nat) : Prop where
  round : ∀ j, j < rounds → ∃ t place l, s.after ls total j = some t ∧ 0 < t ∧ t ≤ total ∧
    s.fewest[t]? = some (some (rounds - j)) ∧ s.last[t]? = some place ∧ ls[place]? = some l ∧
    0 < l.points ∧ l.points ≤ t ∧ s.after ls total (j + 1) = some (t - l.points)
  done : s.after ls total rounds = some 0 ∧ s.fewest[0]? = some (some 0)

variable {ls : List Letter} {s : Search} {bound total k : Nat}

/-- After `j` rounds the total takes `j` letters less. -/
theorem Filled.exists_after (h : Filled ls bound bound s) (hbound : total ≤ bound)
    (hk : s.fewest[total]? = some (some k)) (j : Nat) (hj : j ≤ k) :
    ∃ t, s.after ls total j = some t ∧ t ≤ total ∧ s.fewest[t]? = some (some (k - j)) := by
  induction j with
  | zero => exact ⟨total, rfl, Nat.le_refl _, hk⟩
  | succ j ih =>
    obtain ⟨t, ht, hle, hentry⟩ := ih (by omega)
    rcases h.leadsBack (by omega) hentry with ⟨-, hzero⟩ | ⟨count, hcount, hleads⟩
    · omega
    · obtain ⟨l, -, -, hback, hrest⟩ := hleads.exists_back?
      refine ⟨t - l.points, ?_, by omega, ?_⟩
      · rw [after, ht, Option.bind_some, hback]
        rfl
      · rw [hrest, show k - (j + 1) = count by omega]

theorem Filled.safeWalk (h : Filled ls bound bound s) (hpos : ∀ l ∈ ls, 0 < l.points)
    (hbound : total ≤ bound) (hk : s.fewest[total]? = some (some k)) : SafeWalk s ls total k := by
  refine ⟨fun j hj => ?_, ?_⟩
  · obtain ⟨t, ht, hle, hentry⟩ := h.exists_after hbound hk j (by omega)
    rcases h.leadsBack (by omega) hentry with ⟨-, hzero⟩ | ⟨count, -, hleads⟩
    · omega
    · obtain ⟨place, l, hplace, hl, hfits, -⟩ := hleads
      have hlpos := hpos l (List.mem_of_getElem? hl)
      refine ⟨t, place, l, ht, by omega, hle, hentry, hplace, hl, hlpos, hfits, ?_⟩
      rw [after, ht, Option.bind_some, back?_eq_some.2 ⟨⟨place, hplace, hl⟩, hfits, rfl⟩]
      rfl
  · obtain ⟨t, ht, hle, hentry⟩ := h.exists_after hbound hk k (Nat.le_refl _)
    rw [Nat.sub_self] at hentry
    rcases h.leadsBack (by omega) hentry with ⟨rfl, -⟩ | ⟨count, hcount, -⟩
    · exact ⟨ht, hentry⟩
    · omega

end Search

/-! ## Safe spelling -/

/-- Nothing is lost when a total is divided: what is computed is what the integers give, and the square
of the unit, where it is no value, is replaced by the largest one. -/
structure SafeDivision (unit target : Value) : Prop where
  window_eq : (window unit).toInt = min (unit.toInt * unit.toInt) Value.greatest
  above_eq : window unit < target →
    (target - window unit).toInt = target.toInt - (window unit).toInt
  bulk_mul_eq : (bulk unit target * unit).toInt = (bulk unit target).toInt * unit.toInt
  remainder_eq : (remainder unit target).toInt =
    target.toInt - (bulk unit target).toInt * unit.toInt
  remainder_nonneg : 0 ≤ (remainder unit target).toInt

theorem safeDivision {unit target : Value} (hunit : 0 < unit.toInt) (htarget : 0 ≤ target.toInt) :
    SafeDivision unit target where
  window_eq := toInt_window hunit
  above_eq := toInt_sub_window hunit
  bulk_mul_eq := toInt_bulk_mul hunit htarget
  remainder_eq := toInt_remainder hunit htarget
  remainder_nonneg := toInt_remainder_nonneg hunit htarget

/-- The entries of a search in the letters of a table, up to its bound. -/
theorem fewest_run_iff (s : LetterScores) {n bound : Nat} (hn : n ≤ bound) :
    (∀ k, (Search.run (inSteps (letters s)) bound).fewest[n]? = some (some k) ↔
      IsLeast (sumLengths (stepValues s) n) k) ∧
    ((Search.run (inSteps (letters s)) bound).fewest[n]? = some none ↔
      sumLengths (stepValues s) n = ∅) := by
  obtain ⟨o, ho, hfewest, -⟩ := (Search.filled_run (inSteps_pos s) bound).settled n hn
  rw [ho]
  simpa only [Option.some_inj] using hfewest.iff_sumLengths

/-- After all checks a remainder with an entry is spelled, with as many letters besides the bulk. -/
theorem spell_of_fewest {s : LetterScores} {score : Value} {big : Letter} {many rest k : Nat}
    (houtcome : Outcome s big score many rest (s.spell score))
    (hdvd : step (letters s) ∣ score.toInt.toNat)
    (hlong : score.toInt.toNat / big.points ≤ maxLetters) (hwide : rest ≤ maxTotals)
    (hk : (Search.run (inSteps (letters s)) rest).fewest[rest]? = some (some k)) :
    ∃ w, s.spell score = .ok w ∧ w.length = many + k := by
  obtain ⟨w, -, hlen, hfind⟩ := find?_of_fewest (inSteps_pos s) rest
    (String.ofList (List.replicate many big.char)) hk
  generalize s.spell score = r at houtcome
  cases houtcome with
  | indivisible hno => exact absurd hdvd hno
  | tooLong hlt => omega
  | tooWide _ hlt => omega
  | missing _ hnone =>
    rw [hfind] at hnone
    cases hnone
  | found _ hsome =>
    rw [hfind] at hsome
    cases hsome
    refine ⟨_, rfl, ?_⟩
    simp [hlen]

/-- **Spelling is safe.**  The divisors are positive, nothing leaves the range of the values, the entries
of the search are the least numbers of letters, and the way back takes as many rounds as the entry of
the remainder says, all of them within the tables. -/
theorem spell_safe (s : LetterScores) (score : Value) (hpos : 0 < score) (big : Letter)
    (hbig : (letters s).head? = some big) :
    let divisor : Value := Int64.ofNat (step (letters s))
    let largest : Value := Int64.ofNat big.points
    let unit : Value := largest / divisor
    let target : Value := score / divisor
    let many := (bulk unit target).toInt.toNat
    let rest := (remainder unit target).toInt.toNat
    let found := Search.run (inSteps (letters s)) rest
    (0 < divisor ∧ IsGcd divisor.toInt.toNat (letterValues s)) ∧
    (0 < largest ∧ IsGreatest (letterValues s) largest.toInt.toNat) ∧
    (0 < unit ∧ SafeDivision unit target) ∧
    (found.fewest.size = rest + 1 ∧ found.last.size = rest + 1) ∧
    (∀ n, n ≤ rest →
      (∀ k, found.fewest[n]? = some (some k) ↔ IsLeast (sumLengths (stepValues s) n) k) ∧
      (found.fewest[n]? = some none ↔ sumLengths (stepValues s) n = ∅)) ∧
    (∀ k, found.fewest[rest]? = some (some k) →
      found.SafeWalk (inSteps (letters s)) rest k ∧
      (step (letters s) ∣ score.toInt.toNat → score.toInt.toNat / big.points ≤ maxLetters →
        rest ≤ maxTotals → ∃ w, s.spell score = .ok w ∧ w.length = many + k)) := by
  intro divisor largest unit target many rest found
  have hdivisor : divisor.toInt = step (letters s) := toInt_step hbig
  have hlargest : largest.toInt = big.points := toInt_points_head hbig
  have hunit : 0 < unit.toInt := toInt_unit_pos hbig
  have htarget : 0 ≤ target.toInt := by
    rw [toInt_target hbig hpos]
    exact Int.natCast_nonneg _
  have hstep := step_letters_pos hbig
  have hpoints := (mem_letters.1 (List.mem_of_head? hbig)).2.1
  have hfilled := Search.filled_run (inSteps_pos s) rest
  refine ⟨⟨?_, ?_⟩, ⟨?_, ?_⟩, ⟨?_, safeDivision hunit htarget⟩, ⟨hfilled.size_fewest, hfilled.size_last⟩,
    fun n hn => fewest_run_iff s hn, fun k hk => ⟨?_, fun hdvd hlong hwide => ?_⟩⟩
  · rw [Int64.lt_iff_toInt_lt, Int64.toInt_zero]
    omega
  · rw [hdivisor, Int.toNat_natCast]
    exact isGcd_letterValues s
  · rw [Int64.lt_iff_toInt_lt, Int64.toInt_zero]
    omega
  · rw [hlargest, Int.toNat_natCast]
    exact isGreatest_letterValues hbig
  · rwa [Int64.lt_iff_toInt_lt, Int64.toInt_zero]
  · exact hfilled.safeWalk (inSteps_pos s) (Nat.le_refl _) hk
  · exact spell_of_fewest (outcome_of_pos hpos hbig rfl rfl) hdvd hlong hwide hk

/-- The square of the largest number of points is no value.  A score of five is then all left to the
search, and takes five rounds. -/
theorem spell_safe_saturated :
    (window 4294967295).toInt = Value.greatest ∧ SafeDivision 4294967295 5 ∧
    IsLeast (sumLengths (stepValues (ofList [('a', 1), ('b', 4294967295)])) 5) 5 ∧
    (Search.run [⟨'b', 4294967295⟩, ⟨'a', 1⟩] 5).SafeWalk [⟨'b', 4294967295⟩, ⟨'a', 1⟩] 5 5 ∧
    ∃ w, (ofList [('a', 1), ('b', 4294967295)]).spell 5 = .ok w ∧ w.length = 5 := by
  have hletters : letters (ofList [('a', 1), ('b', 4294967295)]) = [⟨'b', 4294967295⟩, ⟨'a', 1⟩] := by
    cbv
  have hstep : step [⟨'b', 4294967295⟩, ⟨'a', 1⟩] = 1 := by decide
  have hsteps : inSteps [⟨'b', 4294967295⟩, ⟨'a', 1⟩] = [⟨'b', 4294967295⟩, ⟨'a', 1⟩] := by decide
  have hunit : Int64.ofNat 4294967295 / Int64.ofNat 1 = 4294967295 := by decide
  have htarget : (5 : Value) / Int64.ofNat 1 = 5 := by decide
  have hmany : (bulk 4294967295 5).toInt.toNat = 0 := by decide
  have hrest : (remainder 4294967295 5).toInt.toNat = 5 := by decide
  have hfewest : (Search.run [⟨'b', 4294967295⟩, ⟨'a', 1⟩] 5).fewest[5]? = some (some 5) := by
    decide +kernel
  have h := spell_safe (ofList [('a', 1), ('b', 4294967295)]) 5 (by decide) ⟨'b', 4294967295⟩
    (by rw [hletters]; rfl)
  simp only [hletters, hstep, hsteps, hunit, htarget, hmany, hrest] at h
  obtain ⟨-, -, ⟨-, hdivision⟩, -, hentries, hwalk⟩ := h
  obtain ⟨hsafe, hspell⟩ := hwalk 5 hfewest
  refine ⟨?_, hdivision, ((hentries 5 (by decide)).1 5).1 hfewest, hsafe, ?_⟩
  · rw [hdivision.window_eq]
    decide
  · exact hspell (by decide) (by decide) (by decide)

end Beatnik.Spelling
