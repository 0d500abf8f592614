import Beatnik.Proofs.Spelling.Exact

/-!
# How long spelled words are

The bound on the letters of a word is checked before the word is found, by how often the largest letter
fits into the score.  A shortest word has no more largest letters than that, but can have others, fewer
than the largest letter has steps (`le_of_fewest`):

    fewest ≤ score / largest + (largest / g - 1)

So words are found that are longer than the bound, by at most 1022 letters (`spell_length_bound`).
-/

namespace Beatnik.Spelling

open LetterScores

/-! ## Fewest letters -/

/-- How many letters words can have that are worth a number of points. -/
def wordLengths (s : LetterScores) (n : Nat) : Set Nat :=
  { k | ∃ m : Multiset Char, (∀ c ∈ m, c.isAlpha = true) ∧
    (m.map fun c => (s.points c).toNat).sum = n ∧ m.card = k }

theorem mem_wordLengths {s : LetterScores} {n k : Nat} :
    k ∈ wordLengths s n ↔ ∃ cs, s.Writes n cs ∧ cs.length = k := by
  constructor
  · rintro ⟨m, hm, hsum, hcard⟩
    induction m using Quotient.inductionOn with
    | _ cs =>
      refine ⟨cs, ⟨fun c hc => hm c (Multiset.mem_coe.2 hc), ?_⟩, by simpa using hcard⟩
      simpa [LetterScores.worth] using hsum
  · rintro ⟨cs, ⟨halpha, hworth⟩, hlen⟩
    refine ⟨(cs : Multiset Char), fun c hc => halpha c (Multiset.mem_coe.1 hc), ?_, by simpa using hlen⟩
    simpa [LetterScores.worth] using hworth

section

variable {s : LetterScores} {score : Value} {n fewest target unit : Nat} {big : Letter}
  (hbig : (letters s).head? = some big) (hunit : (scale (letters s) big).points = unit)
  (hfewest : IsLeast (wordLengths s n) fewest) (htarget : target * step (letters s) = n)

include hbig hunit htarget in
theorem target_div_unit : target / unit = n / big.points := by
  have hmul := scale_points_mul (List.mem_of_head? hbig)
  rw [← htarget, ← hmul, hunit, Nat.mul_div_mul_right _ _ (step_letters_pos hbig)]

include hfewest htarget in
theorem fewest_le {w : List Letter} (h : Spells (inSteps (letters s)) target w) :
    fewest ≤ w.length := by
  have hwrites := (writes_of_spells h).1
  rw [htarget] at hwrites
  refine hfewest.2 (mem_wordLengths.2 ⟨_, hwrites, List.length_map _⟩)

include hbig hunit hfewest htarget

/-- The letters of a shortest word that are not the largest are fewer than that has steps. -/
theorem le_of_fewest : fewest ≤ n / big.points + (unit - 1) := by
  have hmem := scale_mem (List.mem_of_head? hbig)
  have hpos := inSteps_pos s _ hmem
  obtain ⟨cs, hcs, -⟩ := mem_wordLengths.1 hfewest.1
  obtain ⟨w, hw, -⟩ := exists_spells_of_writes (step_letters_pos hbig) (htarget ▸ hcs)
  obtain ⟨v, hv, -, hfew⟩ := exists_few_smaller hmem hpos w hw
  have hperm := smaller_append_larger (scale (letters s) big) v
  have hlarge : (larger (scale (letters s) big) v).length * unit ≤ target := by
    rw [← hunit, ← worth_eq_mul fun l hl => ?_, ← hv.worth_eq, ← worth_perm hperm, worth_append]
    · exact Nat.le_add_left _ _
    · obtain ⟨hl, hge⟩ := mem_larger.1 hl
      exact Nat.le_antisymm (inSteps_le hbig l (hv.mem l hl)) hge
  have hdiv : (larger (scale (letters s) big) v).length ≤ n / big.points := by
    rw [← target_div_unit hbig hunit htarget, Nat.le_div_iff_mul_le (hunit ▸ hpos)]
    exact hlarge
  have hlen := hperm.length_eq
  rw [List.length_append] at hlen
  have := fewest_le hfewest htarget hv
  omega

/-- A score that the largest letter divides is spelled with that letter alone. -/
theorem fewest_of_dvd (h : unit ∣ target) : fewest ≤ n / big.points := by
  obtain ⟨k, rfl⟩ := h
  have hmem := scale_mem (List.mem_of_head? hbig)
  have hpos : 0 < unit := hunit ▸ inSteps_pos s _ hmem
  have hspells : Spells (inSteps (letters s)) (unit * k) (List.replicate k (scale (letters s) big)) := by
    refine ⟨fun l hl => ?_, by rw [worth_replicate, hunit, Nat.mul_comm]⟩
    rw [List.eq_of_mem_replicate hl]
    exact hmem
  have := fewest_le hfewest htarget hspells
  rwa [List.length_replicate, ← Nat.mul_div_cancel_left k hpos,
    target_div_unit hbig hunit htarget] at this

/-- A search that is not too wide, for a score whose words are all too long, is one with a largest
letter of few steps. -/
theorem unit_le_of_rest_le {many rest : Nat} (hdivision : Division unit target many rest)
    (hlong : n / big.points ≤ maxLetters) (hmany : maxLetters < fewest)
    (hwide : rest ≤ maxTotals) : unit ≤ 1023 := by
  by_contra hunit'
  have hrest := hdivision.add_eq
  unfold maxLetters at hmany hlong
  unfold maxTotals at hwide
  rcases hdivision.few with hz | hle
  · -- the whole score is searched, and has at least one step for each letter
    obtain ⟨cs, hcs, -⟩ := mem_wordLengths.1 hfewest.1
    obtain ⟨w, hw, -⟩ := exists_spells_of_writes (step_letters_pos hbig) (htarget ▸ hcs)
    have hshort := length_le_worth fun l hl => inSteps_pos s l (hw.mem l hl)
    have := fewest_le hfewest htarget hw
    rw [hw.worth_eq] at hshort
    rw [hz] at hrest
    omega
  · -- the square of the steps is the bound itself, and nothing is left besides it
    have hsq : 1024 * unit ≤ unit * unit := Nat.mul_le_mul_right _ (by omega)
    have hu : unit = 1024 := by omega
    have hdvd : unit ∣ target := by
      refine ⟨many + 1024, ?_⟩
      rw [hu] at hle hrest ⊢
      omega
    have := fewest_of_dvd hbig hunit hfewest htarget hdvd
    omega

end

/-- A word is found only after all checks. -/
theorem checked_of_spell_ok {s : LetterScores} {score : Value} {w : String} (hpos : 0 < score)
    (h : s.spell score = .ok w) :
    ∃ big many rest, (letters s).head? = some big ∧ Checked s big score.toInt.toNat many rest := by
  cases hbig : (letters s).head? with
  | none =>
    rw [spell_of_head?_eq_none hpos hbig] at h
    cases h
  | some big =>
    have houtcome := outcome_of_pos hpos hbig rfl rfl
    rw [h] at houtcome
    cases houtcome with
    | found hchecked _ => exact ⟨big, _, _, rfl, hchecked⟩

theorem length_of_spell_ok {s : LetterScores} {score : Value} {w : String} (hpos : 0 < score)
    (h : s.spell score = .ok w) : IsLeast (wordLengths s score.toInt.toNat) w.length := by
  have hspelled := spelled_of_pos s hpos
  rw [h] at hspelled
  cases hspelled with
  | @word cs hcs _ hmin _ =>
    rw [String.length_ofList]
    refine ⟨mem_wordLengths.2 ⟨cs, hcs, rfl⟩, fun k hk => ?_⟩
    obtain ⟨ds, hds, rfl⟩ := mem_wordLengths.1 hk
    exact hmin ds hds

/-! ## Words that are too long -/

/-- A score whose words all have more letters than the bound allows, though the largest letter fits
often enough into it and has few enough steps. -/
def SlipsThrough (s : LetterScores) (score : Value) : Prop :=
  0 < score ∧ ∃ largest g fewest, IsGreatest (letterValues s) largest ∧ IsGcd g (letterValues s) ∧
    IsLeast (wordLengths s score.toInt.toNat) fewest ∧ 2 ^ 20 < fewest ∧
    score.toInt.toNat / largest ≤ 2 ^ 20 ∧ largest / g ≤ 1023

theorem slipsThrough_of_spell_ok {s : LetterScores} {score : Value} {w : String} (hpos : 0 < score)
    (h : s.spell score = .ok w) (hlen : 2 ^ 20 < w.length) : SlipsThrough s score := by
  obtain ⟨big, many, rest, hbig, hchecked⟩ := checked_of_spell_ok hpos h
  have hfewest := length_of_spell_ok hpos h
  refine ⟨hpos, big.points, step (letters s), w.length, isGreatest_letterValues hbig,
    isGcd_letterValues s, hfewest, hlen, hchecked.short, ?_⟩
  exact unit_le_of_rest_le hbig rfl hfewest (Nat.div_mul_cancel hchecked.dvd) hchecked.division
    hchecked.short hlen hchecked.narrow

theorem SlipsThrough.exists_word {s : LetterScores} {score : Value} (h : SlipsThrough s score) :
    ∃ w, s.spell score = .ok w ∧ 2 ^ 20 < w.length := by
  obtain ⟨hpos, largest, g, fewest, hlargest, hg, hfewest, hmany, hlong, hwide⟩ := h
  obtain ⟨cs, hcs, -⟩ := mem_wordLengths.1 hfewest.1
  obtain ⟨w, hw⟩ := (spell_ok_iff hpos hlargest hg hlong hwide).2 (spellable_iff.2 ⟨cs, hcs⟩)
  refine ⟨w, hw, ?_⟩
  rwa [(length_of_spell_ok hpos hw).unique hfewest]

theorem le_mul_of_mem_wordLengths {s : LetterScores} {n k largest : Nat}
    (hlargest : IsGreatest (letterValues s) largest) (hk : k ∈ wordLengths s n) : n ≤ k * largest := by
  obtain ⟨m, hm, rfl, rfl⟩ := hk
  rw [← Multiset.card_map (fun c => (s.points c).toNat) m]
  refine Multiset.sum_le_card_nsmul _ _ fun p hp => ?_
  obtain ⟨c, hc, rfl⟩ := Multiset.mem_map.1 hp
  rcases Nat.eq_zero_or_pos (s.points c).toNat with hz | hpos
  · rw [hz]
    exact Nat.zero_le _
  · exact hlargest.2 ⟨hpos, c, hm c hc, rfl⟩

/-- The check rounds down: a score into which the largest letter fits just often enough, with something
left over, needs at least one letter more. -/
theorem slipsThrough_of_div {s : LetterScores} {score : Value} {largest g : Nat} (hpos : 0 < score)
    (hlargest : IsGreatest (letterValues s) largest) (hg : IsGcd g (letterValues s))
    (hspellable : Spellable s score.toInt.toNat) (hdiv : score.toInt.toNat / largest = 2 ^ 20)
    (hmod : score.toInt.toNat % largest ≠ 0) (hwide : largest / g ≤ 1023) : SlipsThrough s score := by
  obtain ⟨cs, hcs⟩ := spellable_iff.1 hspellable
  have hlengths : (wordLengths s score.toInt.toNat).Nonempty := ⟨_, mem_wordLengths.2 ⟨cs, hcs, rfl⟩⟩
  have hfewest := isLeast_csInf hlengths
  refine ⟨hpos, largest, g, _, hlargest, hg, hfewest, ?_, hdiv.le, hwide⟩
  have hle := le_mul_of_mem_wordLengths hlargest hfewest.1
  have hsplit := Nat.div_add_mod score.toInt.toNat largest
  rw [hdiv, Nat.mul_comm] at hsplit
  exact Nat.lt_of_mul_lt_mul_right (a := largest) (by omega)

/-- What slips through exceeds the bound by less than the largest letter has steps. -/
theorem SlipsThrough.fewest_le {s : LetterScores} {score : Value} (h : SlipsThrough s score)
    {fewest : Nat} (hfewest : IsLeast (wordLengths s score.toInt.toNat) fewest) :
    fewest ≤ 2 ^ 20 + 1022 := by
  obtain ⟨w, hw, -⟩ := h.exists_word
  obtain ⟨big, many, rest, hbig, hchecked⟩ := checked_of_spell_ok h.1 hw
  obtain ⟨-, largest, g, -, hlargest, hg, -, -, -, hwide⟩ := h
  rw [eq_of_isGreatest hlargest hbig, eq_step_of_isGcd hg] at hwide
  have hle := le_of_fewest hbig rfl hfewest (Nat.div_mul_cancel hchecked.dvd)
  have hunit : (scale (letters s) big).points ≤ 1023 := hwide
  have hlong := hchecked.short
  unfold maxLetters at hlong
  omega

theorem spell_of_nonpos {s : LetterScores} {score : Value} {w : String} (hpos : ¬ 0 < score)
    (h : s.spell score = .ok w) : w = zeroWord := by
  by_cases hz : score = 0
  · subst hz
    exact (spell_zero_ok h).1
  by_cases hneg : score < 0
  · rw [spell_neg hneg] at h
    cases h
  · exact absurd (pos_of_ne_zero hz hneg) hpos

/-- **Words are longer than the bound exactly if they slip through the checks.**  A spelled word has
at most 2 ^ 20 letters unless all words of the score have more, the largest letter fits into the score
at most 2 ^ 20 times, and is worth at most 1023 times the greatest common divisor.  The word is then
longer by at most 1022 letters.  In all other cases a score with longer words only is refused. -/
theorem spell_length_bound (es : List (Char × UInt32)) (score : Value) :
    ((∀ w, (ofList es).spell score = .ok w → w.length ≤ 2 ^ 20) ↔ ¬ SlipsThrough (ofList es) score) ∧
    (∀ w, (ofList es).spell score = .ok w → w.length ≤ 2 ^ 20 + 1022) ∧
    (¬ SlipsThrough (ofList es) score → ∀ fewest, 0 < score →
      IsLeast (wordLengths (ofList es) score.toInt.toNat) fewest → 2 ^ 20 < fewest →
      ∃ fault, (ofList es).spell score = .error fault ∧ fault.kind = .unspellable) := by
  have hlong : ∀ w, (ofList es).spell score = .ok w → 2 ^ 20 < w.length →
      SlipsThrough (ofList es) score := by
    intro w hw hlen
    by_cases hpos : 0 < score
    · exact slipsThrough_of_spell_ok hpos hw hlen
    · rw [spell_of_nonpos hpos hw] at hlen
      exact absurd hlen (by decide)
  refine ⟨⟨fun h hslips => ?_, fun hno w hw => ?_⟩, fun w hw => ?_, fun hno fewest hpos hfewest hmany => ?_⟩
  · obtain ⟨w, hw, hlen⟩ := hslips.exists_word
    have := h w hw
    omega
  · by_contra hlen
    exact hno (hlong w hw (Nat.not_le.1 hlen))
  · rcases Nat.lt_or_ge (2 ^ 20) w.length with hlen | hle
    · have hslips := hlong w hw hlen
      exact hslips.fewest_le (length_of_spell_ok hslips.1 hw)
    · omega
  · cases hspell : (ofList es).spell score with
    | error fault => exact ⟨fault, rfl, kind_of_spell_error hspell⟩
    | ok w =>
      have hlen := (length_of_spell_ok hpos hspell).unique hfewest
      exact absurd (hlong w hspell (hlen ▸ hmany)) hno

/-- The default table and a score into which `q` and `z`, worth ten points each, fit 2 ^ 20 times with
one point left: the word that is found is longer than the bound. -/
theorem spell_scrabble_too_long : ∃ w, scrabble.spell 10485761 = .ok w ∧ 2 ^ 20 < w.length := by
  have hbig : (letters scrabble).head? = some ⟨'q', 10⟩ := by cbv
  have hspellable : Spellable scrabble 10485761 := by
    refine ⟨Multiset.replicate (2 ^ 20) 'q' + {'a'}, fun c hc => ?_, ?_⟩
    · rcases Multiset.mem_add.1 hc with hq | ha
      · rw [Multiset.eq_of_mem_replicate hq]
        rfl
      · rw [Multiset.mem_singleton.1 ha]
        rfl
    · have hq : (scrabble.points 'q').toNat = 10 := by decide +kernel
      have ha : (scrabble.points 'a').toNat = 1 := by decide +kernel
      rw [Multiset.map_add, Multiset.map_replicate, Multiset.sum_add, Multiset.sum_replicate,
        Multiset.map_singleton, Multiset.sum_singleton, hq, ha]
      rfl
  refine SlipsThrough.exists_word (slipsThrough_of_div (by decide) (isGreatest_letterValues hbig)
    (isGcd_letterValues scrabble) hspellable ?_ ?_ ?_)
  · decide
  · decide
  · exact Nat.le_trans (Nat.div_le_self _ _) (by decide)

end Beatnik.Spelling
