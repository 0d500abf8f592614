import Beatnik.Proofs.Scanning
import Beatnik.Proofs.Spelling.Words

/-!
# Spelling is exact and shortest

For every table made by insertions (`LetterScores.ofList`):

* a spelled word is one word, and has the wanted score; a score that some letters add up to has a word
  unless one of the two bounds on the search is exceeded; and a score is said to have no word only if
  no letters add up to it (`spell_exact`);
* no word of ASCII letters, in any letter case, has the same score and fewer letters (`spell_shortest`).
-/

namespace Beatnik.Spelling

open LetterScores

/-! ## Letters that add up to a score -/

/-- Some ASCII letters, any of them any number of times, are worth a number of points together. -/
def Spellable (s : LetterScores) (n : Nat) : Prop :=
  ∃ m : Multiset Char, (∀ c ∈ m, c.isAlpha = true) ∧ (m.map fun c => (s.points c).toNat).sum = n

/-- The points of the ASCII letters that have any. -/
def letterValues (s : LetterScores) : Set Nat :=
  { p | 0 < p ∧ ∃ c : Char, c.isAlpha = true ∧ (s.points c).toNat = p }

structure IsGcd (g : Nat) (ps : Set Nat) : Prop where
  dvd : ∀ p ∈ ps, g ∣ p
  greatest : ∀ d, (∀ p ∈ ps, d ∣ p) → d ∣ g

theorem spellable_iff {s : LetterScores} {n : Nat} : Spellable s n ↔ ∃ cs, s.Writes n cs := by
  constructor
  · rintro ⟨m, hm, hsum⟩
    induction m using Quotient.inductionOn with
    | _ cs => exact ⟨cs, fun c hc => hm c (Multiset.mem_coe.2 hc), by
      simpa [LetterScores.worth] using hsum⟩
  · rintro ⟨cs, halpha, hworth⟩
    exact ⟨(cs : Multiset Char), fun c hc => halpha c (Multiset.mem_coe.1 hc), by
      simpa [LetterScores.worth] using hworth⟩

theorem mem_letterValues {s : LetterScores} {p : Nat} :
    p ∈ letterValues s ↔ ∃ l ∈ letters s, l.points = p := by
  constructor
  · rintro ⟨hpos, c, hc, rfl⟩
    exact ⟨⟨c, _⟩, mem_letters.2 ⟨hc, hpos, rfl⟩, rfl⟩
  · rintro ⟨l, hl, rfl⟩
    obtain ⟨hc, hpos, hpoints⟩ := mem_letters.1 hl
    exact ⟨hpos, l.char, hc, hpoints.symm⟩

theorem isGreatest_letterValues {s : LetterScores} {big : Letter} (hbig : (letters s).head? = some big) :
    IsGreatest (letterValues s) big.points := by
  refine ⟨mem_letterValues.2 ⟨big, List.mem_of_head? hbig, rfl⟩, fun p hp => ?_⟩
  obtain ⟨l, hl, rfl⟩ := mem_letterValues.1 hp
  exact points_le_head hbig hl

theorem isGcd_letterValues (s : LetterScores) : IsGcd (step (letters s)) (letterValues s) := by
  refine ⟨fun p hp => ?_, fun d hd => dvd_step fun l hl => hd _ (mem_letterValues.2 ⟨l, hl, rfl⟩)⟩
  obtain ⟨l, hl, rfl⟩ := mem_letterValues.1 hp
  exact step_dvd hl

theorem eq_of_isGreatest {s : LetterScores} {big : Letter} {largest : Nat}
    (h : IsGreatest (letterValues s) largest) (hbig : (letters s).head? = some big) :
    largest = big.points :=
  h.unique (isGreatest_letterValues hbig)

theorem eq_step_of_isGcd {s : LetterScores} {g : Nat} (h : IsGcd g (letterValues s)) :
    g = step (letters s) :=
  Nat.dvd_antisymm ((isGcd_letterValues s).greatest g h.dvd) (h.greatest _ (isGcd_letterValues s).dvd)

/-! ## Exact scores -/

theorem spell_zero_ok {s : LetterScores} {w : String} (h : s.spell 0 = .ok w) :
    w = zeroWord ∧ s.score w = 0 := by
  rw [LetterScores.spell, LetterScores.spellWith, if_pos rfl] at h
  split at h
  · next hz =>
    cases h
    exact ⟨rfl, hz⟩
  · cases h

theorem spell_neg {s : LetterScores} {score : Value} (h : score < 0) :
    s.spell score = .error (.unspellable score) := by
  have hne : score ≠ 0 := fun hz => by simp [hz] at h
  rw [LetterScores.spell, LetterScores.spellWith, if_neg hne, if_pos h]
  rfl

theorem pos_of_ne_zero {v : Value} (hz : v ≠ 0) (hneg : ¬ v < 0) : 0 < v := by
  rw [Int64.lt_iff_toInt_lt] at hneg ⊢
  rw [Ne, ← Int64.toInt_inj, Int64.toInt_zero] at hz
  rw [Int64.toInt_zero] at hneg ⊢
  omega

/-- Spelling fails with one kind of fault only. -/
theorem kind_of_spell_error {s : LetterScores} {score : Value} {fault : Fault}
    (h : s.spell score = .error fault) : fault.kind = .unspellable := by
  by_cases hz : score = 0
  · rw [hz, LetterScores.spell, LetterScores.spellWith, if_pos rfl] at h
    split at h
    · cases h
    · cases h
      rfl
  by_cases hneg : score < 0
  · rw [spell_neg hneg] at h
    cases h
    rfl
  have hspelled := spelled_of_pos s (pos_of_ne_zero hz hneg)
  rw [h] at hspelled
  cases hspelled <;> rfl

theorem score_eq_of_total {s : LetterScores} {w : String} {score : Value} (hpos : 0 < score)
    (h : s.total w = score.toInt.toNat) : s.score w = score := by
  have := Int64.lt_iff_toInt_lt.1 hpos
  rw [Int64.toInt_zero] at this
  rw [LetterScores.score, h, ← Int64.toInt_inj, Int64.toInt_ofNat_of_lt]
  · omega
  · have := score.toInt_lt
    omega

theorem isToken_of_isAlpha {cs : List Char} (hne : cs ≠ []) (h : ∀ c ∈ cs, c.isAlpha = true) :
    Word.IsToken (String.ofList cs) := by
  refine ⟨by simpa using hne, fun c hc => ?_⟩
  rw [String.toList_ofList] at hc
  simp [Word.isWordChar, Char.isAlphanum, h c hc]

theorem ne_nil_of_writes {s : LetterScores} {n : Nat} {cs : List Char} (h : s.Writes n cs)
    (hn : 0 < n) : cs ≠ [] := by
  rintro rfl
  have := h.worth_eq
  simp [LetterScores.worth] at this
  omega

/-- A spelled word has the wanted score and is one word, of letters unless the score is zero. -/
theorem score_of_spell_ok {s : LetterScores} (hs : s.Lowered) {score : Value} {w : String}
    (h : s.spell score = .ok w) :
    s.score w = score ∧ Word.IsToken w ∧
      (if score = 0 then w = zeroWord else w ≠ "" ∧ ∀ c ∈ w.toList, c.isAlpha = true) := by
  by_cases hz : score = 0
  · subst hz
    obtain ⟨rfl, hscore⟩ := spell_zero_ok h
    exact ⟨hscore, by decide, by simp⟩
  by_cases hneg : score < 0
  · rw [spell_neg hneg] at h
    cases h
  have hpos := pos_of_ne_zero hz hneg
  have hspelled := spelled_of_pos s hpos
  rw [h] at hspelled
  cases hspelled with
  | @word cs hcs hne _ _ =>
    have hnil := ne_nil_of_writes hcs (toNat_toInt_pos hpos)
    have htotal : s.total (String.ofList cs) = score.toInt.toNat := by
      rw [total_of_worthy hs fun c hc => ⟨hcs.isAlpha c hc, hne c hc⟩, hcs.worth_eq]
    refine ⟨score_eq_of_total hpos htotal, isToken_of_isAlpha hnil hcs.isAlpha, ?_⟩
    rw [if_neg hz]
    exact ⟨by simpa using hnil, by simpa using hcs.isAlpha⟩

/-- Between the bounds a score is spelled exactly if some letters add up to it. -/
theorem spell_ok_iff {s : LetterScores} {score : Value} (hpos : 0 < score) {largest g : Nat}
    (hlargest : IsGreatest (letterValues s) largest) (hg : IsGcd g (letterValues s))
    (hlong : score.toInt.toNat / largest ≤ maxLetters) (hwide : largest / g ≤ 1023) :
    (∃ w, s.spell score = .ok w) ↔ Spellable s score.toInt.toNat := by
  rw [spellable_iff]
  have hspelled := spelled_of_pos s hpos
  generalize s.spell score = r at hspelled
  cases hspelled with
  | word hcs _ _ _ => exact ⟨fun _ => ⟨_, hcs⟩, fun _ => ⟨_, rfl⟩⟩
  | impossible hno =>
    constructor
    · rintro ⟨w, hw⟩
      cases hw
    · rintro ⟨cs, hcs⟩
      exact absurd hcs (hno cs)
  | tooLong hbig hlt =>
    rw [eq_of_isGreatest hlargest hbig] at hlong
    omega
  | @tooWide big many rest hbig hdivision hlt =>
    exfalso
    -- the rest is less than `unit * unit + unit`, with at most 1023 for `unit`
    have hunit : (scale (letters s) big).points ≤ 1023 := by
      rw [eq_of_isGreatest hlargest hbig, eq_step_of_isGcd hg] at hwide
      exact hwide
    have hrest := hdivision.rest_lt
    have hsq : (scale (letters s) big).points * (scale (letters s) big).points ≤ 1023 * 1023 :=
      Nat.mul_le_mul hunit hunit
    unfold maxTotals at hlt
    omega

/-- Spelling is exact: a word that is found has the score, within the bounds one is found if there is
one, and a score is said to have no word only if no letters add up to it. -/
theorem spell_exact (es : List (Char × UInt32)) (score : Value) :
    (∀ w, (ofList es).spell score = .ok w →
      (ofList es).score w = score ∧
      (∀ path, Word.scan path w = [⟨.start path, w⟩]) ∧
      (if score = 0 then w = "_" else w ≠ "" ∧ ∀ c ∈ w.toList, c.isAlpha = true)) ∧
    (0 < score → ∀ largest g, IsGreatest (letterValues (ofList es)) largest →
      IsGcd g (letterValues (ofList es)) → score.toInt.toNat / largest ≤ 2 ^ 20 →
      largest / g ≤ 1023 →
      ((∃ w, (ofList es).spell score = .ok w) ↔ Spellable (ofList es) score.toInt.toNat)) ∧
    (0 < score → (ofList es).spell score = .error (.unspellable score) →
      ¬ Spellable (ofList es) score.toInt.toNat) := by
  refine ⟨fun w hw => ?_, fun hpos largest g hlargest hg hlong hwide => ?_, fun hpos herr => ?_⟩
  · obtain ⟨hscore, htoken, hform⟩ := score_of_spell_ok (lowered_ofList es) hw
    exact ⟨hscore, Word.scan_of_isToken htoken, hform⟩
  · exact spell_ok_iff hpos hlargest hg hlong hwide
  · rw [spellable_iff]
    rintro ⟨cs, hcs⟩
    have hspelled := spelled_of_pos (ofList es) hpos
    rw [herr] at hspelled
    cases hspelled with
    | impossible hno => exact hno cs hcs

/-- With two points for `a` and three for `b`, twenty points are spelled with three letters in bulk, the
largest letter being worth three and the common divisor being one; with four points for `b`, 21 points
have no word. -/
theorem spell_exact_twenty :
    (ofList [('a', 2), ('b', 3)]).score "bbbbbba" = 20 ∧
    IsGreatest (letterValues (ofList [('a', 2), ('b', 3)])) 3 ∧
    IsGcd 1 (letterValues (ofList [('a', 2), ('b', 3)])) ∧
    Spellable (ofList [('a', 2), ('b', 3)]) 20 ∧
    ¬ Spellable (ofList [('a', 2), ('b', 4)]) 21 := by
  have hletters : letters (ofList [('a', 2), ('b', 3)]) = [⟨'b', 3⟩, ⟨'a', 2⟩] := by cbv
  have hspell : (ofList [('a', 2), ('b', 3)]).spell 20 = .ok "bbbbbba" := by cbv
  have herror : (ofList [('a', 2), ('b', 4)]).spell 21 = .error (.unspellable 21) := by cbv
  have hvalues : ∀ p, p ∈ letterValues (ofList [('a', 2), ('b', 3)]) ↔ p = 3 ∨ p = 2 := by
    intro p
    rw [mem_letterValues, hletters]
    simp [eq_comm]
  have hlargest : IsGreatest (letterValues (ofList [('a', 2), ('b', 3)])) 3 := by
    refine ⟨(hvalues 3).2 (.inl rfl), fun p hp => ?_⟩
    have := (hvalues p).1 hp
    omega
  have hgcd : IsGcd 1 (letterValues (ofList [('a', 2), ('b', 3)])) := by
    refine ⟨fun p _ => Nat.one_dvd p, fun d hd => ?_⟩
    exact Nat.dvd_sub (hd 3 ((hvalues 3).2 (.inl rfl))) (hd 2 ((hvalues 2).2 (.inr rfl)))
  exact ⟨((spell_exact _ 20).1 _ hspell).1, hlargest, hgcd,
    ((spell_exact _ 20).2.1 (by decide) 3 1 hlargest hgcd (by decide) (by decide)).1 ⟨_, hspell⟩,
    (spell_exact _ 21).2.2 (by decide) herror⟩

/-! ## Fewest letters -/

/-- Words of other letters with the same score need at least as many letters.  A total that is no value
counts as its remainder, but takes more letters than any spelled word has. -/
theorem spell_shortest (es : List (Char × UInt32)) (score : Value) (hpos : 0 < score) (w : String)
    (hw : (ofList es).spell score = .ok w) (v : String) (hv : ∀ c ∈ v.toList, c.isAlpha = true)
    (hscore : (ofList es).score v = score) : w.length ≤ v.length := by
  have hspelled := spelled_of_pos (ofList es) hpos
  rw [hw] at hspelled
  cases hspelled with
  | @word cs hcs _ hmin hbound =>
    have htotal := total_eq_worth_toLower (ofList es) hv
    rw [String.length_ofList, ← String.length_toList]
    by_cases hlt : (ofList es).total v < 2 ^ 63
    · have heq : (ofList es).total v = score.toInt.toNat := by
        rw [← hscore, LetterScores.score, Int64.toInt_ofNat_of_lt hlt, Int.toNat_natCast]
      have hwrites : (ofList es).Writes score.toInt.toNat (v.toList.map Char.toLower) := by
        refine ⟨fun c hc => ?_, htotal.symm.trans heq⟩
        obtain ⟨d, hd, rfl⟩ := List.mem_map.1 hc
        exact Text.isAlpha_toLower (hv d hd)
      have := hmin _ hwrites
      rwa [List.length_map] at this
    · have hle := LetterScores.worth_le (ofList es) (v.toList.map Char.toLower)
      rw [← htotal, List.length_map] at hle
      unfold maxLetters maxTotals at hbound
      omega

theorem spell_shortest_twenty :
    (ofList [('a', 2), ('b', 3)]).spell 20 = .ok "bbbbbba" ∧
      (ofList [('a', 2), ('b', 3)]).score "BBAAbbaa" = 20 ∧
      "bbbbbba".length ≤ "BBAAbbaa".length := by
  have hspell : (ofList [('a', 2), ('b', 3)]).spell 20 = .ok "bbbbbba" := by cbv
  have hscore : (ofList [('a', 2), ('b', 3)]).score "BBAAbbaa" = 20 := by decide +kernel
  have halpha : ∀ c ∈ "BBAAbbaa".toList, c.isAlpha = true := List.all_eq_true.1 (by decide)
  exact ⟨hspell, hscore, spell_shortest _ 20 (by decide) _ hspell "BBAAbbaa" halpha hscore⟩

end Beatnik.Spelling
