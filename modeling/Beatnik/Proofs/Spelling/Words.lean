import Beatnik.Proofs.Spelling.Arithmetic
import Beatnik.Proofs.Spelling.Search

/-!
# Spelled words

What spelling a positive score comes to (`Spelled`, `spelled_of_pos`): a shortest word of the score, the
finding that there is no such word, or one of two refusals, of a word that is too long or of a search
that is too wide.  The words of the main results are those of tables made by insertions.
-/

namespace Beatnik

namespace Spelling

/-! ## Bulk and remainder -/

section

variable {s : LetterScores} {big : Letter} {target many rest : Nat}
  (hbig : (letters s).head? = some big)
  (h : Division (scale (letters s) big).points target many rest)

include hbig h

/-- A spelling of a total leaves one of the rest, shorter by the largest letters. -/
theorem exists_spells_rest {v : List Letter} (hv : Spells (inSteps (letters s)) target v) :
    ∃ w, Spells (inSteps (letters s)) rest w ∧ w.length + many ≤ v.length := by
  have hadd := h.add_eq
  rcases h.few with rfl | hle
  · rw [show rest = target by omega]
    exact ⟨v, hv, Nat.le_refl _⟩
  · have hmem := scale_mem (List.mem_of_head? hbig)
    rw [show rest = target - many * (scale (letters s) big).points by omega]
    exact exists_without_bulk hmem (inSteps_pos s _ hmem) (inSteps_le hbig) hv hle

/-- The largest letters before a spelling of the rest spell the total. -/
theorem spells_replicate_append {w : List Letter} (hw : Spells (inSteps (letters s)) rest w) :
    Spells (inSteps (letters s)) target (List.replicate many (scale (letters s) big) ++ w) := by
  refine ⟨fun l hl => ?_, ?_⟩
  · rcases List.mem_append.1 hl with hl | hl
    · rw [List.eq_of_mem_replicate hl]
      exact scale_mem (List.mem_of_head? hbig)
    · exact hw.mem l hl
  · rw [worth_append, worth_replicate, hw.worth_eq, Nat.add_comm]
    exact h.add_eq

/-- The largest letter is used no more often than it fits into the score. -/
theorem many_le {n : Nat} (hn : target * step (letters s) = n) : many ≤ n / big.points := by
  have hmem := List.mem_of_head? hbig
  have hfit : many * (scale (letters s) big).points ≤ target := by
    have := h.add_eq
    omega
  rw [Nat.le_div_iff_mul_le (mem_letters.1 hmem).2.1]
  calc many * big.points
      = many * (scale (letters s) big).points * step (letters s) := by
        rw [Nat.mul_assoc, scale_points_mul hmem]
    _ ≤ target * step (letters s) := Nat.mul_le_mul_right _ hfit
    _ = n := hn

end

theorem length_le_worth {w : List Letter} (h : ∀ l ∈ w, 0 < l.points) : w.length ≤ worth w := by
  induction w with
  | nil => simp
  | cons l w ih =>
    have h1 := h l List.mem_cons_self
    have h2 := ih fun m hm => h m (List.mem_cons_of_mem _ hm)
    rw [worth_cons, List.length_cons]
    omega

/-! ## What spelling comes to -/

/-- What spelling a positive score comes to. -/
inductive Spelled (s : LetterScores) (score : Value) : Except Fault String → Prop
  /-- a shortest word of letters with points, which is not too long -/
  | word {cs : List Char} : s.Writes score.toInt.toNat cs → (∀ c ∈ cs, s.points c ≠ 0) →
      (∀ ds, s.Writes score.toInt.toNat ds → cs.length ≤ ds.length) →
      cs.length ≤ maxLetters + maxTotals → Spelled s score (.ok (String.ofList cs))
  /-- there is no word -/
  | impossible : (∀ cs, ¬ s.Writes score.toInt.toNat cs) → Spelled s score (.error (.unspellable score))
  /-- the largest letter fits too often -/
  | tooLong {big : Letter} : (letters s).head? = some big →
      maxLetters < score.toInt.toNat / big.points → Spelled s score (.error (.wordTooLong score))
  /-- too many totals are left to the search -/
  | tooWide {big : Letter} {many rest : Nat} : (letters s).head? = some big →
      Division (scale (letters s) big).points (score.toInt.toNat / step (letters s)) many rest →
      maxTotals < rest → Spelled s score (.error (.searchTooLong score big.points rest))

section

variable {s : LetterScores} {score : Value} {big : Letter} {many rest : Nat}
  (hbig : (letters s).head? = some big) (h : Checked s big score.toInt.toNat many rest)

include hbig h

/-- A word of the score leaves a spelling of the rest. -/
theorem exists_spells_of_checked {ds : List Char} (hds : s.Writes score.toInt.toNat ds) :
    ∃ w, Spells (inSteps (letters s)) rest w ∧ w.length + many ≤ ds.length := by
  rw [← Nat.div_mul_cancel h.dvd] at hds
  obtain ⟨v, hv, hvlen⟩ := exists_spells_of_writes (step_letters_pos hbig) hds
  obtain ⟨w, hw, hwlen⟩ := exists_spells_rest hbig h.division hv
  exact ⟨w, hw, by omega⟩

/-- The search decides whether a score has a word and gives a shortest one. -/
theorem spelled_of_find? {o : Option String}
    (hfind : find? (inSteps (letters s)) rest (String.ofList (List.replicate many big.char)) = o) :
    Spelled s score (o.elim (.error (.unspellable score)) .ok) := by
  have hbest := find?_isBest (inSteps_pos s) rest (String.ofList (List.replicate many big.char))
  rw [hfind] at hbest
  cases hbest with
  | impossible hno =>
    refine .impossible fun ds hds => ?_
    obtain ⟨w, hw, -⟩ := exists_spells_of_checked hbig h hds
    exact hno w hw
  | @shortest w hw hmin =>
    have hchars : List.replicate many big.char ++ w.map Letter.char =
        (List.replicate many (scale (letters s) big) ++ w).map Letter.char := by
      rw [List.map_append, List.map_replicate]
      rfl
    have hlen : (List.replicate many big.char ++ w.map Letter.char).length = many + w.length := by
      rw [List.length_append, List.length_replicate, List.length_map]
    obtain ⟨hwrites, hpoints⟩ := writes_of_spells (spells_replicate_append hbig h.division hw)
    rw [Nat.div_mul_cancel h.dvd, ← hchars] at hwrites
    rw [← hchars] at hpoints
    rw [Option.elim_some, ← String.ofList_append]
    refine .word hwrites hpoints ?_ ?_
    · intro ds hds
      obtain ⟨v, hv, hvlen⟩ := exists_spells_of_checked hbig h hds
      have := hmin v hv
      omega
    · have hmany := many_le hbig h.division (Nat.div_mul_cancel h.dvd)
      have hshort := length_le_worth fun l hl => inSteps_pos s l (hw.mem l hl)
      have := h.short
      have := h.narrow
      rw [hw.worth_eq] at hshort
      omega

end

/-- A table without letters that have points writes nothing. -/
theorem not_writes_of_letters_eq_nil {s : LetterScores} (h : letters s = []) {n : Nat} (hn : 0 < n)
    (cs : List Char) : ¬ s.Writes n cs := by
  intro hcs
  have := step_dvd_worth hcs
  rw [h, step, List.foldl_nil, Nat.zero_dvd] at this
  omega

theorem toNat_toInt_pos {v : Value} (h : 0 < v) : 0 < v.toInt.toNat := by
  have := Value.toInt_pos h
  omega

theorem spelled_of_pos (s : LetterScores) {score : Value} (hpos : 0 < score) :
    Spelled s score (s.spell score) := by
  cases hbig : (letters s).head? with
  | none =>
    rw [spell_of_head?_eq_none hpos hbig]
    exact .impossible
      (not_writes_of_letters_eq_nil (List.head?_eq_none_iff.1 hbig) (toNat_toInt_pos hpos))
  | some big =>
    have houtcome := outcome_of_pos hpos hbig rfl rfl
    generalize s.spell score = r at houtcome
    cases houtcome with
    | indivisible hdvd => exact .impossible fun cs hcs => hdvd (step_dvd_worth hcs)
    | tooLong hlong => exact .tooLong hbig hlong
    | tooWide hdivision hwide => exact .tooWide hbig hdivision hwide
    | found hchecked hfind => exact spelled_of_find? hbig hchecked hfind
    | missing hchecked hfind => exact spelled_of_find? hbig hchecked hfind

end Spelling

end Beatnik
