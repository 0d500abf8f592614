import Beatnik.Proofs.Scoring
import Beatnik.Proofs.Spelling.Exchange

/-!
# The letters of a table

`letters s` are the ASCII letters with points, the first one with the most (`mem_letters`,
`points_le_head`); `step` is the greatest common divisor of their points (`step_dvd`, `dvd_step`).
Letters counted in steps spell `n` exactly when their characters are worth `n` steps in the table:

    Spells (inSteps (letters s)) n w →
      Writes s (n * step (letters s)) (w.map char)                               (writes_of_spells)
    Writes s (n * step (letters s)) cs →
      ∃ w, Spells (inSteps (letters s)) n w ∧ w.length ≤ cs.length        (exists_spells_of_writes)
-/

namespace Beatnik

/-- ASCII letters that are worth a number of points together, each looked up as it stands. -/
structure LetterScores.Writes (s : LetterScores) (n : Nat) (cs : List Char) : Prop where
  isAlpha : ∀ c ∈ cs, c.isAlpha = true
  worth_eq : s.worth cs = n

namespace Spelling

/-! ## Letters with points -/

theorem mem_letters {s : LetterScores} {l : Letter} :
    l ∈ letters s ↔ l.char.isAlpha = true ∧ 0 < l.points ∧ l.points = (s.points l.char).toNat := by
  simp only [letters, lettersIn, List.mem_mergeSort, List.mem_map, List.mem_filter, LetterScores.entries,
    Bool.and_eq_true, decide_eq_true_eq]
  constructor
  · rintro ⟨⟨c, p⟩, ⟨hmem, halpha, hpos⟩, rfl⟩
    have hp : s.points c = p := by
      rw [LetterScores.points, Std.ExtTreeMap.mem_toList_iff_getElem?_eq_some.1 hmem]
      rfl
    exact ⟨halpha, UInt32.lt_iff_toNat_lt.1 hpos, by simp only [hp]⟩
  · rintro ⟨halpha, hpos, hpoints⟩
    refine ⟨(l.char, s.points l.char), ⟨?_, halpha, ?_⟩, ?_⟩
    · rw [Std.ExtTreeMap.mem_toList_iff_getElem?_eq_some, LetterScores.points]
      cases hc : s.table[l.char]? with
      | none => simp [LetterScores.points, hc] at hpoints; omega
      | some p => rfl
    · rw [UInt32.lt_iff_toNat_lt]
      simpa [← hpoints] using hpos
    · rw [← hpoints]

theorem points_ne_zero {s : LetterScores} {l : Letter} (h : l ∈ letters s) : s.points l.char ≠ 0 := by
  obtain ⟨-, hpos, hpoints⟩ := mem_letters.1 h
  intro hz
  rw [hz] at hpoints
  simp at hpoints
  omega

theorem precedes_iff {a b : Letter} :
    a.precedes b = true ↔ b.points < a.points ∨ a.points = b.points ∧ a.char ≤ b.char := by
  simp [Letter.precedes]

theorem precedes_trans (a b c : Letter) (hab : a.precedes b = true) (hbc : b.precedes c = true) :
    a.precedes c = true := by
  rw [precedes_iff] at hab hbc ⊢
  rcases hab with hab | ⟨hab, hchar⟩
  · exact .inl (by omega)
  · rcases hbc with hbc | ⟨hbc, hchar'⟩
    · exact .inl (by omega)
    · exact .inr ⟨hab.trans hbc, Char.le_trans hchar hchar'⟩

theorem precedes_total (a b : Letter) : (a.precedes b || b.precedes a) = true := by
  rw [Bool.or_eq_true, precedes_iff, precedes_iff]
  rcases Char.le_total a.char b.char with hchar | hchar
  · rcases Nat.lt_trichotomy a.points b.points with h | h | h
    · exact .inr (.inl h)
    · exact .inl (.inr ⟨h, hchar⟩)
    · exact .inl (.inl h)
  · rcases Nat.lt_trichotomy a.points b.points with h | h | h
    · exact .inr (.inl h)
    · exact .inr (.inr ⟨h.symm, hchar⟩)
    · exact .inl (.inl h)

theorem pairwise_lettersIn (entries : List (Char × UInt32)) :
    (lettersIn entries).Pairwise fun a b => a.precedes b = true :=
  List.pairwise_mergeSort precedes_trans precedes_total _

theorem points_le_head {s : LetterScores} {big l : Letter} (hbig : (letters s).head? = some big)
    (hl : l ∈ letters s) : l.points ≤ big.points := by
  have hsorted := pairwise_lettersIn s.entries
  rw [← letters] at hsorted
  cases hls : letters s with
  | nil => rw [hls] at hl; cases hl
  | cons a rest =>
    rw [hls] at hbig hl hsorted
    cases hbig
    rcases List.mem_cons.1 hl with rfl | hl
    · exact Nat.le_refl _
    · have := precedes_iff.1 (List.rel_of_pairwise_cons hsorted hl)
      omega

/-! ## Steps -/

theorem foldl_gcd_dvd (ls : List Letter) (d : Nat) :
    ls.foldl (fun d l => d.gcd l.points) d ∣ d ∧
      ∀ l ∈ ls, ls.foldl (fun d l => d.gcd l.points) d ∣ l.points := by
  induction ls generalizing d with
  | nil => exact ⟨Nat.dvd_refl d, by simp⟩
  | cons l ls ih =>
    obtain ⟨hd, hls⟩ := ih (d.gcd l.points)
    refine ⟨hd.trans (Nat.gcd_dvd_left d l.points), fun m hm => ?_⟩
    rcases List.mem_cons.1 hm with rfl | hm
    · exact hd.trans (Nat.gcd_dvd_right d m.points)
    · exact hls m hm

theorem step_dvd {ls : List Letter} {l : Letter} (h : l ∈ ls) : step ls ∣ l.points :=
  (foldl_gcd_dvd ls 0).2 l h

theorem dvd_step {ls : List Letter} {e : Nat} (h : ∀ l ∈ ls, e ∣ l.points) : e ∣ step ls := by
  have hfold : ∀ (ls : List Letter) (d : Nat), e ∣ d → (∀ l ∈ ls, e ∣ l.points) →
      e ∣ ls.foldl (fun d l => d.gcd l.points) d := by
    intro ls
    induction ls with
    | nil => exact fun d hd _ => hd
    | cons l ls ih =>
      intro d hd hls
      exact ih _ (Nat.dvd_gcd hd (hls l List.mem_cons_self))
        fun m hm => hls m (List.mem_cons_of_mem _ hm)
  exact hfold ls 0 (Nat.dvd_zero e) h

theorem step_pos {ls : List Letter} {l : Letter} (h : l ∈ ls) (hpos : 0 < l.points) : 0 < step ls :=
  Nat.pos_of_dvd_of_pos (step_dvd h) hpos

theorem step_letters_pos {s : LetterScores} {big : Letter} (hbig : (letters s).head? = some big) :
    0 < step (letters s) :=
  have hmem := List.mem_of_head? hbig
  step_pos hmem (mem_letters.1 hmem).2.1

def scale (ls : List Letter) (l : Letter) : Letter := { l with points := l.points / step ls }

theorem scale_mem {ls : List Letter} {l : Letter} (h : l ∈ ls) : scale ls l ∈ inSteps ls :=
  List.mem_map_of_mem h

theorem exists_of_mem_inSteps {ls : List Letter} {l : Letter} (h : l ∈ inSteps ls) :
    ∃ k ∈ ls, l = scale ls k := by
  obtain ⟨k, hk, hl⟩ := List.mem_map.1 h
  exact ⟨k, hk, hl.symm⟩

theorem scale_points_mul {ls : List Letter} {l : Letter} (h : l ∈ ls) :
    (scale ls l).points * step ls = l.points :=
  Nat.div_mul_cancel (step_dvd h)

theorem inSteps_pos (s : LetterScores) : ∀ l ∈ inSteps (letters s), 0 < l.points := by
  intro l hl
  obtain ⟨k, hk, rfl⟩ := exists_of_mem_inSteps hl
  have hpos := (mem_letters.1 hk).2.1
  exact Nat.div_pos (Nat.le_of_dvd hpos (step_dvd hk)) (step_pos hk hpos)

theorem inSteps_le {s : LetterScores} {big : Letter} (hbig : (letters s).head? = some big) :
    ∀ l ∈ inSteps (letters s), l.points ≤ (scale (letters s) big).points := by
  intro l hl
  obtain ⟨k, hk, rfl⟩ := exists_of_mem_inSteps hl
  exact Nat.div_le_div_right (points_le_head hbig hk)

/-! ## Spellings and characters -/

theorem worthy_of_mem_inSteps {s : LetterScores} {l : Letter} (h : l ∈ inSteps (letters s)) :
    l.char.isAlpha = true ∧ s.points l.char ≠ 0 := by
  obtain ⟨k, hk, rfl⟩ := exists_of_mem_inSteps h
  have hne := points_ne_zero hk
  exact ⟨(mem_letters.1 hk).1, hne⟩

theorem worth_chars {s : LetterScores} {n : Nat} {w : List Letter}
    (h : Spells (inSteps (letters s)) n w) :
    s.worth (w.map Letter.char) = n * step (letters s) := by
  rw [← h.worth_eq]
  have hmem := h.mem
  clear h
  induction w with
  | nil => simp [LetterScores.worth]
  | cons l w ih =>
    obtain ⟨k, hk, rfl⟩ := exists_of_mem_inSteps (hmem l List.mem_cons_self)
    have hpoints : (s.points k.char).toNat = (scale (letters s) k).points * step (letters s) := by
      rw [scale_points_mul hk, (mem_letters.1 hk).2.2]
    have ih := ih fun m hm => hmem m (List.mem_cons_of_mem _ hm)
    rw [LetterScores.worth] at ih ⊢
    rw [List.map_cons, List.map_cons, List.sum_cons, ih, worth_cons, Nat.add_mul, ← hpoints]
    rfl

/-- The characters of a spelling, all of them with points, write as many steps. -/
theorem writes_of_spells {s : LetterScores} {n : Nat} {w : List Letter}
    (h : Spells (inSteps (letters s)) n w) :
    s.Writes (n * step (letters s)) (w.map Letter.char) ∧
      ∀ c ∈ w.map Letter.char, s.points c ≠ 0 := by
  refine ⟨⟨fun c hc => ?_, worth_chars h⟩, fun c hc => ?_⟩
  · obtain ⟨l, hl, rfl⟩ := List.mem_map.1 hc
    exact (worthy_of_mem_inSteps (h.mem l hl)).1
  · obtain ⟨l, hl, rfl⟩ := List.mem_map.1 hc
    exact (worthy_of_mem_inSteps (h.mem l hl)).2

/-- Characters without points can be left out, the others are letters of the table. -/
theorem exists_letters_of_isAlpha (s : LetterScores) (cs : List Char)
    (h : ∀ c ∈ cs, c.isAlpha = true) :
    ∃ w, Spells (letters s) (s.worth cs) w ∧ w.length ≤ cs.length := by
  induction cs with
  | nil => exact ⟨[], ⟨by simp, rfl⟩, Nat.le_refl _⟩
  | cons c cs ih =>
    obtain ⟨w, hw, hlen⟩ := ih fun d hd => h d (List.mem_cons_of_mem _ hd)
    have hcons : s.worth (c :: cs) = (s.points c).toNat + s.worth cs := by simp [LetterScores.worth]
    rw [hcons, List.length_cons]
    by_cases hc : (s.points c).toNat = 0
    · rw [hc, Nat.zero_add]
      exact ⟨w, hw, by omega⟩
    · have hl : (⟨c, (s.points c).toNat⟩ : Letter) ∈ letters s :=
        mem_letters.2 ⟨h c List.mem_cons_self, Nat.pos_of_ne_zero hc, rfl⟩
      refine ⟨⟨c, (s.points c).toNat⟩ :: w, ⟨fun m hm => ?_, ?_⟩, ?_⟩
      · rcases List.mem_cons.1 hm with rfl | hm
        · exact hl
        · exact hw.mem m hm
      · rw [worth_cons, hw.worth_eq]
      · rw [List.length_cons]
        omega

theorem worth_map_scale {ls : List Letter} {w : List Letter} (h : ∀ l ∈ w, l ∈ ls) :
    worth (w.map (scale ls)) * step ls = worth w := by
  induction w with
  | nil => simp
  | cons l w ih =>
    rw [List.map_cons, worth_cons, worth_cons, Nat.add_mul, scale_points_mul (h l List.mem_cons_self),
      ih fun m hm => h m (List.mem_cons_of_mem _ hm)]

theorem step_dvd_worth {s : LetterScores} {n : Nat} {cs : List Char} (h : s.Writes n cs) :
    step (letters s) ∣ n := by
  obtain ⟨w, hw, -⟩ := exists_letters_of_isAlpha s cs h.isAlpha
  rw [h.worth_eq] at hw
  exact ⟨_, by rw [Nat.mul_comm, worth_map_scale hw.mem, hw.worth_eq]⟩

theorem exists_spells_of_writes {s : LetterScores} {n : Nat} {cs : List Char}
    (hstep : 0 < step (letters s)) (h : s.Writes (n * step (letters s)) cs) :
    ∃ w, Spells (inSteps (letters s)) n w ∧ w.length ≤ cs.length := by
  obtain ⟨w, hw, hlen⟩ := exists_letters_of_isAlpha s cs h.isAlpha
  rw [h.worth_eq] at hw
  refine ⟨w.map (scale (letters s)), ⟨fun l hl => ?_, ?_⟩, by rwa [List.length_map]⟩
  · obtain ⟨k, hk, rfl⟩ := List.mem_map.1 hl
    exact scale_mem (hw.mem k hk)
  · exact Nat.eq_of_mul_eq_mul_right hstep ((worth_map_scale hw.mem).trans hw.worth_eq)

end Spelling

end Beatnik
