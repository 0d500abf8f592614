import Beatnik.Proofs.LetterCase

/-!
# Lower case is final

Lower casing a lower case changes nothing, so the characters that lower casing leads to are their own
lower case:

    d ∈ lower c → lower d = [d]                                                (lower_of_mem_lower)

Of all characters outside of ASCII, only the sign of the unit kelvin becomes an ASCII letter and nothing
else, the letter `k`.  A text whose lower case is made of the other ASCII letters is a text of ASCII
letters itself (`lowerText_eq_iff`).
-/

namespace Beatnik.Text

theorem toNat_ofNat_or (n : Nat) : (Char.ofNat n).toNat = n ∨ (Char.ofNat n).toNat = 0 := by
  rw [Char.ofNat]
  split
  · exact .inl (by simp [Char.toNat, Char.ofNatAux])
  · exact .inr rfl

/-! ## Lower case of lower case -/

/-- No code point from `first` to `last` belongs to the run; with `byTwo`, none of those at an even
distance from `first`. -/
def CaseRun.avoids (s : CaseRun) (first last : Nat) (byTwo : Bool) : Bool :=
  Nat.blt last s.first || Nat.blt s.last first ||
    (byTwo && Nat.beq s.stride 2 && Nat.beq ((first + s.first) % 2) 1)

theorem CaseRun.not_contains_of_avoids {s : CaseRun} {first last code : Nat} {byTwo : Bool}
    (h : s.avoids first last byTwo = true) (hfirst : first ≤ code) (hlast : code ≤ last)
    (hparity : byTwo = true → (code - first) % 2 = 0) : s.contains code = false := by
  rw [← Bool.not_eq_true]
  intro hcontains
  simp only [CaseRun.contains, Bool.and_eq_true, decide_eq_true_eq, beq_iff_eq] at hcontains
  obtain ⟨⟨hge, hle⟩, hstride⟩ := hcontains
  simp only [CaseRun.avoids, Bool.or_eq_true, Bool.and_eq_true, Nat.blt_eq, Nat.beq_eq] at h
  rcases h with (hbefore | hafter) | ⟨⟨htwo, hs⟩, hodd⟩
  · omega
  · omega
  · have hcode := hparity htwo
    rw [hs] at hstride
    omega

/-- The lower cases of the letters of a run are no letters of any run. -/
theorem caseRuns_avoid : ∀ r ∈ caseRuns, ∀ s ∈ caseRuns,
    s.avoids (r.first + r.shift).toNat (r.last + r.shift).toNat
      (Nat.beq r.stride 2 || Nat.beq r.first r.last) = true := by
  have hall : caseRuns.all (fun r => caseRuns.all fun s =>
      s.avoids (r.first + r.shift).toNat (r.last + r.shift).toNat
        (Nat.beq r.stride 2 || Nat.beq r.first r.last)) = true := by
    decide +kernel
  intro r hr s hs
  exact List.all_eq_true.1 (List.all_eq_true.1 hall r hr) s hs

theorem findRun_of_mem_run {r : CaseRun} (hr : r ∈ caseRuns) {code : Nat}
    (h : r.contains code = true) : findRun (code + r.shift).toNat caseRuns = none := by
  cases hs : findRun (code + r.shift).toNat caseRuns with
  | none => rfl
  | some s =>
    obtain ⟨hs, hcontains⟩ := mem_of_findRun hs
    have hpast := caseRuns_past r hr
    simp only [CaseRun.contains, Bool.and_eq_true, decide_eq_true_eq, beq_iff_eq] at h
    obtain ⟨⟨hfirst, hlast⟩, hstride⟩ := h
    have hnot : s.contains (code + r.shift).toNat = false := by
      refine CaseRun.not_contains_of_avoids (caseRuns_avoid r hr s hs) (by omega) (by omega) ?_
      intro hparity
      simp only [Bool.or_eq_true, Nat.beq_eq] at hparity
      rcases hparity with htwo | hsingle
      · rw [htwo] at hstride
        omega
      · omega
    rw [hnot] at hcontains
    cases hcontains

/-- The letter with two characters for its lower case is no lower case. -/
theorem caseRuns_ne_dotted : ∀ r ∈ caseRuns,
    (r.last : Int) + r.shift < 0x130 ∨ (0x130 : Int) < r.first + r.shift ∨
      (r.stride = 2 ∧ (r.first + r.shift) % 2 = 1) := by
  decide +kernel

/-- What lower casing leads to is its own lower case. -/
theorem lower_of_mem_lower {c d : Char} (h : d ∈ lower c) : lower d = [d] := by
  by_cases hc : c = 'İ'
  · subst hc
    have hd : d = 'i' ∨ d = '̇' := by simpa [lower] using h
    rcases hd with rfl | rfl <;> decide +kernel
  · cases hr : findRun c.toNat caseRuns with
    | none =>
      have hlower : lower c = [c] := by rw [lower, if_neg hc, hr]
      rw [hlower, List.mem_singleton] at h
      rw [h, hlower]
    | some r =>
      obtain ⟨hm, hcontains⟩ := mem_of_findRun hr
      have hnone := findRun_of_mem_run hm hcontains
      rw [lower, if_neg hc, hr, List.mem_singleton] at h
      rcases toNat_ofNat_or (c.toNat + r.shift).toNat with hn | hn
      · rw [← h] at hn
        have hd : d ≠ 'İ' := by
          rintro rfl
          have hcode : ((c.toNat : Int) + r.shift).toNat = 0x130 := hn.symm
          have hne := caseRuns_ne_dotted r hm
          simp only [CaseRun.contains, Bool.and_eq_true, decide_eq_true_eq, beq_iff_eq] at hcontains
          obtain ⟨⟨hfirst, hlast⟩, hstride⟩ := hcontains
          rcases hne with hbefore | hafter | ⟨htwo, hodd⟩
          · omega
          · omega
          · rw [htwo] at hstride
            omega
        rw [lower, if_neg hd, hn, hnone]
      · have hd : d = Char.ofNat 0 := by
          rw [← Char.ofNat_toNat d, h, hn]
        rw [hd]
        decide +kernel

/-! ## Lower cases in ASCII -/

theorem isAlpha_ofNat_of_lt {n : Nat} (h : 122 < n) : (Char.ofNat n).isAlpha = false := by
  rw [← Bool.not_eq_true, isAlpha_iff]
  rcases toNat_ofNat_or n with hn | hn <;> omega

theorem isAlpha_of_toLower {c : Char} (h : c.toLower.isAlpha = true) : c.isAlpha = true := by
  rcases toLower_eq_or c with hc | ⟨hc, -⟩
  · rwa [hc] at h
  · exact hc

/-- Past ASCII, the letters of all runs but one have their lower case past ASCII. -/
theorem caseRuns_past_ascii :
    ∀ r ∈ caseRuns, r.last < 128 ∨ (122 : Int) < r.first + r.shift ∨ r = ⟨0x212A, 0x212A, 1, -8383⟩ := by
  decide +kernel

/-- Only ASCII letters have a lower case of ASCII letters other than `k`. -/
theorem isAlpha_of_lower {c : Char} (h : ∀ d ∈ lower c, d.isAlpha = true ∧ d ≠ 'k') :
    c.isAlpha = true := by
  by_cases hascii : c.toNat < 128
  · have hlower := lower_ofNat_of_lt c.toNat hascii
    rw [Char.ofNat_toNat] at hlower
    rw [hlower] at h
    exact isAlpha_of_toLower (h _ (List.mem_singleton_self _)).1
  · by_cases hc : c = 'İ'
    · subst hc
      have hdot := h '̇' (by simp [lower])
      exact absurd hdot.1 (by decide)
    · cases hr : findRun c.toNat caseRuns with
      | none =>
        rw [lower, if_neg hc, hr] at h
        exact (h c (List.mem_singleton_self c)).1
      | some r =>
        obtain ⟨hm, hcontains⟩ := mem_of_findRun hr
        rw [lower, if_neg hc, hr] at h
        obtain ⟨halpha, hk⟩ := h _ (List.mem_singleton_self _)
        simp only [CaseRun.contains, Bool.and_eq_true, decide_eq_true_eq] at hcontains
        obtain ⟨⟨hfirst, hlast⟩, -⟩ := hcontains
        rcases caseRuns_past_ascii r hm with hsmall | hpast | rfl
        · omega
        · rw [isAlpha_ofNat_of_lt (by omega)] at halpha
          cases halpha
        · have hcode : c.toNat = 0x212A := by
            dsimp only at hfirst hlast
            omega
          rw [hcode] at hk
          exact absurd (by decide) hk

/-- A text has a lower case of ASCII letters other than `k` only by the case of ASCII letters. -/
theorem lowerText_eq_iff {cs name : List Char} (hname : ∀ d ∈ name, d.isAlpha = true ∧ d ≠ 'k') :
    lowerText cs = name ↔ cs.map Char.toLower = name := by
  constructor
  · intro h
    have halpha : ∀ c ∈ cs, c.isAlpha = true := by
      intro c hc
      apply isAlpha_of_lower
      intro d hd
      apply hname
      rw [← h]
      exact List.mem_flatMap.2 ⟨c, hc, hd⟩
    rw [← LetterScores.lowerText_of_isAlpha halpha, h]
  · intro h
    have halpha : ∀ c ∈ cs, c.isAlpha = true := by
      intro c hc
      apply isAlpha_of_toLower
      exact (hname _ (h ▸ List.mem_map_of_mem hc)).1
    rw [LetterScores.lowerText_of_isAlpha halpha, h]

end Beatnik.Text
