import Beatnik.LetterScores
import Mathlib

/-!
# Scores of letters

Lower casing leaves no upper case ASCII letter, so a table made by insertions has no points for one, and
an ASCII letter with points is worth the same in a word as in the table:

    (∀ c ∈ cs, c.isAlpha ∧ points c ≠ 0) →
      total (ofList es) cs = worth (ofList es) cs                                 (total_of_worthy)

A word of ASCII letters in any case is worth as much as its letters in lower case, which are as many
(`total_eq_worth_toLower`).
-/

namespace Beatnik

/-! ## Lower case of ASCII letters -/

namespace Text

theorem isUpper_iff (c : Char) : c.isUpper = true ↔ 65 ≤ c.toNat ∧ c.toNat ≤ 90 := by
  simp only [Char.isUpper, decide_eq_true_eq, UInt32.le_iff_toNat_le, ge_iff_le]
  exact Iff.rfl

theorem isAlpha_iff (c : Char) :
    c.isAlpha = true ↔ (65 ≤ c.toNat ∧ c.toNat ≤ 90) ∨ (97 ≤ c.toNat ∧ c.toNat ≤ 122) := by
  rw [Char.isAlpha, Bool.or_eq_true, isUpper_iff]
  simp only [Char.isLower, Bool.and_eq_true, decide_eq_true_eq, UInt32.le_iff_toNat_le, ge_iff_le]
  exact Iff.rfl

theorem lower_ofNat_of_lt : ∀ n, n < 128 → lower (Char.ofNat n) = [(Char.ofNat n).toLower] := by
  decide +kernel

theorem lower_of_lt {c : Char} (h : c.toNat < 128) : lower c = [c.toLower] := by
  have := lower_ofNat_of_lt c.toNat h
  rwa [Char.ofNat_toNat] at this

theorem lower_of_isAlpha {c : Char} (h : c.isAlpha = true) : lower c = [c.toLower] := by
  rw [isAlpha_iff] at h
  exact lower_of_lt (by omega)

theorem toLower_of_not_isUpper {c : Char} (h : c.isUpper = false) : c.toLower = c := by
  rw [Char.toLower, dif_neg]
  intro hc
  rw [Char.isUpper, decide_eq_false_iff_not] at h
  exact h hc

theorem isAlpha_toLower_ofNat :
    ∀ n, n < 128 → (Char.ofNat n).isAlpha = true → (Char.ofNat n).toLower.isAlpha = true := by
  decide +kernel

theorem isAlpha_toLower {c : Char} (h : c.isAlpha = true) : c.toLower.isAlpha = true := by
  have hc := (isAlpha_iff c).1 h
  have := isAlpha_toLower_ofNat c.toNat (by omega)
  rw [Char.ofNat_toNat] at this
  exact this h

/-- The lower case letters of every run lie past `Z`. -/
theorem caseRuns_past : ∀ r ∈ caseRuns, (90 : Int) < r.first + r.shift := by
  decide +kernel

theorem mem_of_findRun {code : Nat} {rs : List CaseRun} {r : CaseRun} (h : findRun code rs = some r) :
    r ∈ rs ∧ r.contains code = true := by
  induction rs with
  | nil => cases h
  | cons r' rs ih =>
    rw [findRun] at h
    split at h
    · cases h
    · split at h
      · next hc =>
        cases h
        exact ⟨List.mem_cons_self, hc⟩
      · obtain ⟨hm, hc⟩ := ih h
        exact ⟨List.mem_cons_of_mem _ hm, hc⟩

theorem findRun_of_isUpper {c : Char} (h : c.isUpper = true) : findRun c.toNat caseRuns ≠ none := by
  rw [isUpper_iff] at h
  have hc : (⟨0x41, 0x5A, 1, 32⟩ : CaseRun).contains c.toNat = true := by
    simp [CaseRun.contains, Nat.mod_one]
    omega
  rw [caseRuns, findRun, if_neg (Nat.not_lt.2 h.1), if_pos hc]
  simp

/-- Code points past `Z` are no upper case ASCII letters, and neither is the stand-in for what is no
code point. -/
theorem isUpper_ofNat_of_lt {n : Nat} (h : 90 < n) : (Char.ofNat n).isUpper = false := by
  rw [← Bool.not_eq_true, isUpper_iff]
  intro hn
  rw [Char.ofNat] at hn
  split at hn
  · simp [Char.toNat, Char.ofNatAux] at hn
    omega
  · simp [Char.toNat] at hn

theorem isUpper_of_mem_lower {c d : Char} (h : d ∈ lower c) : d.isUpper = false := by
  rw [lower] at h
  split at h
  · have hd : d = 'i' ∨ d = '̇' := by simpa using h
    rcases hd with rfl | rfl <;> decide
  · split at h
    · next r hr =>
      obtain ⟨hm, hc⟩ := mem_of_findRun hr
      have hp := caseRuns_past r hm
      simp only [CaseRun.contains, Bool.and_eq_true, decide_eq_true_eq] at hc
      rw [List.mem_singleton.1 h]
      apply isUpper_ofNat_of_lt
      omega
    · next hr =>
      rw [List.mem_singleton.1 h, ← Bool.not_eq_true]
      exact fun hu => findRun_of_isUpper hu hr

end Text

/-! ## Points in tables made by insertions -/

namespace LetterScores

/-- A table without points for upper case ASCII letters. -/
def Lowered (s : LetterScores) : Prop := ∀ c ∈ s.table, c.isUpper = false

theorem mem_table_insert {s : LetterScores} {c d : Char} {p : UInt32} :
    d ∈ (s.insert c p).table ↔ d ∈ Text.lower c ∨ d ∈ s.table := by
  have hfold : ∀ (ds : List Char) (t : Std.ExtTreeMap Char UInt32),
      d ∈ ds.foldl (fun t d => t.insert d p) t ↔ d ∈ ds ∨ d ∈ t := by
    intro ds
    induction ds with
    | nil => simp
    | cons e ds ih =>
      intro t
      rw [List.foldl_cons, ih, Std.ExtTreeMap.mem_insert, Std.LawfulEqCmp.compare_eq_iff_eq,
        List.mem_cons, eq_comm]
      tauto
  exact hfold _ _

/-- The characters of a table are those in the lower cases of what was inserted. -/
theorem mem_table_ofList {es : List (Char × UInt32)} {d : Char} :
    d ∈ (ofList es).table ↔ ∃ e ∈ es, d ∈ Text.lower e.1 := by
  induction es using List.reverseRecOn with
  | nil => simp [ofList]
  | append_singleton es e ih =>
    have hinsert : ofList (es ++ [e]) = (ofList es).insert e.1 e.2 := by simp [ofList]
    rw [hinsert, mem_table_insert, ih]
    simp [or_and_right, exists_or, or_comm]

theorem lowered_ofList (es : List (Char × UInt32)) : (ofList es).Lowered := by
  intro d hd
  obtain ⟨e, -, he⟩ := mem_table_ofList.1 hd
  exact Text.isUpper_of_mem_lower he

theorem mem_of_points_ne {s : LetterScores} {c : Char} (h : s.points c ≠ 0) : c ∈ s.table := by
  rw [Std.ExtTreeMap.mem_iff_isSome_getElem?]
  cases hc : s.table[c]? with
  | none => simp [points, hc] at h
  | some p => rfl

theorem mem_table_of_mem_entries {s : LetterScores} {e : Char × UInt32} (h : e ∈ s.entries) :
    e.1 ∈ s.table := by
  rw [Std.ExtTreeMap.mem_iff_isSome_getElem?, Std.ExtTreeMap.mem_toList_iff_getElem?_eq_some.1 h]
  rfl

/-! ## Words of letters -/

/-- What characters are worth together, each looked up as it stands. -/
def worth (s : LetterScores) (cs : List Char) : Nat := (cs.map fun c => (s.points c).toNat).sum

theorem worth_le (s : LetterScores) (cs : List Char) : s.worth cs ≤ cs.length * (2 ^ 32 - 1) := by
  induction cs with
  | nil => simp [worth]
  | cons c cs ih =>
    have hc := (s.points c).toNat_lt
    rw [worth] at ih ⊢
    rw [List.map_cons, List.sum_cons, List.length_cons, Nat.succ_mul]
    omega

theorem total_eq_worth (s : LetterScores) (w : String) :
    s.total w = s.worth (Text.lowerText w.toList) := by
  have hfold : ∀ cs : List Char, cs.foldl (fun n c => n + (s.points c).toNat) 0 = s.worth cs := by
    intro cs
    induction cs with
    | nil => rfl
    | cons c cs ih =>
      rw [List.foldl_cons, foldl_points, ih]
      simp [worth]
  exact hfold _

theorem lowerText_of_isAlpha {cs : List Char} (h : ∀ c ∈ cs, c.isAlpha = true) :
    Text.lowerText cs = cs.map Char.toLower := by
  induction cs with
  | nil => rfl
  | cons c cs ih =>
    rw [Text.lowerText, List.flatMap_cons, Text.lower_of_isAlpha (h c List.mem_cons_self)]
    have := ih fun d hd => h d (List.mem_cons_of_mem _ hd)
    rw [Text.lowerText] at this
    rw [this]
    rfl

theorem total_eq_worth_toLower (s : LetterScores) {w : String} (h : ∀ c ∈ w.toList, c.isAlpha = true) :
    s.total w = s.worth (w.toList.map Char.toLower) := by
  rw [total_eq_worth, lowerText_of_isAlpha h]

theorem total_of_worthy {s : LetterScores} (hs : s.Lowered) {cs : List Char}
    (h : ∀ c ∈ cs, c.isAlpha = true ∧ s.points c ≠ 0) : s.total (String.ofList cs) = s.worth cs := by
  have hself : cs.map Char.toLower = cs := by
    rw [← List.map_id cs, List.map_map]
    refine List.map_congr_left fun c hc => ?_
    exact Text.toLower_of_not_isUpper (hs c (mem_of_points_ne (h c hc).2))
  rw [total_eq_worth_toLower s (by simpa using fun c hc => (h c hc).1)]
  simp [hself]

end LetterScores

end Beatnik
