import Beatnik.Proofs.Scanning
import Mathlib

/-!
# Words are longest runs

The words of a text are its longest runs of letters, digits and underscores, each once and in order.  A
run is given by its two ends (`Run`); it is a longest one if no word character stands beside it
(`IsRun`).  The place of a word is told by the text before it (`Location.ofPrefix`): lines by its line
feeds, columns by the characters after the last of them.

    (ofPrefix path before).afterText cs = ofPrefix path (before ++ cs)           (afterText_ofPrefix)
    r ∈ runs ↔ IsRun text r,  scan path text = runs.map (Run.word path text)          (scan_eq_runs)

Scanning is followed from one position to the next (`scanFrom_runs`), over positions that no run
crosses: past one separator, or past one run.
-/

namespace Beatnik

/-! ## Places -/

namespace Location

/-- The place after a text: one line further for each line feed, and one column further for each
character after the last line feed. -/
def ofPrefix (path : String) (before : List Char) : Location where
  path := path
  line := 1 + before.count '\n'
  column := 1 + (before.rtakeWhile (· ≠ '\n')).length

theorem ofPrefix_nil (path : String) : ofPrefix path [] = start path := rfl

theorem after_ofPrefix (path : String) (before : List Char) (c : Char) :
    (ofPrefix path before).after c = ofPrefix path (before ++ [c]) := by
  unfold after ofPrefix
  by_cases hc : c = '\n'
  · rw [if_pos hc, List.rtakeWhile_concat_neg _ _ _ (by simp [hc])]
    simp [hc, Nat.add_assoc]
  · rw [if_neg hc, List.rtakeWhile_concat_pos _ _ _ (by simp [hc])]
    simp [hc, Nat.add_assoc]

theorem afterText_ofPrefix (path : String) (before cs : List Char) :
    (ofPrefix path before).afterText cs = ofPrefix path (before ++ cs) := by
  induction cs generalizing before with
  | nil => simp [afterText]
  | cons c cs ih =>
    show ((ofPrefix path before).after c).afterText cs = _
    rw [after_ofPrefix, ih, List.append_assoc, List.singleton_append]

/-- A place in an earlier line, or further to the left in the same line. -/
def Before (a b : Location) : Prop := a.line < b.line ∨ (a.line = b.line ∧ a.column < b.column)

theorem Before.trans {a b c : Location} (hab : Before a b) (hbc : Before b c) : Before a c := by
  unfold Before at *
  omega

theorem before_after (l : Location) (c : Char) : Before l (l.after c) := by
  unfold after Before
  split
  · exact .inl (Nat.lt_succ_self _)
  · exact .inr ⟨rfl, Nat.lt_succ_self _⟩

/-- Reading at least one character leads to a later place. -/
theorem before_afterText (l : Location) {cs : List Char} (h : cs ≠ []) : Before l (l.afterText cs) := by
  induction cs generalizing l with
  | nil => exact absurd rfl h
  | cons c cs ih =>
    have hfirst : Before l (l.after c) := before_after l c
    by_cases hcs : cs = []
    · subst hcs
      exact hfirst
    · exact hfirst.trans (ih _ hcs)

theorem before_ofPrefix_take (path : String) {cs : List Char} {i j : Nat} (hij : i < j)
    (hj : j ≤ cs.length) : Before (ofPrefix path (cs.take i)) (ofPrefix path (cs.take j)) := by
  have hsplit : cs.take j = cs.take i ++ (cs.drop i).take (j - i) := by
    rw [← List.take_add, Nat.add_sub_cancel' hij.le]
  rw [hsplit, ← afterText_ofPrefix]
  apply before_afterText
  apply List.ne_nil_of_length_pos
  rw [List.length_take, List.length_drop]
  omega

end Location

namespace Word

/-! ## Runs -/

/-- An ASCII letter, a decimal digit or the underscore. -/
def InWord (c : Char) : Prop :=
  ('A' ≤ c ∧ c ≤ 'Z') ∨ ('a' ≤ c ∧ c ≤ 'z') ∨ ('0' ≤ c ∧ c ≤ '9') ∨ c = '_'

theorem isWordChar_iff (c : Char) : isWordChar c = true ↔ InWord c := by
  unfold isWordChar InWord Char.isAlphanum Char.isAlpha Char.isUpper Char.isLower Char.isDigit
  simp only [Bool.or_eq_true, Bool.and_eq_true, decide_eq_true_eq, beq_iff_eq, ge_iff_le,
    Char.le_def, or_assoc]

def WordAt (cs : List Char) (i : Nat) : Prop := ∃ c, cs[i]? = some c ∧ InWord c

/-- A part of a text, from the position `start` to the one before `stop`. -/
structure Run where
  start : Nat
  stop : Nat
deriving DecidableEq

/-- A longest run of word characters of a text. -/
structure IsRun (cs : List Char) (r : Run) : Prop where
  nonempty : r.start < r.stop
  inside : ∀ i, r.start ≤ i → i < r.stop → WordAt cs i
  /-- there is no word character just before the run -/
  ends_left : ∀ i, i + 1 = r.start → ¬ WordAt cs i
  /-- there is no word character just after the run -/
  ends_right : ¬ WordAt cs r.stop

/-- The word that a run makes up, at the place told by the text before it. -/
def Run.word (path : String) (cs : List Char) (r : Run) : Word where
  location := .ofPrefix path (cs.take r.start)
  text := String.ofList ((cs.take r.stop).drop r.start)

variable {cs : List Char} {i : Nat}

theorem lt_length_of_wordAt (h : WordAt cs i) : i < cs.length := by
  obtain ⟨c, hc, -⟩ := h
  exact (List.getElem?_eq_some_iff.1 hc).1

theorem wordAt_drop (cs : List Char) (i n : Nat) : WordAt (cs.drop i) n ↔ WordAt cs (i + n) := by
  unfold WordAt
  rw [List.getElem?_drop]

theorem wordAt_zero (cs : List Char) :
    WordAt cs 0 ↔ ∃ c, cs.head? = some c ∧ isWordChar c = true := by
  unfold WordAt
  simp only [isWordChar_iff, List.head?_eq_getElem?]

theorem IsRun.wordAt_start {r : Run} (h : IsRun cs r) : WordAt cs r.start :=
  h.inside r.start (Nat.le_refl _) h.nonempty

/-- Two runs that start at the same position end at the same position. -/
theorem IsRun.eq_of_start_eq {r s : Run} (hr : IsRun cs r) (hs : IsRun cs s)
    (h : r.start = s.start) : r = s := by
  have hstop : r.stop = s.stop := by
    rcases Nat.lt_trichotomy r.stop s.stop with hlt | heq | hgt
    · have := hr.nonempty
      exact absurd (hs.inside r.stop (by omega) hlt) hr.ends_right
    · exact heq
    · have := hs.nonempty
      exact absurd (hr.inside s.stop (by omega) hgt) hs.ends_right
  cases r
  cases s
  simp_all

/-! ## Scanning from a position on -/

/-- What is found from a position on: the runs that start there or later, in order. -/
structure RunsFrom (cs : List Char) (i : Nat) (runs : List Run) : Prop where
  mem_iff : ∀ r, r ∈ runs ↔ IsRun cs r ∧ i ≤ r.start
  sorted : runs.Pairwise fun r s => r.stop < s.start

/-- Past the end there are no runs. -/
theorem runsFrom_nil (h : cs.length ≤ i) : RunsFrom cs i [] where
  mem_iff r := by
    constructor
    · intro hr
      cases hr
    · rintro ⟨hrun, hi⟩
      have := lt_length_of_wordAt hrun.wordAt_start
      omega
  sorted := .nil

/-- No run starts at a separator. -/
theorem RunsFrom.separator {runs : List Run} (h : RunsFrom cs (i + 1) runs) (hi : ¬ WordAt cs i) :
    RunsFrom cs i runs where
  mem_iff r := by
    rw [h.mem_iff]
    constructor
    · rintro ⟨hrun, hle⟩
      exact ⟨hrun, by omega⟩
    · rintro ⟨hrun, hle⟩
      refine ⟨hrun, Nat.lt_of_le_of_ne hle ?_⟩
      rintro rfl
      exact hi hrun.wordAt_start
  sorted := h.sorted

/-- A run is followed by the runs that start after it. -/
theorem RunsFrom.run {runs : List Run} {j : Nat} (h : RunsFrom cs j runs) (hrun : IsRun cs ⟨i, j⟩) :
    RunsFrom cs i (⟨i, j⟩ :: runs) where
  mem_iff r := by
    rw [List.mem_cons, h.mem_iff]
    have hij : i < j := hrun.nonempty
    constructor
    · rintro (rfl | ⟨hr, hle⟩)
      · exact ⟨hrun, Nat.le_refl i⟩
      · exact ⟨hr, by omega⟩
    · rintro ⟨hr, hle⟩
      by_cases hstart : r.start = i
      · exact .inl (hr.eq_of_start_eq hrun hstart)
      · refine .inr ⟨hr, Nat.le_of_not_lt fun hlt => ?_⟩
        -- a run that starts further on inside of this one has a word character before it
        exact hr.ends_left (r.start - 1) (by omega) (hrun.inside _ (by dsimp only; omega)
          (by dsimp only; omega))
  sorted := by
    refine List.pairwise_cons.2 ⟨fun r hr => ?_, h.sorted⟩
    obtain ⟨hr, hle⟩ := (h.mem_iff r).1 hr
    refine Nat.lt_of_le_of_ne hle ?_
    rintro rfl
    exact hrun.ends_right hr.wordAt_start

/-- A run of word characters before a separator, or at the end, is one word. -/
theorem scanFrom_run (l : Location) {w rest : List Char} (hne : w ≠ [])
    (hw : ∀ c ∈ w, isWordChar c = true) (hrest : ∀ c, rest.head? = some c → isWordChar c = false) :
    scanFrom l (w ++ rest) = ⟨l, String.ofList w⟩ :: scanFrom (l.afterText w) rest := by
  cases rest with
  | nil =>
    rw [List.append_nil, scanFrom_word l hne hw]
    rfl
  | cons c rest =>
    have hc := hrest c rfl
    have hstart : scanFrom (l.afterText w) (c :: rest) = scanFrom (l.afterText (w ++ [c])) rest := by
      have hsplit := scanFrom_append_cons (l.afterText w) [] rest hc
      rw [Location.afterText_append]
      exact hsplit
    rw [scanFrom_append_cons l w rest hc, scanFrom_word l hne hw, hstart]
    rfl

theorem isWordChar_head_dropWhile {cs : List Char} {c : Char}
    (h : (cs.dropWhile isWordChar).head? = some c) : isWordChar c = false := by
  have hnot := List.head?_dropWhile_not isWordChar cs
  rw [h] at hnot
  exact hnot

/-- A word character starts a run, which goes on to a separator or to the end. -/
theorem exists_run {rest : List Char} (h : WordAt rest 0) :
    ∃ w later, rest = w ++ later ∧ w ≠ [] ∧ (∀ c ∈ w, isWordChar c = true) ∧
      ∀ c, later.head? = some c → isWordChar c = false := by
  obtain ⟨c, hhead, hc⟩ := (wordAt_zero rest).1 h
  refine ⟨rest.takeWhile isWordChar, rest.dropWhile isWordChar,
    List.takeWhile_append_dropWhile.symm, ?_, fun d hd => List.mem_takeWhile_imp hd,
    fun d hd => isWordChar_head_dropWhile hd⟩
  obtain ⟨tail, rfl⟩ := List.head?_eq_some_iff.1 hhead
  rw [List.takeWhile_cons_of_pos hc]
  exact List.cons_ne_nil _ _

theorem isRun_of_drop {w later : List Char} (hdrop : cs.drop i = w ++ later) (hne : w ≠ [])
    (hw : ∀ c ∈ w, isWordChar c = true) (hlater : ∀ c, later.head? = some c → isWordChar c = false)
    (hleft : ∀ k, k + 1 = i → ¬ WordAt cs k) : IsRun cs ⟨i, i + w.length⟩ where
  nonempty := Nat.lt_add_of_pos_right (List.length_pos_iff.2 hne)
  inside k hik hk := by
    obtain ⟨n, rfl⟩ := Nat.exists_eq_add_of_le hik
    have hn : n < w.length := Nat.lt_of_add_lt_add_left hk
    rw [← wordAt_drop, hdrop]
    refine ⟨w[n], ?_, (isWordChar_iff _).1 (hw _ (List.getElem_mem hn))⟩
    rw [List.getElem?_append_left hn, List.getElem?_eq_getElem hn]
  ends_left := hleft
  ends_right := by
    rw [← wordAt_drop, hdrop]
    have hlater' : WordAt (w ++ later) w.length ↔ WordAt later 0 := by
      rw [← Nat.add_zero w.length, ← wordAt_drop, List.drop_left]
    rw [hlater', wordAt_zero]
    rintro ⟨c, hhead, hc⟩
    rw [hlater c hhead] at hc
    cases hc

/-- Scanning from a position on, unless it is in the middle of a run, gives the words of the runs that
start there or later. -/
theorem scanFrom_runs (path : String) (cs : List Char) (i : Nat)
    (hcut : ∀ k, k + 1 = i → ¬ (WordAt cs k ∧ WordAt cs i)) :
    ∃ runs, RunsFrom cs i runs ∧
      scanFrom (.ofPrefix path (cs.take i)) (cs.drop i) = runs.map (Run.word path cs) := by
  -- by induction on what is left to scan
  induction hn : cs.length - i using Nat.strong_induction_on generalizing i with
  | _ n ih =>
    by_cases hend : cs.length ≤ i
    · refine ⟨[], runsFrom_nil hend, ?_⟩
      rw [List.drop_eq_nil_of_le hend]
      rfl
    · by_cases hi : WordAt cs i
      · -- past a run
        obtain ⟨w, later, hdrop, hne, hw, hlater⟩ := exists_run ((wordAt_drop cs i 0).2 hi)
        have hrun : IsRun cs ⟨i, i + w.length⟩ :=
          isRun_of_drop hdrop hne hw hlater fun k hk hword => hcut k hk ⟨hword, hi⟩
        have hlength := List.length_pos_iff.2 hne
        obtain ⟨runs, hruns, hscan⟩ := ih (cs.length - (i + w.length)) (by omega) (i + w.length)
          (fun k _ hk => hrun.ends_right hk.2) rfl
        have htake : cs.take (i + w.length) = cs.take i ++ w := by
          rw [List.take_add, hdrop, List.take_left]
        have hword : Run.word path cs ⟨i, i + w.length⟩ =
            ⟨.ofPrefix path (cs.take i), String.ofList w⟩ := by
          have hi : (cs.take i).length = i := List.length_take_of_le (by omega)
          rw [Run.word, htake, List.drop_append_of_le_length (by rw [hi]),
            List.drop_eq_nil_of_le (by rw [hi]), List.nil_append]
        rw [← List.drop_drop, hdrop, List.drop_left, htake, ← Location.afterText_ofPrefix] at hscan
        refine ⟨_, hruns.run hrun, ?_⟩
        rw [hdrop, scanFrom_run _ hne hw hlater, hscan, List.map_cons, hword]
      · -- past a separator
        obtain ⟨c, rest, hdrop⟩ := List.exists_cons_of_ne_nil (mt List.drop_eq_nil_iff.1 hend)
        have hc : isWordChar c = false := by
          rw [← Bool.not_eq_true]
          intro hword
          exact hi ((wordAt_drop cs i 0).1 ((wordAt_zero _).2 ⟨c, by rw [hdrop]; rfl, hword⟩))
        obtain ⟨runs, hruns, hscan⟩ := ih (cs.length - (i + 1)) (by omega) (i + 1)
          (fun k hk hword => hi (Nat.succ.inj hk ▸ hword.1)) rfl
        have htake : cs.take (i + 1) = cs.take i ++ [c] := by
          rw [List.take_add, hdrop]
          rfl
        rw [← List.drop_drop, hdrop, htake, ← Location.afterText_ofPrefix] at hscan
        refine ⟨runs, hruns.separator hi, ?_⟩
        rw [hdrop]
        exact (scanFrom_append_cons _ [] rest hc).trans hscan

/-- **Words are longest runs.**  Scanning gives the longest runs of word characters, each once, in order
of occurrence, at the places told by the line feeds and characters before them; so the places of the
words increase strictly. -/
theorem scan_eq_runs (path text : String) :
    ∃ runs : List Run,
      (∀ r, r ∈ runs ↔ IsRun text.toList r) ∧
      runs.Pairwise (fun r s => r.stop < s.start) ∧
      scan path text = runs.map (Run.word path text.toList) ∧
      (scan path text).Pairwise fun v w => v.location.Before w.location := by
  obtain ⟨runs, hruns, hscan⟩ := scanFrom_runs path text.toList 0 (fun k hk => by omega)
  have hwords : scan path text = runs.map (Run.word path text.toList) := by
    rw [scan_eq, ← Location.ofPrefix_nil]
    exact hscan
  refine ⟨runs, fun r => ?_, hruns.sorted, hwords, ?_⟩
  · rw [hruns.mem_iff]
    exact and_iff_left (Nat.zero_le _)
  · rw [hwords, List.pairwise_map]
    refine hruns.sorted.imp_of_mem ?_
    intro r s hr hs hlt
    obtain ⟨hr, -⟩ := (hruns.mem_iff r).1 hr
    obtain ⟨hs, -⟩ := (hruns.mem_iff s).1 hs
    have hstart : r.start < s.start := Nat.lt_trans hr.nonempty hlt
    exact Location.before_ofPrefix_take path hstart (lt_length_of_wordAt hs.wordAt_start).le

end Word

end Beatnik
