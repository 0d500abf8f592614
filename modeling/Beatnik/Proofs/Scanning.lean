import Beatnik.Word

/-!
# Words and separators

Scanning starts afresh after a separator, at the place reached there:

    isWordChar c = false → scanFrom l (a ++ c :: b) =
      scanFrom l a ++ scanFrom (l.afterText (a ++ [c])) b                    (scanFrom_append_cons)

A run of word characters is one word (`scanFrom_word`).  The words of a text do not depend on where it
starts, but for their places, so a separator between two texts gives the words of the first and the moved
words of the second (`scan_append`).  Texts joined with spaces so have the words of each of them
(`text_scan_joined`), and tokens joined with spaces are scanned back (`text_scan_intercalate`).
-/

namespace Beatnik.Word

/-- A token: at least one character, and only word characters. -/
def IsToken (w : String) : Prop := w ≠ "" ∧ ∀ c ∈ w.toList, isWordChar c = true

instance (w : String) : Decidable (IsToken w) :=
  decidable_of_iff (w ≠ "" ∧ w.toList.all isWordChar = true) (by rw [List.all_eq_true, IsToken])

/-- The words of a text that starts at a place. -/
def scanFrom (l : Location) (cs : List Char) : List Word :=
  (cs.foldl Scanner.step { location := l }).close.reverse

theorem scan_eq (path text : String) : scan path text = scanFrom (.start path) text.toList := rfl

/-! ## One character -/

namespace Scanner

theorem step_location (s : Scanner) (c : Char) : (s.step c).location = s.location.after c := by
  rw [step]
  split <;> rfl

theorem step_of_not_isWordChar (s : Scanner) {c : Char} (h : isWordChar c = false) :
    s.step c = { location := s.location.after c, found := s.close } := by
  rw [step, if_neg (by simp [h])]

/-- Words found earlier stay below those of the step. -/
theorem step_found (l : Location) (p : Option Pending) (ws : List Word) (c : Char) :
    ∃ p' ws', step ⟨l, p, ws⟩ c = ⟨l.after c, p', ws' ++ ws⟩ ∧
      step ⟨l, p, []⟩ c = ⟨l.after c, p', ws'⟩ := by
  cases hc : isWordChar c with
  | true => exact ⟨_, [], by rw [step, if_pos hc]; rfl, by rw [step, if_pos hc]⟩
  | false =>
    refine ⟨none, (Scanner.mk l p []).close, ?_, step_of_not_isWordChar _ hc⟩
    rw [step_of_not_isWordChar _ hc]
    cases p <;> rfl

/-! ## Many characters -/

theorem foldl_location (cs : List Char) (s : Scanner) :
    (cs.foldl step s).location = s.location.afterText cs := by
  induction cs generalizing s with
  | nil => rfl
  | cons c cs ih =>
    rw [List.foldl_cons, ih, step_location]
    rfl

theorem foldl_close (cs : List Char) (l : Location) (p : Option Pending) (ws : List Word) :
    (cs.foldl step ⟨l, p, ws⟩).close = (cs.foldl step ⟨l, p, []⟩).close ++ ws := by
  induction cs generalizing l p ws with
  | nil => cases p <;> rfl
  | cons c cs ih =>
    obtain ⟨p', ws', h, h'⟩ := step_found l p ws c
    rw [List.foldl_cons, List.foldl_cons, h, h', ih, ih _ _ ws', List.append_assoc]

theorem foldl_word (cs : List Char) (hcs : ∀ c ∈ cs, isWordChar c = true) (l : Location)
    (p : Pending) (ws : List Word) :
    cs.foldl step ⟨l, some p, ws⟩ = ⟨l.afterText cs, some ⟨p.start, cs.reverse ++ p.letters⟩, ws⟩ := by
  induction cs generalizing l p with
  | nil => rfl
  | cons c cs ih =>
    have hstep : step ⟨l, some p, ws⟩ c = ⟨l.after c, some ⟨p.start, c :: p.letters⟩, ws⟩ := by
      rw [step, if_pos (hcs c List.mem_cons_self)]
    rw [List.foldl_cons, hstep, ih fun d hd => hcs d (List.mem_cons_of_mem _ hd)]
    simp [Location.afterText]

end Scanner

/-! ## Tokens -/

/-- A scanner that has found tokens only, and is reading one if it is reading a word. -/
structure Scanner.Sound (s : Scanner) : Prop where
  found : ∀ w ∈ s.found, IsToken w.text
  pending : ∀ p, s.pending = some p → p.letters ≠ [] ∧ ∀ c ∈ p.letters, isWordChar c = true

theorem Scanner.Sound.close {s : Scanner} (h : s.Sound) : ∀ w ∈ s.close, IsToken w.text := by
  intro w hw
  rw [Scanner.close] at hw
  cases hp : s.pending with
  | none =>
    rw [hp] at hw
    exact h.found w hw
  | some p =>
    rw [hp] at hw
    obtain ⟨hne, hletters⟩ := h.pending p hp
    rcases List.mem_cons.1 hw with rfl | hw
    · exact ⟨by simpa using hne, by simpa using hletters⟩
    · exact h.found w hw

theorem Scanner.Sound.step {s : Scanner} (h : s.Sound) (c : Char) : (s.step c).Sound := by
  cases hc : isWordChar c with
  | false =>
    rw [step_of_not_isWordChar s hc]
    exact ⟨h.close, by simp⟩
  | true =>
    rw [Scanner.step, if_pos hc]
    refine ⟨h.found, fun p hp => ?_⟩
    cases hs : s.pending with
    | none =>
      rw [hs] at hp
      cases hp
      exact ⟨List.cons_ne_nil _ _, by simpa using hc⟩
    | some q =>
      rw [hs] at hp
      cases hp
      refine ⟨List.cons_ne_nil _ _, fun d hd => ?_⟩
      rcases List.mem_cons.1 hd with rfl | hd
      · exact hc
      · exact (h.pending q hs).2 d hd

/-- Scanning finds tokens only. -/
theorem isToken_of_mem_scan {path text : String} {w : Word} (h : w ∈ scan path text) :
    IsToken w.text := by
  have hfold : ∀ (cs : List Char) (s : Scanner), s.Sound → (cs.foldl Scanner.step s).Sound := by
    intro cs
    induction cs with
    | nil => exact fun s hs => hs
    | cons c cs ih => exact fun s hs => ih _ (hs.step c)
  exact (hfold text.toList _ ⟨by simp, by simp⟩).close w (List.mem_reverse.1 h)

/-! ## Texts -/

/-- After a separator scanning starts afresh. -/
theorem scanFrom_append_cons (l : Location) (a b : List Char) {c : Char} (h : isWordChar c = false) :
    scanFrom l (a ++ c :: b) = scanFrom l a ++ scanFrom (l.afterText (a ++ [c])) b := by
  rw [scanFrom, List.foldl_append, List.foldl_cons, Scanner.step_of_not_isWordChar _ h,
    Scanner.foldl_close, List.reverse_append, Scanner.foldl_location, Location.afterText_append]
  rfl

/-- A run of word characters is one word. -/
theorem scanFrom_word (l : Location) {cs : List Char} (hne : cs ≠ [])
    (hcs : ∀ c ∈ cs, isWordChar c = true) : scanFrom l cs = [⟨l, String.ofList cs⟩] := by
  obtain ⟨c, cs, rfl⟩ := List.exists_cons_of_ne_nil hne
  have hstep : Scanner.step { location := l } c = ⟨l.after c, some ⟨l, [c]⟩, []⟩ := by
    rw [Scanner.step, if_pos (hcs c List.mem_cons_self)]
  rw [scanFrom, List.foldl_cons, hstep,
    Scanner.foldl_word cs fun d hd => hcs d (List.mem_cons_of_mem _ hd)]
  simp [Scanner.close]

theorem scan_of_isToken {w : String} (h : IsToken w) (path : String) :
    scan path w = [⟨.start path, w⟩] := by
  rw [scan_eq, scanFrom_word _ (by simpa using h.1) h.2, String.ofList_toList]

end Beatnik.Word

namespace Beatnik

/-! ## Texts that start elsewhere -/

namespace Location

/-- The place that `x` has when its text starts at `l`: lines are counted on from there, and so are the
columns of the first line. -/
def shift (l x : Location) : Location where
  path := l.path
  line := l.line - 1 + x.line
  column := if x.line = 1 then l.column - 1 + x.column else x.column

theorem shift_start {l : Location} (hline : 0 < l.line) (hcolumn : 0 < l.column) (path : String) :
    l.shift (start path) = l := by
  have h₁ : l.line - 1 + 1 = l.line := by omega
  have h₂ : l.column - 1 + 1 = l.column := by omega
  simp [shift, start, h₁, h₂]

theorem after_shift (l : Location) {x : Location} (hx : 0 < x.line) (c : Char) :
    (l.shift x).after c = l.shift (x.after c) := by
  unfold after
  split
  · have hne : x.line ≠ 0 := by omega
    simp [shift, hne, Nat.add_assoc]
  · by_cases h : x.line = 1
    · simp [shift, h, Nat.add_assoc]
    · simp [shift, h]

theorem after_pos {l : Location} (h : 0 < l.line ∧ 0 < l.column) (c : Char) :
    0 < (l.after c).line ∧ 0 < (l.after c).column := by
  unfold after
  split
  · exact ⟨Nat.succ_pos _, Nat.one_pos⟩
  · exact ⟨h.1, Nat.succ_pos _⟩

theorem afterText_pos {l : Location} (h : 0 < l.line ∧ 0 < l.column) (cs : List Char) :
    0 < (l.afterText cs).line ∧ 0 < (l.afterText cs).column := by
  induction cs generalizing l with
  | nil => exact h
  | cons c cs ih => exact ih (after_pos h c)

end Location

namespace Word

def shift (l : Location) (w : Word) : Word := { w with location := l.shift w.location }

def Scanner.shift (l : Location) (s : Scanner) : Scanner where
  location := l.shift s.location
  pending := s.pending.map fun p => { p with start := l.shift p.start }
  found := s.found.map (Word.shift l)

theorem Scanner.close_shift (l : Location) (s : Scanner) :
    (s.shift l).close = s.close.map (Word.shift l) := by
  rcases s with ⟨x, _ | p, ws⟩
  · rfl
  · rfl

theorem Scanner.step_shift (l : Location) {s : Scanner} (hs : 0 < s.location.line) (c : Char) :
    (s.shift l).step c = (s.step c).shift l := by
  have hlocation : (s.shift l).location.after c = l.shift (s.location.after c) :=
    Location.after_shift l hs c
  cases hc : isWordChar c with
  | false =>
    rw [step_of_not_isWordChar _ hc, step_of_not_isWordChar _ hc, close_shift, hlocation]
    rfl
  | true =>
    rw [step, step, if_pos hc, if_pos hc, hlocation]
    rcases s with ⟨x, _ | p, ws⟩ <;> rfl

theorem scanFrom_shift {l : Location} (hl : 0 < l.line ∧ 0 < l.column) (path : String)
    (cs : List Char) : scanFrom l cs = (scanFrom (.start path) cs).map (Word.shift l) := by
  have hfold : ∀ (cs : List Char) (s : Scanner), 0 < s.location.line ∧ 0 < s.location.column →
      cs.foldl Scanner.step (s.shift l) = (cs.foldl Scanner.step s).shift l := by
    intro cs
    induction cs with
    | nil => exact fun s _ => rfl
    | cons c cs ih =>
      intro s hs
      rw [List.foldl_cons, List.foldl_cons, Scanner.step_shift l hs.1, ih]
      rw [Scanner.step_location]
      exact Location.after_pos hs c
  have hstart : Scanner.shift l { location := .start path } = { location := l } := by
    rw [Scanner.shift, Location.shift_start hl.1 hl.2]
    rfl
  rw [scanFrom, scanFrom, List.map_reverse, ← Scanner.close_shift,
    ← hfold cs _ ⟨Nat.one_pos, Nat.one_pos⟩, hstart]

/-- The words of two texts with a separator between them. -/
theorem scan_append (path a b : String) {c : Char} (h : isWordChar c = false) :
    scan path (a ++ String.singleton c ++ b) = scan path a ++
      (scan path b).map (Word.shift ((Location.start path).afterText (a.toList ++ [c]))) := by
  have htext : (a ++ String.singleton c ++ b).toList = a.toList ++ c :: b.toList := by simp
  rw [scan_eq, scan_eq, scan_eq, htext, scanFrom_append_cons _ _ _ h,
    scanFrom_shift (Location.afterText_pos ⟨Nat.one_pos, Nat.one_pos⟩ _) path]

/-- The texts of the words of two texts with a separator between them. -/
theorem text_scan_append (path a b : String) {c : Char} (h : isWordChar c = false) :
    (scan path (a ++ String.singleton c ++ b)).map Word.text =
      (scan path a).map Word.text ++ (scan path b).map Word.text := by
  rw [scan_append path a b h, List.map_append, List.map_map]
  rfl

/-! ## Joined texts -/

/-- Texts joined with spaces have the words of each of them, whatever these texts hold. -/
theorem text_scan_joined (path : String) (ts : List String) :
    (scan path (" ".intercalate ts)).map Word.text =
      ts.flatMap fun t => (scan path t).map Word.text := by
  induction ts with
  | nil => rfl
  | cons t ts ih =>
    rw [List.flatMap_cons, ← ih]
    cases ts with
    | nil =>
      -- there is no separator after the last text, and no word in what would follow it
      rw [String.intercalate_singleton]
      exact (List.append_nil _).symm
    | cons u us =>
      rw [String.intercalate_cons_cons, show t ++ " " = t ++ String.singleton ' ' from rfl,
        text_scan_append path t _ (by decide)]

/-- Tokens joined with spaces are scanned back. -/
theorem text_scan_intercalate (ws : List String) (h : ∀ w ∈ ws, IsToken w) (path : String) :
    (scan path (" ".intercalate ws)).map Word.text = ws := by
  have htoken : ∀ w ∈ ws, (scan path w).map Word.text = [w] := by
    intro w hw
    rw [scan_of_isToken (h w hw)]
    rfl
  rw [text_scan_joined, List.flatMap_def, List.map_congr_left htoken, ← List.flatMap_def,
    List.flatMap_singleton']

end Word

end Beatnik
