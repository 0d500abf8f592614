import Beatnik.Proofs.Scanning
import Beatnik.Proofs.Scoring

/-!
# The case of letters

ASCII letters in upper and in lower case make up the same words at the same places, with the same
scores: scanning a text in lower case gives the words of the text in lower case.

    scanFrom l (cs.map Char.toLower) = (scanFrom l cs).map lowered                 (scanFrom_toLower)
    s.score w.lowered.text = s.score w.text                                           (score_lowered)

So texts that differ only in the case of ASCII letters have words that differ only in that
(`map_lowered_scan_eq`).
-/

namespace Beatnik

/-! ## Characters -/

/-- Only letters have another lower case, which is a letter again. -/
theorem Text.toLower_eq_or (c : Char) :
    c.toLower = c ∨ (c.isAlpha = true ∧ c.toLower.isAlpha = true) := by
  cases hc : c.isUpper with
  | false => exact .inl (toLower_of_not_isUpper hc)
  | true =>
    have halpha : c.isAlpha = true := by simp [Char.isAlpha, hc]
    exact .inr ⟨halpha, isAlpha_toLower halpha⟩

theorem Text.lower_toLower (c : Char) : lower c.toLower = lower c := by
  rcases toLower_eq_or c with hc | ⟨halpha, hlower⟩
  · rw [hc]
  · have hself : c.toLower.toLower = c.toLower := by
      refine toLower_of_not_isUpper (isUpper_of_mem_lower (c := c) ?_)
      rw [lower_of_isAlpha halpha]
      exact List.mem_singleton_self _
    rw [lower_of_isAlpha halpha, lower_of_isAlpha hlower, hself]

theorem Word.isWordChar_toLower (c : Char) : isWordChar c.toLower = isWordChar c := by
  rcases Text.toLower_eq_or c with hc | ⟨halpha, hlower⟩
  · rw [hc]
  · simp [isWordChar, Char.isAlphanum, halpha, hlower]

theorem Location.after_toLower (l : Location) (c : Char) : l.after c.toLower = l.after c := by
  rcases Text.toLower_eq_or c with hc | ⟨halpha, hlower⟩
  · rw [hc]
  · have hne : ∀ {d : Char}, d.isAlpha = true → d ≠ '\n' := by
      rintro d hd rfl
      exact absurd hd (by decide)
    rw [after, after, if_neg (hne hlower), if_neg (hne halpha)]

/-! ## Words -/

namespace Word

/-- A word with its ASCII letters in lower case. -/
def lowered (w : Word) : Word := { w with text := String.ofList (w.text.toList.map Char.toLower) }

/-- A scanner that has read everything in lower case. -/
def Scanner.lowered (s : Scanner) : Scanner where
  location := s.location
  pending := s.pending.map fun p => { p with letters := p.letters.map Char.toLower }
  found := s.found.map Word.lowered

theorem Scanner.close_lowered (s : Scanner) : s.lowered.close = s.close.map Word.lowered := by
  rcases s with ⟨l, _ | p, ws⟩
  · rfl
  · simp [Scanner.lowered, close, Word.lowered]

theorem Scanner.step_toLower (s : Scanner) (c : Char) :
    s.lowered.step c.toLower = (s.step c).lowered := by
  have hlocation : s.lowered.location.after c.toLower = s.location.after c :=
    Location.after_toLower s.location c
  cases hc : isWordChar c with
  | false =>
    rw [step_of_not_isWordChar _ hc, step_of_not_isWordChar _ (by rw [isWordChar_toLower, hc]),
      close_lowered, hlocation]
    rfl
  | true =>
    rw [step, step, if_pos hc, if_pos (by rw [isWordChar_toLower, hc]), hlocation]
    rcases s with ⟨l, _ | p, ws⟩ <;> rfl

theorem scanFrom_toLower (l : Location) (cs : List Char) :
    scanFrom l (cs.map Char.toLower) = (scanFrom l cs).map lowered := by
  have hfold : ∀ (cs : List Char) (s : Scanner),
      (cs.map Char.toLower).foldl Scanner.step s.lowered = (cs.foldl Scanner.step s).lowered := by
    intro cs
    induction cs with
    | nil => exact fun s => rfl
    | cons c cs ih =>
      intro s
      rw [List.map_cons, List.foldl_cons, List.foldl_cons, Scanner.step_toLower, ih]
  rw [scanFrom, scanFrom, List.map_reverse, ← Scanner.close_lowered, ← hfold]
  rfl

/-- Texts that differ only in the case of ASCII letters have words that differ only in that. -/
theorem map_lowered_scan_eq {s t : String} (h : s.toList.map Char.toLower = t.toList.map Char.toLower)
    (path : String) : (scan path s).map lowered = (scan path t).map lowered := by
  rw [scan_eq, scan_eq, ← scanFrom_toLower, ← scanFrom_toLower, h]

end Word

/-! ## Scores -/

namespace LetterScores

theorem score_lowered (s : LetterScores) (w : Word) : s.score w.lowered.text = s.score w.text := by
  have hlower : Text.lowerText (w.text.toList.map Char.toLower) = Text.lowerText w.text.toList := by
    rw [Text.lowerText, List.flatMap_map, Text.lowerText]
    simp only [Text.lower_toLower]
  rw [score, score, total, total, Word.lowered, String.toList_ofList, hlower]

/-- Texts that differ only in the case of ASCII letters have words of the same scores at the same
places. -/
theorem scan_of_toLower_eq (letters : LetterScores) {s t : String}
    (h : s.toList.map Char.toLower = t.toList.map Char.toLower) (path : String) :
    (Word.scan path s).map (fun w => letters.score w.text) =
        (Word.scan path t).map (fun w => letters.score w.text) ∧
      (Word.scan path s).map Word.location = (Word.scan path t).map Word.location := by
  have hmap : ∀ {α : Type} (f : Word → α), (∀ w, f w.lowered = f w) →
      (Word.scan path s).map f = (Word.scan path t).map f := by
    intro α f hf
    have heq := congrArg (List.map f) (Word.map_lowered_scan_eq h path)
    simpa only [List.map_map, Function.comp_def, hf] using heq
  exact ⟨hmap _ (score_lowered letters), hmap _ fun _ => rfl⟩

end LetterScores

end Beatnik
