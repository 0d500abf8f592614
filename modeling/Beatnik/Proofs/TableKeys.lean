import Beatnik.Proofs.LowerCase
import Beatnik.Proofs.WordScores

/-!
# Keys of tables

Characters are put into a table in lower case, and looked up in lower case.  What lower casing leads to is
its own lower case, so that each key of a table is found by a word of that one character:

    k ∈ (ofList es).table → Text.lower k = [k]                                    (lower_of_mem_table)

A character is worth, right after its insertion, the points that it was given, once for each character of
its lower case, whatever was in the table before (`share_insert`).
-/

namespace Beatnik

theorem Text.length_lower_le (c : Char) : (lower c).length ≤ 2 := by
  unfold lower
  split
  · exact Nat.le_refl 2
  · split
    · exact Nat.le_succ 1
    · exact Nat.le_succ 1

namespace LetterScores

/-- The keys of a table made by insertions are their own lower case. -/
theorem lower_of_mem_table {es : List (Char × UInt32)} {k : Char} (h : k ∈ (ofList es).table) :
    Text.lower k = [k] := by
  obtain ⟨e, -, hk⟩ := mem_table_ofList.1 h
  exact Text.lower_of_mem_lower hk

/-! ## Words of one character -/

theorem toInt_score_singleton (s : LetterScores) (c : Char) :
    (s.score (String.singleton c)).toInt = s.share c := by
  have htext : Text.lowerText (String.singleton c).toList = Text.lower c := by
    rw [String.toList_singleton, Text.lowerText, List.flatMap_singleton]
  have hlength := Text.length_lower_le c
  rw [toInt_score_of_lt (by rw [htext]; omega), total_eq_worth, htext, share]

/-- A key that is its own lower case has its points for a share. -/
theorem share_of_mem_entries {s : LetterScores} {k : Char} {p : UInt32} (hk : Text.lower k = [k])
    (h : (k, p) ∈ s.entries) : s.share k = p.toNat := by
  have hpoints : s.points k = p := by
    rw [points, Std.ExtTreeMap.mem_toList_iff_getElem?_eq_some.1 h]
    rfl
  rw [share, hk, worth, List.map_singleton, List.sum_singleton, hpoints]

/-! ## Insertions -/

/-- An insertion gives its points to the characters of the lower case, and leaves all others. -/
theorem points_insert (s : LetterScores) (c d : Char) (p : UInt32) :
    (s.insert c p).points d = if d ∈ Text.lower c then p else s.points d := by
  -- all insertions of the fold have the same points, so their order does not matter
  have hfold : ∀ (ds : List Char) (t : Std.ExtTreeMap Char UInt32),
      (ds.foldl (fun t d => t.insert d p) t)[d]? = if d ∈ ds then some p else t[d]? := by
    intro ds
    induction ds with
    | nil => simp
    | cons e ds ih =>
      intro t
      rw [List.foldl_cons, ih, Std.ExtTreeMap.getElem?_insert]
      by_cases hd : d ∈ ds
      · rw [if_pos hd, if_pos (List.mem_cons_of_mem e hd)]
      · simp only [Std.LawfulEqCmp.compare_eq_iff_eq, List.mem_cons, hd, or_false, if_false,
          eq_comm (a := e)]
  rw [points, insert, hfold]
  by_cases hd : d ∈ Text.lower c
  · rw [if_pos hd, if_pos hd]
    rfl
  · rw [if_neg hd, if_neg hd]
    rfl

theorem share_insert (s : LetterScores) (c : Char) (p : UInt32) :
    (s.insert c p).share c = p.toNat * (Text.lower c).length := by
  have hpoints : ∀ d ∈ Text.lower c, ((s.insert c p).points d).toNat = p.toNat := by
    intro d hd
    rw [points_insert, if_pos hd]
  rw [share, worth, List.map_congr_left hpoints, List.map_const', List.sum_replicate, smul_eq_mul,
    Nat.mul_comm]

/-- **Every entry counts.**  In a table made by any insertions each key is its own lower case, and the word
of that one character has the points of the key for its score.  Right after an insertion the word of the
character that was inserted has the points it was given for a score, as many times as there are characters
in its lower case. -/
theorem entries_are_scores (es : List (Char × UInt32)) :
    (∀ k ∈ (ofList es).table, Text.lower k = [k]) ∧
    (∀ k p, (k, p) ∈ (ofList es).entries →
      ((ofList es).score (String.singleton k)).toInt = p.toNat) ∧
    ∀ c p, (((ofList es).insert c p).score (String.singleton c)).toInt =
      p.toNat * (Text.lower c).length := by
  refine ⟨fun k hk => lower_of_mem_table hk, fun k p hk => ?_, fun c p => ?_⟩
  · have hlower : Text.lower k = [k] := lower_of_mem_table (mem_table_of_mem_entries hk)
    rw [toInt_score_singleton, share_of_mem_entries hlower hk]
  · rw [toInt_score_singleton, share_insert, Int.natCast_mul]

/-- The sign of the unit kelvin is put in as `k`.  The letter `İ` is put in as `i` with a dot above, and the
points of that `i` are replaced after that. -/
theorem entries_are_scores_dotted :
    let s := ofList [('\u212A', 5), ('İ', 3), ('I', 2)]
    s.entries = [('i', 2), ('k', 5), ('\u0307', 3)] ∧
    Text.lower '\u0307' = ['\u0307'] ∧
    (s.score "k").toInt = 5 ∧ (s.score "i").toInt = 2 ∧ (s.score "\u0307").toInt = 3 ∧
    ((s.insert 'İ' 4).score "İ").toInt = 8 := by
  intro s
  have hentries : s.entries = [('i', 2), ('k', 5), ('\u0307', 3)] := by decide +kernel
  obtain ⟨hkeys, hscores, hinsert⟩ := entries_are_scores [('\u212A', 5), ('İ', 3), ('I', 2)]
  refine ⟨hentries, hkeys _ (by decide +kernel), ?_, ?_, ?_, ?_⟩
  · exact hscores 'k' 5 (by show _ ∈ s.entries; rw [hentries]; decide)
  · exact hscores 'i' 2 (by show _ ∈ s.entries; rw [hentries]; decide)
  · exact hscores '\u0307' 3 (by show _ ∈ s.entries; rw [hentries]; decide)
  · exact hinsert 'İ' 4

end LetterScores

end Beatnik
