import Beatnik.Proofs.LetterCase

/-!
# Scores of words

Each character of a word adds a share of its own to the word's points, the points of its lower case
(`share`).  The shares are added up, so neither their order matters nor the case of ASCII letters, nor
characters that the table does not know, which have no share:

    s.total w = (w.toList.map s.share).sum                                              (total_eq_sum)
    s.score (u ++ v) = s.score u + s.score v                                            (score_append)

A score may leave the range of values only for words of 2^31 characters in lower case, or more.  For any
other word the points can be added one after the other, and every sum on the way is a value
(`addUp?_of_lt`).
-/

namespace Beatnik

/-! ## Words of a text -/

namespace Word

theorem lt_of_isWordChar {c : Char} (h : isWordChar c = true) : c.toNat < 128 := by
  rw [isWordChar, Char.isAlphanum, Bool.or_eq_true, Bool.or_eq_true, Text.isAlpha_iff] at h
  rcases h with (h | h) | h
  · omega
  · simp only [Char.isDigit, Bool.and_eq_true, decide_eq_true_eq, UInt32.le_iff_toNat_le] at h
    exact Nat.lt_of_le_of_lt h.2 (by decide)
  · rw [beq_iff_eq.1 h]
    decide

/-- A word of a text has as many characters in lower case. -/
theorem IsToken.length_lowerText {t : String} (h : IsToken t) :
    (Text.lowerText t.toList).length = t.length := by
  have hlower : ∀ c ∈ t.toList, (Text.lower c).length = 1 := by
    intro c hc
    rw [Text.lower_of_lt (lt_of_isWordChar (h.2 c hc))]
    rfl
  rw [Text.lowerText, List.length_flatMap, List.map_congr_left hlower, List.map_const',
    List.sum_replicate, smul_eq_mul, mul_one, String.length_toList]

/-- A character many times over, and another one after them. -/
def longText (n : Nat) (c d : Char) : String := String.ofList (List.replicate n c ++ [d])

theorem length_longText (n : Nat) (c d : Char) : (longText n c d).length = n + 1 := by
  rw [longText, String.length_ofList, List.length_append, List.length_replicate, List.length_singleton]

theorem isToken_longText {n : Nat} {c d : Char} (hc : isWordChar c = true) (hd : isWordChar d = true) :
    IsToken (longText n c d) := by
  constructor
  · intro h
    have hlength := length_longText n c d
    rw [h, String.length_empty] at hlength
    omega
  · intro e he
    rw [longText, String.toList_ofList] at he
    rcases List.mem_append.1 he with hmany | hlast
    · rwa [List.eq_of_mem_replicate hmany]
    · rwa [List.mem_singleton.1 hlast]

end Word

namespace LetterScores

/-! ## Shares -/

/-- What a character adds to the points of a word. -/
def share (s : LetterScores) (c : Char) : Nat := s.worth (Text.lower c)

/-- Whether the table has points for any part of a character's lower case. -/
def knows (s : LetterScores) (c : Char) : Bool := (Text.lower c).any (· ∈ s.table)

theorem worth_append (s : LetterScores) (cs ds : List Char) :
    s.worth (cs ++ ds) = s.worth cs + s.worth ds := by
  rw [worth, List.map_append, List.sum_append]
  rfl

theorem worth_lowerText (s : LetterScores) (cs : List Char) :
    s.worth (Text.lowerText cs) = (cs.map s.share).sum := by
  induction cs with
  | nil => rfl
  | cons c cs ih =>
    rw [Text.lowerText, List.flatMap_cons, worth_append, List.map_cons, List.sum_cons, ← ih]
    rfl

theorem total_eq_sum (s : LetterScores) (w : String) : s.total w = (w.toList.map s.share).sum := by
  rw [total_eq_worth, worth_lowerText]

theorem share_toLower (s : LetterScores) (c : Char) : s.share c.toLower = s.share c := by
  rw [share, share, Text.lower_toLower]

theorem share_of_not_knows {s : LetterScores} {c : Char} (h : s.knows c = false) : s.share c = 0 := by
  have hpoints : ∀ d ∈ Text.lower c, (s.points d).toNat = 0 := by
    intro d hd
    have hnot : d ∉ s.table := by simpa using List.any_eq_false.1 h d hd
    rw [points, Std.ExtTreeMap.getElem?_eq_none hnot]
    rfl
  rw [share, worth, List.map_congr_left hpoints, List.map_const', List.sum_replicate, smul_zero]

theorem total_longText (s : LetterScores) (n : Nat) (c d : Char) :
    s.total (Word.longText n c d) = n * s.share c + s.share d := by
  rw [total_eq_sum, Word.longText, String.toList_ofList, List.map_append, List.map_replicate,
    List.sum_append, List.sum_replicate, smul_eq_mul, List.map_singleton, List.sum_singleton]

/-! ## Words with the same score -/

section

variable (s : LetterScores)

theorem score_eq_of_sum {u v : String}
    (h : (u.toList.map s.share).sum = (v.toList.map s.share).sum) : s.score u = s.score v := by
  rw [score, score, total_eq_sum, total_eq_sum, h]

theorem score_append (u v : String) : s.score (u ++ v) = s.score u + s.score v := by
  rw [score, total_append, Int64.ofNat_add]
  rfl

theorem score_of_perm {u v : String} (h : u.toList.Perm v.toList) : s.score u = s.score v :=
  s.score_eq_of_sum (h.map s.share).sum_eq

theorem score_of_toLower_eq {u v : String}
    (h : u.toList.map Char.toLower = v.toList.map Char.toLower) : s.score u = s.score v := by
  have hshare : s.share = s.share ∘ Char.toLower := funext fun c => (s.share_toLower c).symm
  apply score_eq_of_sum
  rw [hshare, ← List.map_map, ← List.map_map, h]

theorem sum_share_filter_knows (cs : List Char) :
    ((cs.filter s.knows).map s.share).sum = (cs.map s.share).sum := by
  induction cs with
  | nil => rfl
  | cons c cs ih =>
    cases hc : s.knows c with
    | true => rw [List.filter_cons_of_pos hc, List.map_cons, List.map_cons, List.sum_cons,
        List.sum_cons, ih]
    | false => rw [List.filter_cons_of_neg (by simp [hc]), ih, List.map_cons, List.sum_cons,
        share_of_not_knows hc, zero_add]

/-- Words with the same known characters in the same order have the same score, whatever other characters
stand between them. -/
theorem score_of_filter_knows_eq {u v : String}
    (h : u.toList.filter s.knows = v.toList.filter s.knows) : s.score u = s.score v := by
  apply score_eq_of_sum
  rw [← sum_share_filter_knows, h, sum_share_filter_knows]

end

/-! ## Bounds -/

/-- Adds up the points of characters, one after the other.  There is no result if a sum on the way is no
value. -/
def addUp? (s : LetterScores) (cs : List Char) : Option Value :=
  cs.foldlM (fun n c => Value.add? n (Int64.ofNat (s.points c).toNat)) 0

theorem worth_lt {s : LetterScores} {cs : List Char} (h : cs.length < 2 ^ 31) : s.worth cs < 2 ^ 63 := by
  have hle := s.worth_le cs
  omega

/-- The score of a word of fewer than 2^31 characters in lower case is the sum of its points. -/
theorem toInt_score_of_lt {s : LetterScores} {w : String}
    (h : (Text.lowerText w.toList).length < 2 ^ 31) : (s.score w).toInt = s.total w := by
  have hlt := worth_lt (s := s) h
  rw [← total_eq_worth] at hlt
  exact Int64.toInt_ofNat_of_lt hlt

/-- Without a sum that is no value, scores are added up as integers are. -/
theorem toInt_score_append {s : LetterScores} {u v : String}
    (h : (Text.lowerText (u ++ v).toList).length < 2 ^ 31) :
    (s.score (u ++ v)).toInt = (s.score u).toInt + (s.score v).toInt := by
  have hlength : (Text.lowerText (u ++ v).toList).length =
      (Text.lowerText u.toList).length + (Text.lowerText v.toList).length := by
    rw [Text.lowerText, String.toList_append, List.flatMap_append, List.length_append]
    rfl
  rw [toInt_score_of_lt h, toInt_score_of_lt (by omega), toInt_score_of_lt (by omega), total_append,
    Int.natCast_add]

theorem add?_ofNat {n k : Nat} (h : n + k < 2 ^ 63) :
    Value.add? (Int64.ofNat n) (Int64.ofNat k) = some (Int64.ofNat (n + k)) := by
  rw [Value.add?, Int64.toInt_ofNat_of_lt (by omega), Int64.toInt_ofNat_of_lt (by omega), Value.ofInt?,
    if_pos (by unfold Value.least Value.greatest; omega), ← Int.natCast_add, Int64.ofInt_eq_ofNat]

theorem addUp?_of_lt {s : LetterScores} {cs : List Char} (h : s.worth cs < 2 ^ 63) :
    s.addUp? cs = some (Int64.ofNat (s.worth cs)) := by
  -- the sum so far and the points still to come make up all points
  have hfold : ∀ (cs : List Char) (n : Nat), n + s.worth cs < 2 ^ 63 →
      cs.foldlM (fun n c => Value.add? n (Int64.ofNat (s.points c).toNat)) (Int64.ofNat n) =
        some (Int64.ofNat (n + s.worth cs)) := by
    intro cs
    induction cs with
    | nil => exact fun n _ => rfl
    | cons c cs ih =>
      intro n hn
      have hcons : s.worth (c :: cs) = (s.points c).toNat + s.worth cs := by
        rw [worth, List.map_cons, List.sum_cons]
        rfl
      rw [hcons, ← Nat.add_assoc] at hn ⊢
      rw [List.foldlM_cons, add?_ofNat (by omega)]
      exact ih _ hn
  have hall := hfold cs 0 (by omega)
  rwa [Nat.zero_add] at hall

/-! ## Sums -/

/-- **Scores are sums.**  The score of one word after another is the sum of their scores.  A word keeps its
score in any order of its characters, in any case of its ASCII letters, and with any characters put in or
left out that the table does not know.  The score of a word with fewer than 2^31 characters in lower case
is at least 0 and at most the largest number of points for each of them.  The points of such a word can be
added up without leaving the range of values, and the score is what they add up to. -/
theorem score_is_sum (s : LetterScores) (u v : String) :
    s.score (u ++ v) = s.score u + s.score v ∧
    ((Text.lowerText (u ++ v).toList).length < 2 ^ 31 →
      (s.score (u ++ v)).toInt = (s.score u).toInt + (s.score v).toInt) ∧
    (u.toList.Perm v.toList → s.score u = s.score v) ∧
    (u.toList.map Char.toLower = v.toList.map Char.toLower → s.score u = s.score v) ∧
    (u.toList.filter s.knows = v.toList.filter s.knows → s.score u = s.score v) ∧
    ((Text.lowerText u.toList).length < 2 ^ 31 →
      0 ≤ (s.score u).toInt ∧
      (s.score u).toInt ≤ (2 ^ 32 - 1) * (Text.lowerText u.toList).length ∧
      s.addUp? (Text.lowerText u.toList) = some (s.score u)) := by
  refine ⟨s.score_append u v, toInt_score_append, s.score_of_perm, s.score_of_toLower_eq,
    s.score_of_filter_knows_eq, fun h => ?_⟩
  have hle := s.worth_le (Text.lowerText u.toList)
  have hadd := addUp?_of_lt (worth_lt (s := s) h)
  rw [← total_eq_worth] at hle hadd
  rw [toInt_score_of_lt h]
  exact ⟨by omega, by omega, hadd⟩

/-- Two letters of the first word have the largest number of points.  The others have the same letters up
to their order, their case and a hyphen, which the table does not know. -/
theorem score_is_sum_largest_points :
    let s := LetterScores.ofList [('a', 4294967295), ('b', 7)]
    s.score ("aB-a" ++ "b") = s.score "aB-a" + s.score "b" ∧
    (s.score ("aB-a" ++ "b")).toInt = (s.score "aB-a").toInt + (s.score "b").toInt ∧
    s.score "aB-a" = s.score "-aaB" ∧ s.score "aB-a" = s.score "Ab-A" ∧
    s.score "aB-a" = s.score "aBa" ∧
    (s.score "aB-a").toInt = 8589934597 ∧ (s.score "aB-a").toInt ≤ (2 ^ 32 - 1) * 4 ∧
    s.addUp? ['a', 'b', '-', 'a'] = some (s.score "aB-a") := by
  intro s
  have hlower : Text.lowerText "aB-a".toList = ['a', 'b', '-', 'a'] := by decide +kernel
  obtain ⟨happend, hsum, -, -, -, hbounds⟩ := s.score_is_sum "aB-a" "b"
  obtain ⟨-, hle, hadd⟩ := hbounds (by rw [hlower]; decide)
  rw [hlower] at hle hadd
  refine ⟨happend, hsum (by decide +kernel), ?_, ?_, ?_, by decide +kernel, hle, hadd⟩
  · exact (s.score_is_sum "aB-a" "-aaB").2.2.1 (by decide)
  · exact (s.score_is_sum "aB-a" "Ab-A").2.2.2.1 (by decide)
  · exact (s.score_is_sum "aB-a" "aBa").2.2.2.2.1 (by decide +kernel)

end LetterScores

end Beatnik
