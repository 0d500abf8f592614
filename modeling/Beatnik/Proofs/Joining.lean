import Beatnik.Proofs.Drafting
import Beatnik.Proofs.WordRuns

/-!
# Texts joined and taken apart

A separator takes a text apart: the words before it are those of the text before it, and the words after
it are those of the text after it, at places counted on from there (`Word.shift`).

    isWordChar c = false → scan path (a ++ c ++ b) =
      scan path a ++ (scan path b).map (Word.shift (ofPrefix path (a ++ c)))

A draft joins its words with spaces, so its text has the words of each of them.  A draft made of tokens is
scanned back; a word of a draft that is no token stands for all the words in it, or for none.  Both are
stated in `scan_distributes`.
-/

namespace Beatnik.Draft

theorem toList_append (d : Draft) (ws : List String) :
    (d.append ws).words.toList = d.words.toList ++ ws := by
  induction ws generalizing d with
  | nil => exact (List.append_nil _).symm
  | cons w ws ih =>
    show ((d.word w).append ws).words.toList = _
    rw [ih, toList_word, List.append_assoc, List.singleton_append]

/-- **Scanning distributes over separators.**  The words of two texts with a separator between them are
the words of the first and those of the second, which are moved by the place reached after the separator.
So the text of a draft has the words of each string that the draft was given, and a draft of tokens is
scanned back. -/
theorem scan_distributes (path : String) :
    (∀ (a b : String) (c : Char), Word.isWordChar c = false →
      Word.scan path (a ++ String.singleton c ++ b) = Word.scan path a ++
        (Word.scan path b).map (Word.shift (.ofPrefix path (a.toList ++ [c])))) ∧
    ∀ (d : Draft) (ws : List String),
      (Word.scan path (d.append ws).text).map Word.text =
        (d.words.toList ++ ws).flatMap (fun w => (Word.scan path w).map Word.text) ∧
      ((∀ w ∈ d.words.toList ++ ws, Word.IsToken w) →
        (Word.scan path (d.append ws).text).map Word.text = d.words.toList ++ ws) := by
  refine ⟨fun a b c hc => ?_, fun d ws => ?_⟩
  · rw [Word.scan_append path a b hc, ← Location.ofPrefix_nil, Location.afterText_ofPrefix,
      List.nil_append]
  · rw [text, toList_append]
    exact ⟨Word.text_scan_joined path _, fun htokens => Word.text_scan_intercalate _ htokens path⟩

/-- A dash after two letters of the second line: `u` and `v` are moved by these three columns, and `w`,
which is in a line of its own, is not.  Of three strings given to a draft one has two words, one has none
and one is a word between separators. -/
theorem scan_distributes_second_line :
    Word.isWordChar '-' = false ∧
    Word.scan "p" "x\nyz-u v\nw" = Word.scan "p" "x\nyz" ++
      [⟨⟨"p", 2, 4⟩, "u"⟩, ⟨⟨"p", 2, 6⟩, "v"⟩, ⟨⟨"p", 3, 1⟩, "w"⟩] ∧
    (Word.scan "p" (({} : Draft).append ["a b", "", "-c?"]).text).map Word.text = ["a", "b", "c"] ∧
    (∀ w ∈ ["k", "a_1"], Word.IsToken w) ∧
    (Word.scan "p" (({} : Draft).append ["k", "a_1"]).text).map Word.text = ["k", "a_1"] := by
  obtain ⟨hseparator, hdraft⟩ := scan_distributes "p"
  have htokens : ∀ w ∈ ["k", "a_1"], Word.IsToken w := by
    intro w hw
    rcases List.mem_pair.1 hw with rfl | rfl
    · decide
    · decide
  refine ⟨by decide, ?_, ?_, htokens, (hdraft {} _).2 htokens⟩
  · have hmoved : (Word.scan "p" "u v\nw").map (Word.shift (.ofPrefix "p" ("x\nyz".toList ++ ['-']))) =
        [⟨⟨"p", 2, 4⟩, "u"⟩, ⟨⟨"p", 2, 6⟩, "v"⟩, ⟨⟨"p", 3, 1⟩, "w"⟩] := by decide +kernel
    rw [← hmoved]
    exact hseparator "x\nyz" "u v\nw" '-' (by decide)
  · have hwords : ["a b", "", "-c?"].flatMap (fun w => (Word.scan "p" w).map Word.text) =
        ["a", "b", "c"] := by decide +kernel
    rw [← hwords]
    exact (hdraft {} _).1

end Beatnik.Draft
