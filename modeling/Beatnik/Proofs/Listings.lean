import Beatnik.CommandLine.Perform
import Beatnik.Proofs.Dictionaries
import Beatnik.Proofs.Drafting
import Beatnik.Proofs.Machine.SameScores

/-!
# Tables listed in any order

What is computed from the entries of a table is computed from a list of them, in the order in which they
happen to be listed.  Any other order gives the same, for what is computed is sorted or a minimum:

    l.Perm k → lettersIn l = lettersIn k                                          (lettersIn_of_perm)
    b.Perm c → lowestIn? b a = lowestIn? c a                                      (lowestIn?_of_perm)
    b.Perm c → scoresIn b a = scoresIn c a                                         (scoresIn_of_perm)
    es.Perm d.entries → inOrder es = d.entries                               (Holds.inOrder_of_perm)

Nor does it matter how a table came about.  Two tables of points may differ in characters that have no
points; their letters are the same (`letters_congr`).  Two tables of actions with the same bindings are
the same table.
-/

namespace Beatnik

/-- Lists of the same members are sorted alike, if the order tells the members apart. -/
theorem mergeSort_eq_of_perm {α : Type} {le : α → α → Bool} {l k : List α}
    (htrans : ∀ a b c, le a b = true → le b c = true → le a c = true)
    (htotal : ∀ a b, (le a b || le b a) = true)
    (hantisymm : ∀ a ∈ k, ∀ b ∈ k, le a b = true → le b a = true → a = b) (h : l.Perm k) :
    l.mergeSort le = k.mergeSort le := by
  have hsorted := List.pairwise_mergeSort htrans htotal
  refine List.Perm.eq_of_pairwise (fun a b ha hb => ?_) (hsorted l) (hsorted k) ?_
  · exact hantisymm a (h.mem_iff.1 (List.mem_mergeSort.1 ha)) b (List.mem_mergeSort.1 hb)
  · calc
      (l.mergeSort le).Perm l := List.mergeSort_perm l le
      l.Perm k := h
      k.Perm (k.mergeSort le) := (List.mergeSort_perm k le).symm

theorem mergeSort_key_eq_of_perm {α κ : Type} [LE κ] [DecidableLE κ] [Std.IsLinearOrder κ]
    (key : α → κ) {l k : List α} (hkey : ∀ a ∈ k, ∀ b ∈ k, key a = key b → a = b) (h : l.Perm k) :
    l.mergeSort (fun a b => key a ≤ key b) = k.mergeSort fun a b => key a ≤ key b := by
  refine mergeSort_eq_of_perm (fun a b c hab hbc => ?_) (fun a b => ?_) (fun a ha b hb hab hba => ?_) h
  · rw [decide_eq_true_eq] at hab hbc ⊢
    exact Std.le_trans hab hbc
  · rw [Bool.or_eq_true, decide_eq_true_eq, decide_eq_true_eq]
    exact Std.le_total
  · rw [decide_eq_true_eq] at hab hba
    exact hkey a ha b hb (Std.le_antisymm hab hba)

/-! ## Points of characters -/

namespace Spelling

theorem precedes_antisymm {a b : Letter} (hab : a.precedes b = true) (hba : b.precedes a = true) :
    a = b := by
  rw [precedes_iff] at hab hba
  have hpoints : a.points = b.points := by omega
  have hchar : a.char = b.char := by
    rcases hab with hlt | ⟨-, hab⟩
    · omega
    · rcases hba with hlt | ⟨-, hba⟩
      · omega
      · exact Char.le_antisymm hab hba
  obtain ⟨c, p⟩ := a
  obtain ⟨d, q⟩ := b
  rw [show c = d from hchar, show p = q from hpoints]

theorem lettersIn_of_perm {l k : List (Char × UInt32)} (h : l.Perm k) : lettersIn l = lettersIn k :=
  mergeSort_eq_of_perm precedes_trans precedes_total (fun _ _ _ _ => precedes_antisymm)
    ((h.filter _).map _)

theorem nodup_letters (s : LetterScores) : (letters s).Nodup := by
  rw [letters, lettersIn, List.nodup_mergeSort]
  refine List.pairwise_map.2 (List.Pairwise.filter _ ?_)
  refine Std.ExtTreeMap.distinct_keys_toList.imp fun hne heq => hne ?_
  rw [Std.LawfulEqCmp.compare_eq_iff_eq]
  exact congrArg Letter.char heq

/-- The letters depend on the points of characters only, and not on the characters that stand in the
table without points. -/
theorem letters_congr {s t : LetterScores} (h : ∀ c, s.points c = t.points c) :
    letters s = letters t := by
  refine List.Perm.eq_of_pairwise (fun _ _ _ _ => precedes_antisymm) (pairwise_lettersIn s.entries)
    (pairwise_lettersIn t.entries) ?_
  refine (List.perm_ext_iff_of_nodup (nodup_letters s) (nodup_letters t)).2 fun l => ?_
  rw [mem_letters, mem_letters, h]

end Spelling

namespace LetterScores

variable {s t : LetterScores} (h : ∀ c, s.points c = t.points c)

include h

theorem score_congr (w : String) : s.score w = t.score w := by
  have hpoints : s.points = t.points := funext h
  rw [score, score, total, total, hpoints]

/-- Tables with the same points spell the same word or fail for the same cause, in whatever order the
entries of the one are listed. -/
theorem spellWith_of_perm {l : List (Char × UInt32)} (hl : l.Perm s.entries) (score : Value) :
    s.spellWith (Spelling.lettersIn l) score = t.spell score := by
  have hletters : Spelling.lettersIn l = Spelling.letters t :=
    (Spelling.lettersIn_of_perm hl).trans (Spelling.letters_congr h)
  rw [hletters, spell, spellWith, spellWith, score_congr h]

end LetterScores

/-! ## Scores of actions -/

namespace ActionScores

theorem selecting_of_perm {b c : List (Value × Action)} (h : b.Perm c) (a : Action) :
    (selecting b a).Perm (selecting c a) :=
  (h.filter _).map _

theorem lowestIn?_of_perm {b c : List (Value × Action)} (h : b.Perm c) (a : Action) :
    lowestIn? b a = lowestIn? c a := by
  have hmem : ∀ n, n ∈ selecting b a ↔ n ∈ selecting c a := fun n =>
    (selecting_of_perm h a).mem_iff
  apply Option.ext
  intro n
  rw [lowestIn?, lowestIn?, List.min?_eq_some_iff, List.min?_eq_some_iff]
  simp only [hmem]

theorem scoresIn_of_perm {b c : List (Value × Action)} (h : b.Perm c) (a : Action) :
    scoresIn b a = scoresIn c a :=
  mergeSort_key_eq_of_perm (fun n : Value => n) (fun _ _ _ _ heq => heq) (selecting_of_perm h a)

/-- A table is its bindings. -/
theorem eq_of_action? {s t : ActionScores} (h : ∀ n, s.action? n = t.action? n) : s = t := by
  obtain ⟨s⟩ := s
  obtain ⟨t⟩ := t
  rw [show s = t from Std.ExtTreeMap.ext_getElem? fun n => h n]

end ActionScores

/-! ## Entries of actions -/

theorem Dictionary.Holds.inOrder_of_perm {d : Dictionary} {entry : Action → Dictionary.Entry}
    (h : d.Holds entry) (haction : ∀ a, (entry a).action = a) {es : List Dictionary.Entry}
    (hes : es.Perm d.entries) : Dictionary.inOrder es = d.entries := by
  have hmem : ∀ e ∈ d.table.toList.map (·.2), e = entry e.action := by
    rw [h.toList_table, List.map_map]
    intro e he
    obtain ⟨a, -, rfl⟩ := List.mem_map.1 he
    exact congrArg entry (haction a).symm
  refine mergeSort_key_eq_of_perm (fun e => e.action.rank) (fun e he f hf hrank => ?_)
    (hes.trans (List.mergeSort_perm _ _))
  rw [hmem e he, hmem f hf, Action.rank_injective hrank]

/-! ## Results -/

/-- Adds a word that selects an action, with the entries of both tables listed in some order. -/
def Draft.instructionBy (l : List (Char × UInt32)) (b : List (Value × Action)) (a : Action) : Edit :=
  fun d =>
    match ActionScores.lowestIn? b a with
    | some score =>
      match d.letters.spellWith (Spelling.lettersIn l) score with
      | .ok w => .ok () (d.word w)
      | .error fault => .error fault d
    | none => .error (.unselectedAction a) d

/-- How a change of a draft ends, and the words that it leaves. -/
def Draft.ending : EStateM.Result Fault Draft Unit → Except Fault Unit × Array String
  | .ok () d => (.ok (), d.words)
  | .error fault d => (.error fault, d.words)

theorem Draft.ending_instructionBy {d d' : Draft} {l : List (Char × UInt32)}
    {b : List (Value × Action)} (hpoints : ∀ c, d.letters.points c = d'.letters.points c)
    (hactions : d.actions = d'.actions) (hwords : d.words = d'.words) (hl : l.Perm d.letters.entries)
    (hb : b.Perm d.actions.entries) (a : Action) :
    ending (instructionBy l b a d) = ending (instruction a d') := by
  have hscore : ActionScores.lowestIn? b a = d'.actions.score? a := by
    rw [ActionScores.lowestIn?_of_perm hb, hactions, ActionScores.score?]
  rw [instructionBy, instruction, hscore]
  cases d'.actions.score? a with
  | none => simp only [ending, hwords]
  | some score =>
    dsimp only
    rw [LetterScores.spellWith_of_perm hpoints hl, number]
    cases d'.letters.spell score with
    | error fault => simp only [ending, hwords]
    | ok t => simp only [ending, word, hwords]

/-- Under tables with the same points a program runs alike, and fails alike at the same place. -/
theorem Machine.runs_of_points {s t : LetterScores} (h : ∀ c, s.points c = t.points c) (m : Machine)
    (fuel : Nat) (text : String) :
    Option.Rel (Agree Alike) (run fuel { m with letters := s } text)
      (run fuel { m with letters := t } text) ∧
    (run fuel { m with letters := s } text).bind failure? =
      (run fuel { m with letters := t } text).bind failure? := by
  have hscores : (Program.ofText text).map (fun w => s.score w.text) =
      (Program.ofText text).map fun w => t.score w.text := by
    simp only [LetterScores.score_congr h]
  exact ⟨rel_run (m := { m with letters := s }) (n := { m with letters := t }) hscores rfl rfl rfl rfl
      rfl fuel,
    failure?_run (m := { m with letters := s }) (n := { m with letters := t }) hscores rfl rfl rfl rfl
      rfl rfl fuel⟩

open Machine in
/-- **Contents are all that matters.**  Let two tables of points give the same points to every character,
and two tables of actions the same action to every score, however they were built; and let the entries of
the first of each pair, and those of the dictionary, be listed in any order.  Then words have the same
scores, and a score is spelled by the same word or not for the same cause.  An action has the same lowest
score, a draft gets the same word for it, every run is the same, and so is the listing of the actions. -/
theorem results_of_contents {es fs l : List (Char × UInt32)} {bs cs b : List (Value × Action)}
    {entries : List Dictionary.Entry}
    (hpoints : ∀ c, (LetterScores.ofList es).points c = (LetterScores.ofList fs).points c)
    (hactions : ∀ n, (ActionScores.ofList bs).action? n = (ActionScores.ofList cs).action? n)
    (hl : l.Perm (LetterScores.ofList es).entries) (hb : b.Perm (ActionScores.ofList bs).entries)
    (hentries : entries.Perm Dictionary.builtIn.entries) :
    (∀ w, (LetterScores.ofList es).score w = (LetterScores.ofList fs).score w) ∧
    (∀ n, (LetterScores.ofList es).spellWith (Spelling.lettersIn l) n =
      (LetterScores.ofList fs).spell n) ∧
    (∀ a, ActionScores.lowestIn? b a = (ActionScores.ofList cs).score? a) ∧
    (∀ words a,
      Draft.ending
          (Draft.instructionBy l b a { letters := .ofList es, actions := .ofList bs, words }) =
        Draft.ending
          (Draft.instruction a { letters := .ofList fs, actions := .ofList cs, words })) ∧
    (∀ (m : Machine) (fuel : Nat) (files : Files) (path : String),
      runFile fuel files { m with actions := .ofList bs } path =
        runFile fuel files { m with actions := .ofList cs } path) ∧
    (∀ (m : Machine) (fuel : Nat) (text : String),
      run fuel { m with actions := .ofList bs } text = run fuel { m with actions := .ofList cs } text ∧
      Option.Rel (Agree Alike)
        (run fuel { m with letters := .ofList es, actions := .ofList bs } text)
        (run fuel { m with letters := .ofList fs, actions := .ofList cs } text) ∧
      (run fuel { m with letters := .ofList es, actions := .ofList bs } text).bind failure? =
        (run fuel { m with letters := .ofList fs, actions := .ofList cs } text).bind failure?) ∧
    CommandLine.actionLines (Dictionary.inOrder entries) b =
      CommandLine.actionListing .builtIn (.ofList cs) := by
  have htable : ActionScores.ofList bs = ActionScores.ofList cs := ActionScores.eq_of_action? hactions
  have hscore := LetterScores.score_congr hpoints
  refine ⟨hscore, fun n => LetterScores.spellWith_of_perm hpoints hl n, fun a => ?_,
    fun words a => ?_, fun m fuel files path => by rw [htable], fun m fuel text => ?_, ?_⟩
  · rw [ActionScores.lowestIn?_of_perm hb, htable, ActionScores.score?]
  · refine Draft.ending_instructionBy hpoints htable ?_ hl hb a
    rfl
  · rw [htable]
    exact ⟨rfl, runs_of_points hpoints { m with actions := .ofList cs } fuel text⟩
  · rw [CommandLine.actionListing, ← htable, CommandLine.actionLines, CommandLine.actionLines,
      Dictionary.holds_builtIn.inOrder_of_perm (fun _ => rfl) hentries]
    simp only [ActionScores.scoresIn_of_perm hb]

/-- Tables built in two ways each, one of them with a letter that has no points; and each of the three
tables listed in another order than its own. -/
theorem results_of_contents_three_listings :
    let points := LetterScores.ofList [('A', 3), ('b', 0)]
    let actions := ActionScores.ofList [(3, .push), (5, .push), (7, .push)]
    let bindings : List (Value × Action) := [(7, .push), (3, .push), (5, .push)]
    points.size = 2 ∧
    points.spellWith (Spelling.lettersIn [('b', 0), ('a', 3)]) 6 =
      (LetterScores.ofList [('a', 1), ('a', 3)]).spell 6 ∧
    points.spell 6 = .ok "aa" ∧
    ActionScores.lowestIn? bindings .push = actions.score? .push ∧
    actions.score? .push = some 3 ∧
    CommandLine.actionLines (Dictionary.inOrder Dictionary.builtIn.entries.reverse) bindings =
      CommandLine.actionListing .builtIn actions := by
  intro points actions bindings
  have hpoints : ∀ c, points.points c = (LetterScores.ofList [('a', 1), ('a', 3)]).points c := by
    have hlower : Text.lower 'A' = ['a'] ∧ Text.lower 'a' = ['a'] ∧ Text.lower 'b' = ['b'] := by decide
    intro c
    simp only [points, LetterScores.ofList, LetterScores.insert, LetterScores.points, hlower,
      List.foldl_cons, List.foldl_nil, Std.ExtTreeMap.getElem?_insert,
      Std.LawfulEqCmp.compare_eq_iff_eq]
    grind
  have hactions : ∀ n, (ActionScores.ofList [(5, .add), (7, .push), (3, .push), (5, .push)]).action? n =
      actions.action? n := by
    intro n
    simp only [actions, ActionScores.ofList, ActionScores.insert, ActionScores.action?,
      List.foldl_cons, List.foldl_nil, Std.ExtTreeMap.getElem?_insert,
      Std.LawfulEqCmp.compare_eq_iff_eq]
    grind
  obtain ⟨-, hspell, hlowest, -, -, -, hlines⟩ := results_of_contents (l := [('b', 0), ('a', 3)])
    (b := bindings) hpoints hactions (by decide +kernel) (by decide +kernel)
    (List.reverse_perm Dictionary.builtIn.entries)
  exact ⟨by decide +kernel, hspell 6, by cbv, hlowest .push, by decide +kernel, hlines⟩

end Beatnik
