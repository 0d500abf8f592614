import Beatnik.Proofs.Drafting
import Beatnik.Proofs.CommandLine.Grammar
import Beatnik.Proofs.Tables.RoundTrip

/-!
# The listing of actions

The listing can be read back (`readListing?`): each line names an action after the scores that select
it.  What is read is each action once, in the order of actions, with its scores in increasing order:

    readListing? (actionListing .builtIn s) =
      some (Action.all.map fun a => (a, s.scoresOf a))                       (readListing?_actionListing)

The scores of the actions divide the scores of the table among them, so that each of these stands in the
listing exactly once (`count_scoresOf`).
-/

namespace Beatnik

/-! ## The scores of an action -/

namespace ActionScores

variable (s : ActionScores) (a : Action)

theorem mem_scoresOf {s : ActionScores} {a : Action} {n : Value} :
    n ∈ s.scoresOf a ↔ s.action? n = some a := by
  rw [scoresOf, scoresIn, List.mem_mergeSort, mem_selecting]

theorem nodup_scoresOf : (s.scoresOf a).Nodup := by
  rw [scoresOf, scoresIn, List.nodup_mergeSort]
  refine List.pairwise_map.2 (List.Pairwise.filter _ ?_)
  refine Std.ExtTreeMap.distinct_keys_toList.imp fun hne heq => hne ?_
  rw [Std.LawfulEqCmp.compare_eq_iff_eq]
  exact heq

theorem pairwise_scoresOf : (s.scoresOf a).Pairwise (· < ·) := by
  have hsorted : (s.scoresOf a).Pairwise (· ≤ ·) := by
    refine (List.pairwise_mergeSort (fun m n k hmn hnk => ?_) (fun m n => ?_) _).imp of_decide_eq_true
    · rw [decide_eq_true_eq] at hmn hnk ⊢
      exact Std.le_trans hmn hnk
    · rw [Bool.or_eq_true, decide_eq_true_eq, decide_eq_true_eq]
      exact Std.le_total
  exact (hsorted.and (nodup_scoresOf s a)).imp fun ⟨hle, hne⟩ => Std.lt_of_le_of_ne hle hne

/-- The first score of an action is its lowest. -/
theorem head?_scoresOf : (s.scoresOf a).head? = s.score? a := by
  have hperm : (s.scoresOf a).Perm (selecting s.entries a) := List.mergeSort_perm _ _
  have hsorted := pairwise_scoresOf s a
  cases hscores : s.scoresOf a with
  | nil =>
    rw [hscores] at hperm
    rw [score?, lowestIn?, ← hperm.nil_eq]
    rfl
  | cons n rest =>
    rw [hscores] at hperm hsorted
    refine (List.min?_eq_some_iff.2 ⟨hperm.mem_iff.1 List.mem_cons_self, fun m hm => ?_⟩).symm
    rcases List.mem_cons.1 (hperm.mem_iff.2 hm) with rfl | hm
    · exact Std.le_refl m
    · exact Std.le_of_lt (List.rel_of_pairwise_cons hsorted hm)

/-- Every score of the table is a score of one action, and listed with it once. -/
theorem count_scoresOf (n : Value) :
    (Action.all.flatMap s.scoresOf).count n = if (s.action? n).isSome then 1 else 0 := by
  have hnodup : (Action.all.flatMap s.scoresOf).Nodup := by
    refine List.nodup_flatMap.2 ⟨fun a _ => nodup_scoresOf s a, ?_⟩
    have hall : Action.all.Nodup := by decide
    refine hall.imp fun {a b} hne n ha hb => hne ?_
    rw [mem_scoresOf] at ha hb
    exact Option.some.inj (ha.symm.trans hb)
  have hmem : n ∈ Action.all.flatMap s.scoresOf ↔ (s.action? n).isSome = true := by
    simp only [List.mem_flatMap, mem_scoresOf, Action.mem_all, true_and, Option.isSome_iff_exists]
  split
  · next hsome => exact List.count_eq_one_of_mem hnodup (hmem.2 hsome)
  · next hnone => exact List.count_eq_zero_of_not_mem fun h => hnone (hmem.1 h)

end ActionScores

namespace CommandLine

/-! ## Reading a listing -/

/-- The parts of a line, which spaces separate. -/
def fields (line : List Char) : List (List Char) := (line.splitOn ' ').filter (· ≠ [])

def named? (field : List Char) : Option Action := Action.all.find? fun a => a.name.toList == field

/-- The action that a line names, with the scores before the name if there are any. -/
def readLine? (line : List Char) : Option (Action × List Value) :=
  match fields line with
  | [] => none
  | first :: rest =>
    match named? first with
    | some a => some (a, [])
    | none => do
      let scores ← (first.splitOn ',').mapM Text.value?
      let a ← rest.head?.bind named?
      return (a, scores)

/-- The actions and scores of a listing, line by line; each line is ended by a newline. -/
def readListing? (text : String) : Option (List (Action × List Value)) :=
  (text.toList.splitOn '\n').dropLast.mapM readLine?

theorem fields_append (a b : List Char) : fields (a ++ ' ' :: b) = fields a ++ fields b := by
  rw [fields, List.splitOn_append_cons_self, List.filter_append]
  rfl

theorem fields_word {w : List Char} (hne : w ≠ []) (h : ' ' ∉ w) : fields w = [w] := by
  rw [fields, List.splitOn_eq_singleton h]
  simp [hne]

theorem fields_spaces (n : Nat) (line : List Char) :
    fields (List.replicate n ' ' ++ line) = fields line := by
  induction n with
  | zero => rfl
  | succ n ih =>
    have hcons : List.replicate (n + 1) ' ' ++ line = [] ++ ' ' :: (List.replicate n ' ' ++ line) := rfl
    rw [hcons, fields_append, ih]
    rfl

theorem fields_pad (w : List Char) (n : Nat) (line : List Char) :
    fields (w ++ List.replicate n ' ' ++ ' ' :: line) = fields w ++ fields line := by
  rw [List.append_assoc, List.append_cons, ← List.replicate_succ', List.replicate_succ, List.cons_append,
    fields_append, fields_spaces]

theorem named?_name (a : Action) : named? a.name.toList = some a := by
  cases a <;> decide

theorem named?_eq_none {field : List Char} {c : Char} (hc : c ∈ field) (hne : c.isAlpha = false) :
    named? field = none := by
  refine List.find?_eq_none.2 fun a _ heq => ?_
  rw [← eq_of_beq heq] at hc
  rw [(a.isAlpha_name c hc).1] at hne
  cases hne

/-! ## Lines of a listing -/

/-- The column of scores without the spaces before it. -/
def column (scores : List Value) : List Char := [','].intercalate (scores.map fun n => n.render.toList)

theorem not_mem_render {c : Char} (hc : Text.solid.contains c = false) (n : Value) :
    c ∉ n.render.toList := by
  intro hmem
  rw [n.solid_render c hmem] at hc
  cases hc

theorem splitOn_column {scores : List Value} (hne : scores ≠ []) :
    (column scores).splitOn ',' = scores.map fun n => n.render.toList := by
  refine List.splitOn_intercalate ',' ?_ (by simpa using hne)
  intro l hl
  obtain ⟨n, -, rfl⟩ := List.mem_map.1 hl
  exact not_mem_render (by decide +kernel) n

theorem mem_column {c : Char} {scores : List Value} (h : c ∈ column scores) :
    c = ',' ∨ ∃ n ∈ scores, c ∈ n.render.toList := by
  induction scores with
  | nil => cases h
  | cons n rest ih =>
    cases rest with
    | nil => exact .inr ⟨n, List.mem_cons_self, by simpa [column] using h⟩
    | cons m rest =>
      have hcolumn : column (n :: m :: rest) = n.render.toList ++ ',' :: column (m :: rest) := by
        simp [column]
      rw [hcolumn, List.mem_append, List.mem_cons] at h
      rcases h with hn | hcomma | hrest
      · exact .inr ⟨n, List.mem_cons_self, hn⟩
      · exact .inl hcomma
      · rcases ih hrest with hcomma | ⟨k, hk, hck⟩
        · exact .inl hcomma
        · exact .inr ⟨k, List.mem_cons_of_mem _ hk, hck⟩

theorem not_mem_column {c : Char} (hcomma : c ≠ ',') (hc : Text.solid.contains c = false)
    (scores : List Value) : c ∉ column scores := by
  intro hmem
  rcases mem_column hmem with h | ⟨n, -, hn⟩
  · exact hcomma h
  · exact not_mem_render hc n hn

theorem value?_render (n : Value) : Text.value? n.render.toList = some n :=
  Text.value?_eq_some.2 (TableFile.isScore_render n)

theorem mapM_value?_render (scores : List Value) :
    (scores.map fun n => n.render.toList).mapM Text.value? = some scores := by
  induction scores with
  | nil => rfl
  | cons n rest ih => simp [value?_render, ih]

/-- A number starts with a digit or a sign. -/
theorem exists_mem_render (n : Value) : ∃ c ∈ n.render.toList, c.isAlpha = false := by
  rw [Value.toList_render]
  split
  · have hdecimal := Text.decimal_toString n.toInt.toNat
    obtain ⟨c, hc⟩ := List.exists_mem_of_ne_nil _ hdecimal.nonempty
    have hdigit := hdecimal.digits c hc
    simp only [Char.isDigit, Bool.and_eq_true, decide_eq_true_eq, UInt32.le_iff_toNat_le,
      ge_iff_le] at hdigit
    have hle : c.toNat ≤ 57 := hdigit.2
    refine ⟨c, hc, ?_⟩
    rw [← Bool.not_eq_true, Text.isAlpha_iff]
    omega
  · exact ⟨'-', List.mem_cons_self, by decide⟩

/-- A column with scores is no name. -/
theorem exists_mem_column {scores : List Value} (hne : scores ≠ []) :
    ∃ c ∈ column scores, c.isAlpha = false := by
  obtain ⟨n, rest, rfl⟩ := List.exists_cons_of_ne_nil hne
  obtain ⟨c, hc, halpha⟩ := exists_mem_render n
  refine ⟨c, ?_, halpha⟩
  cases rest with
  | nil => simpa [column] using hc
  | cons m rest => simp [column, hc]

/-- A line of the listing without its newline. -/
def lineOf (e : Dictionary.Entry) (scores : List Value) : List Char :=
  List.replicate (8 - (column scores).length) ' ' ++ column scores ++ ' ' :: ' ' :: e.render.toList

theorem toList_actionLine (e : Dictionary.Entry) (scores : List Value) :
    (actionLine e scores).toList = lineOf e scores ++ ['\n'] := by
  have hcolumn : (",".intercalate (scores.map Value.render)).toList = column scores := by
    rw [String.toList_intercalate, List.map_map]
    rfl
  simp [actionLine, lineOf, Text.padLeft, Text.padding, hcolumn, ← String.length_toList, toString]

theorem fields_render (e : Dictionary.Entry) :
    ∃ rest, fields e.render.toList = e.action.name.toList :: rest := by
  have hname : fields e.action.name.toList = [e.action.name.toList] := by
    refine fields_word ?_ fun hspace => ?_
    · cases e.action <;> decide
    · exact absurd (e.action.isAlpha_name _ hspace).1 (by decide)
  refine ⟨fields (Text.padRight 18 ("( " ++ String.ofList (Text.trim e.signature.toList) ++ " )") ++ " " ++
    e.description).toList, ?_⟩
  rw [← List.singleton_append, ← hname, ← fields_pad _ (9 - e.action.name.length)]
  simp [Dictionary.Entry.render, Text.padRight, Text.padding, toString]

theorem fields_lineOf (e : Dictionary.Entry) (scores : List Value) :
    fields (lineOf e scores) = fields (column scores) ++ fields e.render.toList := by
  have hspace : fields (' ' :: e.render.toList) = fields e.render.toList :=
    fields_spaces 1 e.render.toList
  rw [lineOf, fields_append, fields_spaces, hspace]

/-- A line says which action it is for and which scores select that. -/
theorem readLine?_lineOf (e : Dictionary.Entry) (scores : List Value) :
    readLine? (lineOf e scores) = some (e.action, scores) := by
  obtain ⟨rest, hrest⟩ := fields_render e
  rw [readLine?, fields_lineOf, hrest]
  by_cases hscores : scores = []
  · subst hscores
    rw [show fields (column []) = [] from rfl, List.nil_append]
    dsimp only
    rw [named?_name]
  · obtain ⟨c, hc, halpha⟩ := exists_mem_column hscores
    have hcolumn : fields (column scores) = [column scores] :=
      fields_word (List.ne_nil_of_mem hc) (not_mem_column (by decide) (by decide +kernel) scores)
    rw [hcolumn, List.singleton_append]
    dsimp only
    rw [named?_eq_none hc halpha, splitOn_column hscores, mapM_value?_render]
    simp [named?_name]

/-! ## The whole listing -/

theorem splitOn_lines {lines : List (List Char)} (h : ∀ l ∈ lines, '\n' ∉ l) :
    (lines.flatMap fun l => l ++ ['\n']).splitOn '\n' = lines ++ [[]] := by
  induction lines with
  | nil => rfl
  | cons l lines ih =>
    rw [List.flatMap_cons, List.append_assoc, List.singleton_append,
      List.splitOn_append_cons_self_of_not_mem (h l List.mem_cons_self),
      ih fun m hm => h m (List.mem_cons_of_mem _ hm), List.cons_append]

theorem newline_not_mem_texts (a : Action) : '\n' ∉ a.name.toList ∧
    '\n' ∉ Text.trim (Dictionary.signatureOf a).toList ∧ '\n' ∉ (Dictionary.describe a).toList := by
  cases a <;> decide +kernel

theorem newline_not_mem_lineOf (a : Action) (scores : List Value) :
    '\n' ∉ lineOf ⟨a, a, Dictionary.describe a, Dictionary.signatureOf a⟩ scores := by
  have hcolumn := not_mem_column (c := '\n') (by decide) (by decide +kernel) scores
  have hrender : '\n' ∉ (Dictionary.Entry.render
      ⟨a, a, Dictionary.describe a, Dictionary.signatureOf a⟩).toList := by
    simp [Dictionary.Entry.render, Text.padRight, Text.padding, toString, newline_not_mem_texts a]
  simp [lineOf, hcolumn, hrender]

theorem mapM_readLine?_lineOf (as : List Action) (entry : Action → Dictionary.Entry)
    (haction : ∀ a, (entry a).action = a) (scores : Action → List Value) :
    (as.map fun a => lineOf (entry a) (scores a)).mapM readLine? =
      some (as.map fun a => (a, scores a)) := by
  induction as with
  | nil => rfl
  | cons a as ih => simp [readLine?_lineOf, haction, ih]

theorem readListing?_actionListing (s : ActionScores) :
    readListing? (actionListing .builtIn s) = some (Action.all.map fun a => (a, s.scoresOf a)) := by
  have hentries := Dictionary.holds_builtIn.entries_eq fun _ => rfl
  have hlines : (actionListing .builtIn s).toList =
      (Action.all.map fun a => lineOf ⟨a, a, Dictionary.describe a, Dictionary.signatureOf a⟩
        (s.scoresOf a)).flatMap fun l => l ++ ['\n'] := by
    rw [actionListing, actionLines, hentries, String.toList_join, List.map_map, List.flatMap_map,
      List.flatMap_map]
    simp only [Function.comp_apply, toList_actionLine]
    rfl
  rw [readListing?, hlines, splitOn_lines, List.dropLast_concat]
  · exact mapM_readLine?_lineOf Action.all _ (fun _ => rfl) s.scoresOf
  · intro l hl
    obtain ⟨a, -, rfl⟩ := List.mem_map.1 hl
    exact newline_not_mem_lineOf a (s.scoresOf a)

theorem exists_of_bind_eq_ok {ε α β : Type} {x : Except ε α} {f : α → Except ε β} {b : β}
    (h : (x >>= f) = .ok b) : ∃ a, f a = .ok b := by
  cases x with
  | ok a => exact ⟨a, h⟩
  | error e => cases h

theorem Options.dictionary_of_machine {o : Options} {files : Files} {env : Environment}
    {source : Source} {m : Machine} (h : o.machine files env source = .ok m) :
    m.dictionary = .builtIn := by
  rw [Options.machine] at h
  -- the tables are the only parts that can fail, and what is built of them is a new machine
  split at h <;> obtain ⟨letters, h⟩ := exists_of_bind_eq_ok h <;> split at h <;>
    obtain ⟨actions, h⟩ := exists_of_bind_eq_ok h <;> cases h <;> rfl

/-- Asked for the actions, the program prints the listing of the built-in ones and ends well. -/
theorem run_of_list {fuel : Nat} {files : Files} {env : Environment} {input : List UInt8}
    {arguments : List String} {options : Options} {m : Machine}
    (hparse : parse arguments = .ok (.perform options .list))
    (hm : options.machine files env (.ofBytes input) = .ok m) :
    run fuel files env input arguments =
      some ⟨0, (actionListing .builtIn m.actions).toUTF8.toList, ""⟩ := by
  have hprepare : (Command.perform options .list).prepare files env (.ofBytes input) =
      .ok (.print (actionListing .builtIn m.actions)) := by
    rw [Command.prepare, hm, ← Options.dictionary_of_machine hm]
    rfl
  rw [run, hparse]
  dsimp only
  rw [hprepare]
  rfl

/-- **The listing loses and repeats no score.**  Whoever asks for the actions gets the listing of the
table of actions in use.  Its lines name each action once, in order.  The scores on a line strictly
increase, are just those that select the action of the line, and start with the lowest of them.  Every
score of the table stands in the listing once, and no other score stands in it. -/
theorem listing_divides_scores (s : ActionScores) :
    (∀ fuel files env input arguments options m,
      parse arguments = .ok (.perform options .list) →
      options.machine files env (.ofBytes input) = .ok m → m.actions = s →
      run fuel files env input arguments = some ⟨0, (actionListing .builtIn s).toUTF8.toList, ""⟩) ∧
    ∃ rows, readListing? (actionListing .builtIn s) = some rows ∧
      rows.map Prod.fst = Action.all ∧
      (∀ row ∈ rows, row.2.Pairwise (· < ·) ∧ (∀ n, n ∈ row.2 ↔ s.action? n = some row.1) ∧
        row.2.head? = s.score? row.1) ∧
      ∀ n, (rows.flatMap Prod.snd).count n = if (s.action? n).isSome then 1 else 0 := by
  refine ⟨?_, _, readListing?_actionListing s, ?_, fun row hrow => ?_, fun n => ?_⟩
  · rintro fuel files env input arguments options m hparse hm rfl
    exact run_of_list hparse hm
  · rw [List.map_map]
    exact List.map_id _
  · obtain ⟨a, -, rfl⟩ := List.mem_map.1 hrow
    exact ⟨s.pairwise_scoresOf a, fun n => ActionScores.mem_scoresOf, s.head?_scoresOf a⟩
  · rw [List.flatMap_map]
    exact s.count_scoresOf n

/-- Without files the listing is that of the standard scores. -/
theorem listing_divides_scores_standard :
    run 0 (fun _ => .error .notFound) {} [] ["--words"] =
        some ⟨0, (actionListing .builtIn .standard).toUTF8.toList, ""⟩ ∧
      ∃ rows, readListing? (actionListing .builtIn .standard) = some rows ∧
        rows.map Prod.fst = Action.all := by
  obtain ⟨hrun, rows, hread, hactions, -⟩ := listing_divides_scores .standard
  have hparse : parse ["--words"] = .ok (.perform {} .list) := by cbv
  exact ⟨hrun 0 _ {} [] _ {} _ hparse rfl rfl, rows, hread, hactions⟩

end CommandLine

end Beatnik
