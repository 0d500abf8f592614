import Beatnik.Draft
import Beatnik.Proofs.Machine.Fetch
import Beatnik.Proofs.Spelling.Exact

/-!
# Drafts and the programs they are drafts of

A draft is written by calls (`Draft.Call`), and goes on as each of them leaves it.  A call that fails
leaves it as it was (`Call.apply_error`), and one that succeeds adds one word that does what the call
asked for (`Call.Fits`).  The text of the draft is scanned into just these words, and a machine with the
same tables carries out what they ask for (`scan_fits_calls`).
-/

namespace Beatnik

/-! ## The lowest score of an action -/

namespace ActionScores

theorem mem_selecting {s : ActionScores} {a : Action} {n : Value} :
    n ∈ selecting s.entries a ↔ s.action? n = some a := by
  simp [selecting, entries, action?, Std.ExtTreeMap.mem_toList_iff_getElem?_eq_some]

/-- The score chosen for an action selects it, and no lower one does. -/
theorem score?_eq_some {s : ActionScores} {a : Action} {score : Value} (h : s.score? a = some score) :
    s.action? score = some a ∧ ∀ n, s.action? n = some a → score ≤ n := by
  obtain ⟨hmem, hle⟩ := List.min?_eq_some_iff.1 h
  exact ⟨mem_selecting.1 hmem, fun n hn => hle n (mem_selecting.2 hn)⟩

end ActionScores

namespace Draft

/-! ## Calls -/

/-- A call that adds to a draft. -/
inductive Call where
  | instruction (a : Action)
  | number (score : Value)
  | word (w : String)
deriving DecidableEq

def Call.apply : Call → Edit
  | instruction a => Draft.instruction a
  | number score => Draft.number score
  | word w => modify (Draft.word · w)

/-- The draft that a call leaves, whether it succeeds or fails. -/
def after (d : Draft) (c : Call) : Draft :=
  match c.apply d with
  | .ok _ d' => d'
  | .error _ d' => d'

def afterAll (d : Draft) (cs : List Call) : Draft := cs.foldl after d

/-- The calls that succeed, each on the draft left by the calls before it. -/
def accepted (d : Draft) : List Call → List Call
  | [] => []
  | c :: cs =>
    match c.apply d with
    | .ok _ d' => c :: accepted d' cs
    | .error _ d' => accepted d' cs

/-- A word does what a call asked for: it is the given word, has the given score, or has the lowest
score that selects the given action. -/
def Call.Fits (letters : LetterScores) (actions : ActionScores) : Call → String → Prop
  | instruction a, t => actions.action? (letters.score t) = some a ∧
      ∀ n, actions.action? n = some a → letters.score t ≤ n
  | number score, t => letters.score t = score
  | word w, t => t = w

/-! ## What one call adds -/

theorem toList_word (d : Draft) (t : String) :
    (d.word t).words.toList = d.words.toList ++ [t] :=
  Array.toList_push

theorem number_ok {d d' : Draft} {score : Value} (h : number score d = .ok () d') :
    ∃ t, d.letters.spell score = .ok t ∧ d' = d.word t := by
  rw [number] at h
  cases hs : d.letters.spell score with
  | error fault => rw [hs] at h; cases h
  | ok t =>
    rw [hs] at h
    cases h
    exact ⟨t, rfl, rfl⟩

theorem number_error {d d' : Draft} {score : Value} {fault : Fault}
    (h : number score d = .error fault d') : d.letters.spell score = .error fault ∧ d' = d := by
  rw [number] at h
  cases hs : d.letters.spell score with
  | error fault' =>
    rw [hs] at h
    cases h
    exact ⟨rfl, rfl⟩
  | ok t => rw [hs] at h; cases h

/-- A call that succeeds adds one token that fits it. -/
theorem Call.apply_ok {d d' : Draft} {c : Call} (hd : d.letters.Lowered)
    (hc : ∀ w, c = word w → Word.IsToken w) (h : c.apply d = .ok () d') :
    ∃ t, d' = d.word t ∧ c.Fits d.letters d.actions t ∧ Word.IsToken t := by
  cases c with
  | instruction a =>
    rw [apply, Draft.instruction] at h
    cases hs : d.actions.score? a with
    | none => rw [hs] at h; cases h
    | some score =>
      rw [hs] at h
      obtain ⟨t, ht, rfl⟩ := number_ok h
      obtain ⟨hscore, htoken, -⟩ := Spelling.score_of_spell_ok hd ht
      refine ⟨t, rfl, ?_, htoken⟩
      rw [Fits, hscore]
      exact ActionScores.score?_eq_some hs
  | number score =>
    obtain ⟨t, ht, rfl⟩ := number_ok h
    obtain ⟨hscore, htoken, -⟩ := Spelling.score_of_spell_ok hd ht
    exact ⟨t, rfl, hscore, htoken⟩
  | word w =>
    cases h
    exact ⟨w, rfl, rfl, hc w rfl⟩

/-- A call fails only for want of a word, before it has changed anything. -/
theorem Call.apply_error {d d' : Draft} {c : Call} {fault : Fault} (h : c.apply d = .error fault d') :
    fault.kind = .unspellable ∧ d' = d := by
  cases c with
  | instruction a =>
    rw [apply, Draft.instruction] at h
    cases hs : d.actions.score? a with
    | none =>
      rw [hs] at h
      cases h
      exact ⟨rfl, rfl⟩
    | some score =>
      rw [hs] at h
      obtain ⟨hspell, hleft⟩ := number_error h
      exact ⟨Spelling.kind_of_spell_error hspell, hleft⟩
  | number score =>
    obtain ⟨hspell, hleft⟩ := number_error h
    exact ⟨Spelling.kind_of_spell_error hspell, hleft⟩
  | word w => cases h

/-! ## What many calls add -/

theorem afterAll_words {cs : List Call} (d : Draft) (hd : d.letters.Lowered)
    (hcs : ∀ w, .word w ∈ cs → Word.IsToken w) :
    ∃ ts, (d.afterAll cs).words.toList = d.words.toList ++ ts ∧
      List.Forall₂ (Call.Fits d.letters d.actions) (d.accepted cs) ts ∧ ∀ t ∈ ts, Word.IsToken t := by
  induction cs generalizing d with
  | nil => exact ⟨[], by simp [afterAll], .nil, by simp⟩
  | cons c cs ih =>
    have hcs' : ∀ w, .word w ∈ cs → Word.IsToken w := fun w hw => hcs w (List.mem_cons_of_mem _ hw)
    rw [afterAll, List.foldl_cons, after, accepted]
    cases hc : c.apply d with
    | error fault d' =>
      obtain ⟨-, rfl⟩ := Call.apply_error hc
      exact ih d' hd hcs'
    | ok u d' =>
      obtain ⟨t, rfl, hfits, htoken⟩ :=
        Call.apply_ok hd (fun w hw => hcs w (hw ▸ List.mem_cons_self)) hc
      obtain ⟨ts, hwords, hall, htokens⟩ := ih (d.word t) hd hcs'
      refine ⟨t :: ts, ?_, .cons hfits hall, fun u hu => ?_⟩
      · refine hwords.trans ?_
        rw [toList_word, List.append_assoc, List.singleton_append]
      · rcases List.mem_cons.1 hu with rfl | hu
        · exact htoken
        · exact htokens u hu

/-- The words of a draft's text fit the calls that succeeded, one by one; and a machine with the same
tables carries out the action, or gets the number, that the call asked for. -/
theorem scan_fits_calls (es : List (Char × UInt32)) (actions : ActionScores) (calls : List Call)
    (htokens : ∀ w, Call.word w ∈ calls → Word.IsToken w) :
    let d : Draft := { letters := .ofList es, actions }
    (∀ path, List.Forall₂ (Call.Fits (.ofList es) actions) (d.accepted calls)
      ((Word.scan path (d.afterAll calls).text).map Word.text)) ∧
    (∀ (d' left : Draft) (c : Call) (fault : Fault), c.apply d' = .error fault left →
      fault.kind = .unspellable ∧ left = d') ∧
    (∀ m : Machine, m.letters = .ofList es → m.actions = actions →
      m.words = (Program.ofText (d.afterAll calls).text).toArray →
      ∀ (i : Nat) (c : Call), (d.accepted calls)[i]? = some c → m.index + 1 = i →
        (∀ a, c = .instruction a → Machine.dispatch m = Machine.execute a { m with index := i }) ∧
        (∀ n, c = .number n → Machine.nextScore m = .ok n { m with index := i })) := by
  intro d
  obtain ⟨ts, hwords, hall, htoken⟩ :=
    afterAll_words d (LetterScores.lowered_ofList es) htokens
  have hscan : ∀ path, (Word.scan path (d.afterAll calls).text).map Word.text = ts := by
    intro path
    rw [text, hwords]
    exact Word.text_scan_intercalate ts htoken path
  refine ⟨fun path => ?_, fun d' left c fault h => Call.apply_error h, fun m hl ha hw i c hc hi => ?_⟩
  · rw [hscan path]
    exact hall
  · obtain ⟨w, hwi, hfits⟩ : ∃ w, m.words[i]? = some w ∧ c.Fits (.ofList es) actions w.text := by
      obtain ⟨hlen, hget⟩ := List.forall₂_iff_get.1 hall
      obtain ⟨hlt, rfl⟩ := List.getElem?_eq_some_iff.1 hc
      have ht := hget i hlt (hlen ▸ hlt)
      have hmap := hscan Program.unnamed
      subst hmap
      rw [List.get_eq_getElem, List.get_eq_getElem, List.getElem_map] at ht
      refine ⟨_, ?_, ht⟩
      rw [hw, List.getElem?_toArray]
      exact List.getElem?_eq_getElem _
    rw [← hl, ← ha] at hfits
    constructor
    · rintro a rfl
      rw [Machine.dispatch_some hi hwi, hfits.1]
    · rintro n rfl
      rw [Machine.nextScore_some hi hwi, hfits]

/-- Of four calls the third fails; the text is `ba baa x`, and its words fit the other three calls. -/
theorem scan_fits_four_calls :
    (∀ w, Call.word w ∈ [.instruction .push, .number 7, .number (-1), .word "x"] → Word.IsToken w) ∧
    List.Forall₂ (Call.Fits (.ofList [('a', 2), ('b', 3)]) .standard)
      [.instruction .push, .number 7, .word "x"] ["ba", "baa", "x"] := by
  have htokens : ∀ w, Call.word w ∈ [.instruction .push, .number 7, .number (-1), .word "x"] →
      Word.IsToken w := by
    intro w hw
    have : w = "x" := by simpa using hw
    rw [this]
    decide
  have h := (scan_fits_calls [('a', 2), ('b', 3)] .standard _ htokens).1 "draft"
  refine ⟨htokens, ?_⟩
  have haccepted : accepted { letters := .ofList [('a', 2), ('b', 3)], actions := .standard }
      [.instruction .push, .number 7, .number (-1), .word "x"] =
      [.instruction .push, .number 7, .word "x"] := by cbv
  have hscan : (Word.scan "draft" (afterAll
      { letters := .ofList [('a', 2), ('b', 3)], actions := .standard }
      [.instruction .push, .number 7, .number (-1), .word "x"]).text).map Word.text =
      ["ba", "baa", "x"] := by cbv
  rwa [haccepted, hscan] at h

end Draft

end Beatnik
