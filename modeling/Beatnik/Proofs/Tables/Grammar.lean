import Beatnik.Proofs.Tables.Parts

/-!
# The grammar of table files

A content line is a line that is not blank before its comment (`contents`).  What a file of content
lines means is said by `Verdict`: the first line without `=` is reported, whatever stands before it; then
the first line whose key or value is none, the key before the value; and a file without such lines
consists of its entries, in the order of the lines.  A table is read by this rule and by no other:

    LetterScores.parse path text = r ↔
      ∃ v, Verdict IsLetter IsPoints .notALetter .notPoints path (contents text) v ∧
        r = v.map LetterScores.ofList                                             (parse_iff_verdict)
-/

namespace Beatnik

/-! ## Lists of computations that may fail -/

section

variable {ε γ δ ζ : Type} {f : γ → Except ε δ} {g : δ → Except ε ζ}

theorem mapM_of_forall₂ {xs : List γ} {ys : List δ}
    (h : List.Forall₂ (fun x y => f x = .ok y) xs ys) : xs.mapM f = .ok ys := by
  induction h with
  | nil => rfl
  | cons hx _ ih =>
    rw [List.mapM_cons, hx, ih]
    rfl

theorem mapM_of_first {before after : List γ} {x : γ} {e : ε}
    (hbefore : ∀ y ∈ before, ∃ z, f y = .ok z) (hx : f x = .error e) :
    (before ++ x :: after).mapM f = .error e := by
  induction before with
  | nil =>
    rw [List.nil_append, List.mapM_cons, hx]
    rfl
  | cons y before ih =>
    obtain ⟨z, hz⟩ := hbefore y List.mem_cons_self
    rw [List.cons_append, List.mapM_cons, hz,
      ih fun y hy => hbefore y (List.mem_cons_of_mem _ hy)]
    rfl

theorem exists_forall₂ {R : γ → δ → Prop} {xs : List γ} (h : ∀ x ∈ xs, ∃ y, R x y) :
    ∃ ys, List.Forall₂ R xs ys := by
  induction xs with
  | nil => exact ⟨[], .nil⟩
  | cons x xs ih =>
    obtain ⟨y, hy⟩ := h x List.mem_cons_self
    obtain ⟨ys, hys⟩ := ih fun x hx => h x (List.mem_cons_of_mem _ hx)
    exact ⟨y :: ys, .cons hy hys⟩

/-- Where the first pass succeeds, two passes give what one pass gives. -/
theorem mapM_bind_mapM {xs : List γ} (h : ∀ x ∈ xs, ∃ y, f x = .ok y) :
    (xs.mapM f >>= fun ys => ys.mapM g) = xs.mapM fun x => f x >>= g := by
  obtain ⟨ys, hys⟩ := exists_forall₂ h
  rw [mapM_of_forall₂ hys]
  show ys.mapM g = _
  clear h
  -- along the results of the first pass, which the one pass computes on its way
  induction hys with
  | nil => rfl
  | cons hx _ ih =>
    rw [List.mapM_cons, List.mapM_cons, ih, hx]
    rfl

/-- Dropping the places without a result afterwards is dropping them before. -/
theorem mapM_filterMap {f : γ → Except ε (Option δ)} {g : γ → Except ε δ} {p : γ → Bool}
    (hskip : ∀ x, p x = false → f x = .ok none) (hkeep : ∀ x, p x = true → f x = (g x).map some)
    (xs : List γ) :
    (do let found ← xs.mapM f; return found.filterMap id) = (xs.filter p).mapM g := by
  induction xs with
  | nil => rfl
  | cons x xs ih =>
    cases hx : p x with
    | false =>
      rw [List.mapM_cons, hskip x hx, List.filter_cons_of_neg (by simp [hx]), ← ih]
      cases xs.mapM f <;> rfl
    | true =>
      rw [List.mapM_cons, hkeep x hx, List.filter_cons_of_pos hx, List.mapM_cons, ← ih]
      cases g x with
      | error e => rfl
      | ok y => cases xs.mapM f <;> rfl

theorem forall_or_first (P : γ → Prop) (xs : List γ) :
    (∀ x ∈ xs, P x) ∨
      ∃ before x after, xs = before ++ x :: after ∧ (∀ y ∈ before, P y) ∧ ¬ P x := by
  classical
  cases h : xs.find? fun x => decide (¬ P x) with
  | none =>
    refine .inl fun x hx => ?_
    have hx := List.find?_eq_none.1 h x hx
    rwa [decide_eq_true_eq, not_not] at hx
  | some x =>
    obtain ⟨hx, before, after, hxs, hbefore⟩ := List.find?_eq_some_iff_append.1 h
    refine .inr ⟨before, x, after, hxs, fun y hy => ?_, of_decide_eq_true hx⟩
    have hy := hbefore y hy
    rwa [Bool.not_eq_true', decide_eq_false_iff_not, not_not] at hy

theorem exists_split_of_forall₂ {R : γ → δ → Prop} {before after : List γ} {x : γ} {ys : List δ}
    (h : List.Forall₂ R (before ++ x :: after) ys) :
    ∃ front y rear, ys = front ++ y :: rear ∧ R x y ∧ List.Forall₂ R after rear := by
  induction before generalizing ys with
  | nil =>
    cases h with
    | cons hx hafter => exact ⟨[], _, _, rfl, hx, hafter⟩
  | cons z before ih =>
    cases h with
    | cons hz hrest =>
      obtain ⟨front, y, rear, rfl, hx, hafter⟩ := ih hrest
      exact ⟨_ :: front, y, rear, rfl, hx, hafter⟩

theorem exists_of_mem_forall₂ {R : γ → δ → Prop} {xs : List γ} {ys : List δ}
    (h : List.Forall₂ R xs ys) {x : γ} (hx : x ∈ xs) : ∃ y ∈ ys, R x y := by
  obtain ⟨before, after, rfl⟩ := List.append_of_mem hx
  obtain ⟨front, y, rear, rfl, hxy, -⟩ := exists_split_of_forall₂ h
  exact ⟨y, by simp, hxy⟩

end

namespace TableFile

/-! ## Content lines -/

/-- A line without its comment; lines are numbered from 1. -/
structure Content where
  number : Nat
  text : List Char
deriving DecidableEq

/-- The line with a given number of lines before it, without what follows a `#`. -/
def Content.ofLine (line : List Char × Nat) : Content :=
  ⟨line.2 + 1, line.1.takeWhile (· ≠ '#')⟩

def Content.isBlank (l : Content) : Bool := l.text.all Text.isBlank

/-- The lines of a text that are not blank before their comment. -/
def contents (text : String) : List Content :=
  ((text.toList.splitOn '\n').zipIdx.map Content.ofLine).filter fun l => !l.isBlank

/-- A failure of a line, at its first column. -/
def Content.failure (path : String) (l : Content) (fault : Fault) : Failure :=
  ⟨fault, some ⟨path, l.number, 1⟩⟩

/-- A line has a key and a value: what stands before and after its first `=`, without the blanks at the
ends. -/
def Content.Splits (l : Content) (k v : List Char) : Prop :=
  ∃ left right, l.text = left ++ '=' :: right ∧ '=' ∉ left ∧ Text.Trims left k ∧ Text.Trims right v

section

variable {α β : Type} (Key : List Char → α → Prop) (Value : List Char → β → Prop)

/-- A line has an entry, whose key and value mean `e`. -/
def Content.Gives (l : Content) (e : α × β) : Prop :=
  ∃ k v, l.Splits k v ∧ Key k e.1 ∧ Value v e.2

/-- What content lines mean: their entries, or the failure that is reported of them. -/
inductive Verdict (badKey badValue : String → Fault) (path : String) (lines : List Content) :
    Except Failure (List (α × β)) → Prop
  | notAnEntry {before after : List Content} {l : Content} {t : List Char} :
      lines = before ++ l :: after → (∀ l' ∈ before, '=' ∈ l'.text) → '=' ∉ l.text →
      Text.Trims l.text t →
      Verdict badKey badValue path lines (.error (l.failure path (.notAnEntry (String.ofList t))))
  | badKey {before after : List Content} {l : Content} {k v : List Char} :
      (∀ l ∈ lines, '=' ∈ l.text) →
      lines = before ++ l :: after → (∀ l' ∈ before, ∃ e, l'.Gives Key Value e) →
      l.Splits k v → (∀ a, ¬ Key k a) →
      Verdict badKey badValue path lines (.error (l.failure path (badKey (String.ofList k))))
  | badValue {before after : List Content} {l : Content} {k v : List Char} {a : α} :
      (∀ l ∈ lines, '=' ∈ l.text) →
      lines = before ++ l :: after → (∀ l' ∈ before, ∃ e, l'.Gives Key Value e) →
      l.Splits k v → Key k a → (∀ b, ¬ Value v b) →
      Verdict badKey badValue path lines (.error (l.failure path (badValue (String.ofList v))))
  | entries {es : List (α × β)} :
      List.Forall₂ (fun l e => l.Gives Key Value e) lines es →
      Verdict badKey badValue path lines (.ok es)

end

/-! ## Keys and values of lines -/

theorem Content.Splits.mem {l : Content} {k v : List Char} (h : l.Splits k v) : '=' ∈ l.text := by
  obtain ⟨left, right, htext, -⟩ := h
  rw [htext]
  simp

/-- An entry has no blanks around its key and its value. -/
theorem Content.Splits.trimmed {l : Content} {k v : List Char} (h : l.Splits k v)
    (location : Location) : Entry.Trimmed ⟨location, k, v⟩ := by
  obtain ⟨left, right, -, -, hk, hv⟩ := h
  exact ⟨hk.self, hv.self⟩

theorem Content.exists_splits {l : Content} (h : '=' ∈ l.text) : ∃ k v, l.Splits k v := by
  obtain ⟨left, right, htext, hleft⟩ := List.eq_append_cons_of_mem h
  exact ⟨_, _, left, right, htext, hleft, Text.trims_trim left, Text.trims_trim right⟩

def Content.entry (path : String) (l : Content) : Except Failure Entry :=
  match l.text.dropWhile (· ≠ '=') with
  | [] => .error (l.failure path (.notAnEntry (String.ofList (Text.trim l.text))))
  | _ :: value => .ok ⟨⟨path, l.number, 1⟩, Text.trim (l.text.takeWhile (· ≠ '=')), Text.trim value⟩

theorem Content.entry_of_splits {path : String} {l : Content} {k v : List Char} (h : l.Splits k v) :
    l.entry path = .ok ⟨⟨path, l.number, 1⟩, k, v⟩ := by
  obtain ⟨left, right, htext, hleft, hk, hv⟩ := h
  have hno : ∀ c ∈ left, decide (c ≠ '=') = true := by
    intro c hc
    rw [decide_eq_true_eq]
    rintro rfl
    exact hleft hc
  unfold Content.entry
  rw [htext, List.dropWhile_append_of_pos hno, List.takeWhile_append_of_pos hno,
    List.dropWhile_cons_of_neg (by decide), List.takeWhile_cons_of_neg (by decide), List.append_nil,
    hk.trim_eq]
  show Except.ok (Entry.mk _ k (Text.trim right)) = _
  rw [hv.trim_eq]

theorem Content.entry_of_not_mem {path : String} {l : Content} (h : '=' ∉ l.text) :
    l.entry path = .error (l.failure path (.notAnEntry (String.ofList (Text.trim l.text)))) := by
  have hnil : l.text.dropWhile (· ≠ '=') = [] := by
    rw [List.dropWhile_eq_nil_iff]
    intro c hc
    rw [decide_eq_true_eq]
    rintro rfl
    exact h hc
  unfold Content.entry
  rw [hnil]

theorem entries_eq (path text : String) :
    entries path text = (contents text).mapM (Content.entry path) := by
  unfold entries contents
  rw [List.filter_map, List.mapM_map]
  refine mapM_filterMap (fun x hx => ?_) (fun x hx => ?_) _
  · have hblank : Text.trim (x.1.takeWhile (· ≠ '#')) = [] := by
      rw [Text.trim_eq_nil_iff]
      simpa [Content.isBlank, Content.ofLine] using hx
    show entry? _ _ = _
    unfold entry?
    rw [if_pos hblank]
  · have hblank : Text.trim (x.1.takeWhile (· ≠ '#')) ≠ [] := by
      rw [ne_eq, Text.trim_eq_nil_iff]
      simpa [Content.isBlank, Content.ofLine] using hx
    show entry? _ _ = ((Content.ofLine x).entry path).map some
    unfold entry? Content.entry Content.ofLine
    rw [if_neg hblank]
    dsimp only
    cases (x.1.takeWhile (· ≠ '#')).dropWhile (· ≠ '=') <;> rfl

/-! ## Two passes -/

section

variable {α β σ : Type} {key : Entry → Except Failure α} {value : Entry → Except Failure β}
  {Key : List Char → α → Prop} {Value : List Char → β → Prop} {badKey badValue : String → Fault}
  {path text : String}

def Entry.pair (key : Entry → Except Failure α) (value : Entry → Except Failure β) (e : Entry) :
    Except Failure (α × β) := do
  return (← key e, ← value e)

/-- What the entries of a text mean, in order. -/
def pairs (key : Entry → Except Failure α) (value : Entry → Except Failure β) (path text : String) :
    Except Failure (List (α × β)) := do
  (← entries path text).mapM (Entry.pair key value)

/-- Inserting the entries one by one is reading all of them and inserting them then. -/
theorem foldlM_eq_map (insert : σ → α → β → σ) (es : List Entry) (s : σ) :
    es.foldlM (fun s e => do
        let a ← key e
        let b ← value e
        return insert s a b) s =
      (es.mapM (Entry.pair key value)).map (List.foldl (fun s p => insert s p.1 p.2) s) := by
  induction es generalizing s with
  | nil => rfl
  | cons e es ih =>
    rw [List.foldlM_cons, List.mapM_cons]
    unfold Entry.pair
    cases key e with
    | error failure => rfl
    | ok a =>
      cases value e with
      | error failure => rfl
      | ok b =>
        refine (ih (insert s a b)).trans ?_
        unfold Entry.pair
        cases es.mapM fun e => do return (← key e, ← value e) <;> rfl

/-- What a line means, through its entry. -/
def Content.read (key : Entry → Except Failure α) (value : Entry → Except Failure β) (path : String)
    (l : Content) : Except Failure (α × β) :=
  l.entry path >>= Entry.pair key value

theorem pairs_of_mem (h : ∀ l ∈ contents text, '=' ∈ l.text) :
    pairs key value path text = (contents text).mapM (Content.read key value path) := by
  unfold pairs
  rw [entries_eq]
  refine mapM_bind_mapM fun l hl => ?_
  obtain ⟨k, v, hs⟩ := Content.exists_splits (h l hl)
  exact ⟨_, Content.entry_of_splits hs⟩

theorem Content.read_of_splits {l : Content} {k v : List Char} (h : l.Splits k v) :
    l.read key value path = Entry.pair key value ⟨⟨path, l.number, 1⟩, k, v⟩ := by
  unfold Content.read
  rw [Content.entry_of_splits h]
  rfl

/-! ## The verdict on a text -/

variable (hkey : Reads key Entry.key Key badKey) (hvalue : Reads value Entry.value Value badValue)

include hkey hvalue

theorem Content.read_of_gives {l : Content} {e : α × β} (h : l.Gives Key Value e) :
    l.read key value path = .ok e := by
  obtain ⟨k, v, hs, hk, hv⟩ := h
  rw [Content.read_of_splits hs]
  unfold Entry.pair
  rw [(hkey.ok_iff (hs.trimmed _)).2 hk, (hvalue.ok_iff (hs.trimmed _)).2 hv]
  rfl

/-- A line gives at most one entry. -/
theorem Content.Gives.unique {l : Content} {e e' : α × β} (h : l.Gives Key Value e)
    (h' : l.Gives Key Value e') : e = e' := by
  have hread : l.read key value "" = .ok e := Content.read_of_gives hkey hvalue h
  rw [Content.read_of_gives hkey hvalue h'] at hread
  cases hread
  rfl

theorem pairs_of_verdict {r : Except Failure (List (α × β))}
    (h : Verdict Key Value badKey badValue path (contents text) r) :
    pairs key value path text = r := by
  have hbefore : ∀ {ls : List Content}, (∀ l ∈ ls, ∃ e, l.Gives Key Value e) →
      ∀ l ∈ ls, ∃ e, l.read key value path = .ok e := by
    intro ls hls l hl
    obtain ⟨e, he⟩ := hls l hl
    exact ⟨e, Content.read_of_gives hkey hvalue he⟩
  cases h with
  | @notAnEntry before after l t hlines hfirst hnot ht =>
    have hentries : ∀ l' ∈ before, ∃ e, Content.entry path l' = .ok e := by
      intro l' hl'
      obtain ⟨k, v, hs⟩ := Content.exists_splits (hfirst l' hl')
      exact ⟨_, Content.entry_of_splits hs⟩
    -- the first pass fails, before any key or value is read
    unfold pairs
    rw [entries_eq, hlines, mapM_of_first hentries (Content.entry_of_not_mem hnot), ht.trim_eq]
    rfl
  | badKey hall hlines hfirst hs hk =>
    -- the first pass succeeds, so that the second one decides, line by line
    rw [pairs_of_mem hall, hlines]
    refine mapM_of_first (hbefore hfirst) ?_
    rw [Content.read_of_splits hs]
    unfold Entry.pair
    rw [hkey.error_of_not (hs.trimmed _) hk]
    rfl
  | badValue hall hlines hfirst hs hk hv =>
    rw [pairs_of_mem hall, hlines]
    refine mapM_of_first (hbefore hfirst) ?_
    rw [Content.read_of_splits hs]
    unfold Entry.pair
    rw [(hkey.ok_iff (hs.trimmed _)).2 hk, hvalue.error_of_not (hs.trimmed _) hv]
    rfl
  | entries hgives =>
    rw [pairs_of_mem]
    · exact mapM_of_forall₂ (hgives.imp fun l e he => Content.read_of_gives hkey hvalue he)
    · intro l hl
      obtain ⟨e, -, k, v, hs, -⟩ := exists_of_mem_forall₂ hgives hl
      exact hs.mem

omit hkey hvalue

/-- There is a verdict on all lines. -/
theorem exists_verdict (lines : List Content) :
    ∃ r, Verdict Key Value badKey badValue path lines r := by
  rcases forall_or_first (fun l => '=' ∈ l.text) lines with
    hall | ⟨before, l, after, hlines, hbefore, hl⟩
  · rcases forall_or_first (fun l => ∃ e, l.Gives Key Value e) lines with
      hgives | ⟨before, l, after, hlines, hbefore, hl⟩
    · obtain ⟨es, hes⟩ := exists_forall₂ hgives
      exact ⟨_, .entries hes⟩
    · obtain ⟨k, v, hs⟩ := Content.exists_splits (hall l (by rw [hlines]; simp))
      by_cases hk : ∃ a, Key k a
      · obtain ⟨a, ha⟩ := hk
        refine ⟨_, .badValue hall hlines hbefore hs ha fun b hb => ?_⟩
        exact hl ⟨(a, b), k, v, hs, ha, hb⟩
      · exact ⟨_, .badKey hall hlines hbefore hs (not_exists.1 hk)⟩
  · exact ⟨_, .notAnEntry hlines hbefore hl (Text.trims_trim l.text)⟩

include hkey hvalue

/-- A table made of the entries of a text follows the verdict on the text. -/
theorem eq_iff_verdict {parse : Except Failure σ} {ofList : List (α × β) → σ}
    (hparse : parse = (pairs key value path text).map ofList) {r : Except Failure σ} :
    parse = r ↔
      ∃ v, Verdict Key Value badKey badValue path (contents text) v ∧ r = v.map ofList := by
  constructor
  · rintro rfl
    obtain ⟨v, hv⟩ : ∃ v, Verdict Key Value badKey badValue path (contents text) v :=
      exists_verdict (contents text)
    refine ⟨v, hv, ?_⟩
    rw [hparse, pairs_of_verdict hkey hvalue hv]
  · rintro ⟨v, hv, rfl⟩
    rw [hparse, pairs_of_verdict hkey hvalue hv]

end

/-- Reported lines are content lines. -/
theorem Verdict.located {α β : Type} {Key : List Char → α → Prop} {Value : List Char → β → Prop}
    {badKey badValue : String → Fault} {path : String} {lines : List Content} {failure : Failure}
    (hkey : ∀ t, (badKey t).kind = .configuration)
    (hvalue : ∀ t, (badValue t).kind = .configuration)
    (h : Verdict Key Value badKey badValue path lines (.error failure)) :
    failure.fault.kind = .configuration ∧
      ∃ l ∈ lines, failure.location = some ⟨path, l.number, 1⟩ := by
  cases h with
  | notAnEntry hlines _ _ _ => exact ⟨rfl, _, by rw [hlines]; simp, rfl⟩
  | badKey _ hlines _ _ _ => exact ⟨hkey _, _, by rw [hlines]; simp, rfl⟩
  | badValue _ hlines _ _ _ _ => exact ⟨hvalue _, _, by rw [hlines]; simp, rfl⟩

end TableFile

/-! ## Tables -/

open TableFile

theorem LetterScores.parse_eq (path text : String) :
    parse path text = (pairs Entry.letter Entry.points path text).map ofList := by
  unfold parse pairs
  cases TableFile.entries path text with
  | error failure => rfl
  | ok es => exact foldlM_eq_map LetterScores.insert es {}

theorem ActionScores.parse_eq (path text : String) :
    parse path text = (pairs Entry.score Entry.action path text).map ofList := by
  unfold parse pairs
  cases TableFile.entries path text with
  | error failure => rfl
  | ok es => exact foldlM_eq_map ActionScores.insert es {}

namespace ActionScores

theorem action?_ofList (es : List (Value × Action)) (score : Value) :
    (ofList es).action? score = es.reverse.lookup score := by
  induction es using List.reverseRecOn with
  | nil => simp [ofList, action?]
  | append_singleton es e ih =>
    rw [List.reverse_append, List.reverse_singleton, List.singleton_append, List.lookup_cons, ← ih]
    unfold ofList
    rw [List.foldl_append, List.foldl_cons, List.foldl_nil]
    unfold insert action?
    rw [Std.ExtTreeMap.getElem?_insert]
    by_cases he : e.1 = score
    · subst he
      rw [if_pos Std.ReflCmp.compare_self, beq_self_eq_true]
    · rw [if_neg (by rwa [Std.LawfulEqCmp.compare_eq_iff_eq]), beq_false_of_ne (Ne.symm he)]

/-- The last binding of a score stays. -/
theorem action?_ofList_eq_some {es : List (Value × Action)} {score : Value} {a : Action} :
    (ofList es).action? score = some a ↔
      ∃ before after, es = before ++ (score, a) :: after ∧ ∀ e ∈ after, e.1 ≠ score := by
  rw [action?_ofList, List.lookup_eq_some_iff]
  constructor
  · rintro ⟨front, rear, hes, hfront⟩
    refine ⟨rear.reverse, front.reverse, ?_, fun e he => ?_⟩
    · rw [← List.reverse_reverse es, hes]
      simp
    · exact (bne_iff_ne.1 (hfront e (List.mem_reverse.1 he))).symm
  · rintro ⟨before, after, rfl, hafter⟩
    refine ⟨after.reverse, before.reverse, by simp, fun e he => ?_⟩
    exact bne_iff_ne.2 (hafter e (List.mem_reverse.1 he)).symm

/-- In a table read from lines, the last line with a score binds it. -/
theorem action?_of_lines {lines : List Content} {es : List (Value × Action)}
    (h : List.Forall₂ (fun l e => l.Gives IsScore IsName e) lines es) (score : Value) (a : Action) :
    (ofList es).action? score = some a ↔
      ∃ before l after, lines = before ++ l :: after ∧ l.Gives IsScore IsName (score, a) ∧
        ∀ l' ∈ after, ∀ b, ¬ l'.Gives IsScore IsName (score, b) := by
  have hunique {l : Content} {e e' : Value × Action} (he : l.Gives IsScore IsName e)
      (he' : l.Gives IsScore IsName e') : e = e' :=
    he.unique reads_score reads_action he'
  rw [action?_ofList_eq_some]
  constructor
  · rintro ⟨before, after, rfl, hafter⟩
    obtain ⟨front, l, rear, rfl, hl, hrear⟩ := exists_split_of_forall₂ h.flip
    refine ⟨front, l, rear, rfl, hl, fun l' hl' b hb => ?_⟩
    obtain ⟨e, he, hgives⟩ := exists_of_mem_forall₂ hrear.flip hl'
    exact hafter e he (by rw [hunique hgives hb])
  · rintro ⟨before, l, after, rfl, hl, hafter⟩
    obtain ⟨front, e, rear, rfl, he, hrear⟩ := exists_split_of_forall₂ h
    refine ⟨front, rear, by rw [hunique he hl], fun e' he' hscore => ?_⟩
    obtain ⟨l', hl', hgives⟩ := exists_of_mem_forall₂ hrear.flip he'
    exact hafter l' hl' e'.2 (by rwa [← hscore])

end ActionScores

namespace TableFile

/-- Tables are read by the grammar.  All failures are faults of the configuration, at the first column of
a content line; in a table of actions, the last line with a score says what the score selects. -/
theorem parse_iff_verdict (path text : String) :
    (∀ r, LetterScores.parse path text = r ↔
      ∃ v, Verdict IsLetter IsPoints .notALetter .notPoints path (contents text) v ∧
        r = v.map LetterScores.ofList) ∧
    (∀ r, ActionScores.parse path text = r ↔
      ∃ v, Verdict IsScore IsName .notAScore .unknownAction path (contents text) v ∧
        r = v.map ActionScores.ofList) ∧
    (∀ failure, LetterScores.parse path text = .error failure ∨
        ActionScores.parse path text = .error failure →
      failure.fault.kind = .configuration ∧
        ∃ l ∈ contents text, failure.location = some ⟨path, l.number, 1⟩) ∧
    (∀ s, ActionScores.parse path text = .ok s → ∀ score a, s.action? score = some a ↔
      ∃ before l after, contents text = before ++ l :: after ∧ l.Gives IsScore IsName (score, a) ∧
        ∀ l' ∈ after, ∀ b, ¬ l'.Gives IsScore IsName (score, b)) := by
  have hletters {r} := eq_iff_verdict (r := r) reads_letter reads_points
    (LetterScores.parse_eq path text)
  have hactions {r} := eq_iff_verdict (r := r) reads_score reads_action
    (ActionScores.parse_eq path text)
  refine ⟨fun r => hletters, fun r => hactions, fun failure h => ?_, fun s h => ?_⟩
  · rcases h with h | h
    · obtain ⟨v, hv, hr⟩ := hletters.1 h
      cases v with
      | ok es => cases hr
      | error failure =>
        cases hr
        exact hv.located (fun _ => rfl) (fun _ => rfl)
    · obtain ⟨v, hv, hr⟩ := hactions.1 h
      cases v with
      | ok es => cases hr
      | error failure =>
        cases hr
        exact hv.located (fun _ => rfl) (fun _ => rfl)
  · obtain ⟨v, hv, hr⟩ := hactions.1 h
    cases hv with
    | entries hes =>
      cases hr
      exact ActionScores.action?_of_lines hes
    | notAnEntry _ _ _ _ => cases hr
    | badKey _ _ _ _ _ => cases hr
    | badValue _ _ _ _ _ _ => cases hr

/-- The key of the first line is none, but the third line is no entry at all, and is reported. -/
theorem parse_iff_verdict_third_line :
    LetterScores.parse "points" "ab = 1\n# a = 2\n c" =
      .error ⟨.notAnEntry "c", some ⟨"points", 3, 1⟩⟩ := by
  have hcontents : contents "ab = 1\n# a = 2\n c" =
      [⟨1, "ab = 1".toList⟩] ++ ⟨3, " c".toList⟩ :: [] := by
    decide +kernel
  refine ((parse_iff_verdict "points" _).1 _).2 ⟨.error _, .notAnEntry hcontents ?_ ?_ ?_, rfl⟩
  · intro l hl
    rw [List.mem_singleton.1 hl]
    decide
  · decide
  · exact Text.trims_iff.2 (by decide : Text.trim " c".toList = ['c'])

end TableFile

end Beatnik
