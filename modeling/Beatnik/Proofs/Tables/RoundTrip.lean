import Beatnik.Proofs.Tables.Grammar

/-!
# Tables written as files

A table is written with one entry to a line, in any order and with any blanks around keys and values;
comments may end all lines, and lines without an entry may stand everywhere (`Line`).  Reading what has
been written gives the table back:

    written lines ~ entries s → parse path (write lines) = .ok s                   (parse_write)

for tables of points with alphabetic characters and for all tables of actions, whose names may be written
in upper and lower case.
-/

namespace Beatnik

namespace Text

/-! ## Characters of keys and values -/

theorem CharSet.contains_iff {s : CharSet} {c : Char} :
    s.contains c = true ↔ ∃ r ∈ s.ranges, r.1 ≤ c.toNat ∧ c.toNat ≤ r.2 := by
  unfold CharSet.contains
  simp only [List.any_eq_true, Bool.and_eq_true, decide_eq_true_eq]

/-- No range of a set meets a range of the other. -/
def CharSet.apart (s t : CharSet) : Bool :=
  s.ranges.all fun r => t.ranges.all fun u => Nat.blt r.2 u.1 || Nat.blt u.2 r.1

theorem CharSet.contains_of_apart {s t : CharSet} (h : s.apart t = true) {c : Char}
    (hc : s.contains c = true) : t.contains c = false := by
  rw [← Bool.not_eq_true]
  intro ht
  obtain ⟨r, hr, hge, hle⟩ := CharSet.contains_iff.1 hc
  obtain ⟨u, hu, hge', hle'⟩ := CharSet.contains_iff.1 ht
  have hapart := List.all_eq_true.1 (List.all_eq_true.1 h r hr) u hu
  simp only [Bool.or_eq_true, Nat.blt_eq] at hapart
  omega

/-- The characters that end a key or a value: blanks, and the marks of comments and entries. -/
def marks : CharSet where
  ranges := (0x23, 0x23) :: (0x3D, 0x3D) :: blank.ranges

/-- The characters of keys and values: the minus sign, digits and alphabetic characters. -/
def solid : CharSet where
  ranges := (0x2D, 0x2D) :: (0x30, 0x39) :: alphabetic.ranges

theorem solid_apart_marks : solid.apart marks = true := by
  decide +kernel

/-- A text of characters of keys and values. -/
def Solid (cs : List Char) : Prop := ∀ c ∈ cs, solid.contains c = true

theorem Solid.not_marks {cs : List Char} (h : Solid cs) {c : Char} (hc : c ∈ cs) :
    marks.contains c = false :=
  CharSet.contains_of_apart solid_apart_marks (h c hc)

theorem Solid.not_blank {cs : List Char} (h : Solid cs) {c : Char} (hc : c ∈ cs) :
    isBlank c = false := by
  rw [← Bool.not_eq_true]
  intro hblank
  obtain ⟨r, hr, hrange⟩ := CharSet.contains_iff.1 hblank
  have hmarks : marks.contains c = true :=
    CharSet.contains_iff.2 ⟨r, List.mem_cons_of_mem _ (List.mem_cons_of_mem _ hr), hrange⟩
  rw [h.not_marks hc] at hmarks
  cases hmarks

theorem Solid.not_mem {cs : List Char} (h : Solid cs) {c : Char} (hc : marks.contains c = true) :
    c ∉ cs := by
  intro hmem
  rw [h.not_marks hmem] at hc
  cases hc

/-- Blanks around a solid text are taken off again, and nothing else. -/
theorem Solid.trims {cs : List Char} (h : Solid cs) {a b : List Char}
    (ha : ∀ c ∈ a, isBlank c = true) (hb : ∀ c ∈ b, isBlank c = true) : Trims (a ++ cs ++ b) cs where
  around := ⟨a, b, rfl, ha, hb⟩
  first _ hc := h.not_blank (List.mem_of_mem_head? hc)
  last _ hc := h.not_blank (List.mem_of_mem_getLast? hc)

theorem solid_of_isAlphabetic {c : Char} (h : isAlphabetic c = true) : Solid [c] := by
  intro d hd
  rw [List.mem_singleton.1 hd]
  obtain ⟨r, hr, hrange⟩ := CharSet.contains_iff.1 h
  exact CharSet.contains_iff.2 ⟨r, List.mem_cons_of_mem _ (List.mem_cons_of_mem _ hr), hrange⟩

theorem solid_of_isAlpha {cs : List Char} (h : ∀ c ∈ cs, c.isAlpha = true) : Solid cs := by
  intro c hc
  have hmem : ∀ r ∈ alphabetic.ranges, r ∈ solid.ranges := fun r hr =>
    List.mem_cons_of_mem _ (List.mem_cons_of_mem _ hr)
  rw [CharSet.contains_iff]
  rcases (isAlpha_iff c).1 (h c hc) with hupper | hlower
  · exact ⟨(0x41, 0x5A), hmem _ List.mem_cons_self, hupper⟩
  · exact ⟨(0x61, 0x7A), hmem _ (List.mem_cons_of_mem _ List.mem_cons_self), hlower⟩

theorem Decimal.solid {ds : List Char} {n : Nat} (h : Decimal ds n) : Solid ds := by
  intro c hc
  have hdigit := h.digits c hc
  simp only [Char.isDigit, Bool.and_eq_true, decide_eq_true_eq, UInt32.le_iff_toNat_le,
    ge_iff_le] at hdigit
  exact CharSet.contains_iff.2 ⟨(0x30, 0x39), List.mem_cons_of_mem _ List.mem_cons_self, hdigit⟩

/-! ## Numbers in decimal digits -/

theorem decimal_toString (n : Nat) : Decimal (toString n).toList n := by
  rw [Nat.toString_eq_ofList_toDigits, String.toList_ofList]
  refine ⟨Nat.toDigits_ne_nil, ?_, Nat.ofDigitChars_ten_toDigits⟩
  intro c hc
  exact Nat.isDigit_of_mem_toDigits (by decide) (by decide) hc

end Text

/-- A value is written in digits, after a minus sign if it is negative. -/
theorem Value.toList_render (v : Value) :
    v.render.toList =
      if 0 ≤ v.toInt then (toString v.toInt.toNat).toList
      else '-' :: (toString (-v.toInt).toNat).toList := by
  unfold render
  rw [Int.toString_eq_repr, Int.repr_eq_if]
  split
  · rfl
  · rw [String.toList_append]
    rfl

theorem Value.solid_render (v : Value) : Text.Solid v.render.toList := by
  rw [toList_render]
  split
  · exact (Text.decimal_toString _).solid
  · intro c hc
    rcases List.mem_cons.1 hc with rfl | hc
    · exact Text.CharSet.contains_iff.2 ⟨(0x2D, 0x2D), List.mem_cons_self, by decide⟩
    · exact (Text.decimal_toString _).solid c hc

namespace TableFile

theorem isPoints_toString (p : UInt32) : IsPoints (toString p.toNat).toList p :=
  ⟨_, .inl rfl, Text.decimal_toString p.toNat⟩

theorem isScore_render (v : Value) : IsScore v.render.toList v := by
  unfold IsScore Text.SignedDecimal
  rw [Value.toList_render]
  split
  · next hnonneg =>
    exact ⟨_, _, Text.decimal_toString v.toInt.toNat, .inl ⟨.inl rfl, by omega⟩⟩
  · next hneg =>
    exact ⟨_, _, Text.decimal_toString (-v.toInt).toNat, .inr ⟨rfl, by omega⟩⟩

theorem isName_name (a : Action) : IsName a.name.toList a := by
  cases a <;> decide

theorem IsName.solid {cs : List Char} {a : Action} (h : IsName cs a) : Text.Solid cs := by
  apply Text.solid_of_isAlpha
  intro c hc
  apply Text.isAlpha_of_toLower
  exact (a.isAlpha_name _ (h ▸ List.mem_map_of_mem hc)).1

/-! ## Written lines -/

/-- Blanks inside of a line. -/
structure Gap where
  chars : List Char
  blank : chars.all Text.isBlank = true := by decide
  inLine : '\n' ∉ chars := by decide

/-- What ends a line: a comment or nothing. -/
inductive Remark where
  | none
  | comment (text : List Char) (inLine : '\n' ∉ text := by decide)

def Remark.chars : Remark → List Char
  | none => []
  | comment text _ => '#' :: text

/-- A line of a written table: an entry between blanks, or blanks only. -/
inductive Line (ε : Type) where
  | entry (e : ε) (beforeKey afterKey beforeValue afterValue : Gap) (remark : Remark)
  | filler (gap : Gap) (remark : Remark)

/-- How the keys and the values of entries are written. -/
structure Form (ε : Type) where
  key : ε → List Char
  value : ε → List Char

section

variable {ε : Type}

namespace Line

def entry? : Line ε → Option ε
  | entry e _ _ _ _ _ => some e
  | filler _ _ => none

def remark : Line ε → Remark
  | entry _ _ _ _ _ remark => remark
  | filler _ remark => remark

/-- The text of a line before its remark. -/
def body (f : Form ε) : Line ε → List Char
  | entry e a b c d _ =>
    (a.chars ++ f.key e ++ b.chars) ++ '=' :: (c.chars ++ f.value e ++ d.chars)
  | filler gap _ => gap.chars

def render (f : Form ε) (l : Line ε) : List Char := l.body f ++ l.remark.chars

end Line

def written (lines : List (Line ε)) : List ε := lines.filterMap Line.entry?

/-- Whatever the entries are, there are lines for them. -/
theorem exists_written (es : List ε) : ∃ lines : List (Line ε), written lines = es := by
  refine ⟨es.map fun e => .entry e (.mk []) (.mk []) (.mk []) (.mk []) .none, ?_⟩
  induction es with
  | nil => rfl
  | cons e es ih => exact congrArg (e :: ·) ih

def write (f : Form ε) (lines : List (Line ε)) : String :=
  String.ofList (['\n'].intercalate (lines.map (Line.render f)))

/-- An entry whose key and value have no blanks and no marks. -/
def Form.Legible (f : Form ε) (e : ε) : Prop := Text.Solid (f.key e) ∧ Text.Solid (f.value e)

theorem Gap.isBlank (g : Gap) : ∀ c ∈ g.chars, Text.isBlank c = true :=
  List.all_eq_true.1 g.blank

theorem Gap.not_mem (g : Gap) {c : Char} (h : Text.isBlank c = false) : c ∉ g.chars := by
  intro hc
  rw [g.isBlank c hc] at h
  cases h

/-! ## Contents of written lines -/

variable {f : Form ε}

namespace Line

variable {l : Line ε}

/-- Apart from the mark of an entry, the body of a line has no marks but the blanks in its gaps. -/
theorem not_mem_body (h : ∀ e ∈ l.entry?, f.Legible e) {c : Char} (hgap : ∀ g : Gap, c ∉ g.chars)
    (hmark : Text.marks.contains c = true) (hne : c ≠ '=') : c ∉ l.body f := by
  cases l with
  | entry e beforeKey afterKey beforeValue afterValue remark =>
    obtain ⟨hkey, hvalue⟩ := h e rfl
    simp only [body, List.mem_append, List.mem_cons, not_or]
    exact ⟨⟨⟨hgap _, hkey.not_mem hmark⟩, hgap _⟩, hne, ⟨hgap _, hvalue.not_mem hmark⟩, hgap _⟩
  | filler gap remark => exact hgap gap

theorem newline_not_mem_render (h : ∀ e ∈ l.entry?, f.Legible e) : '\n' ∉ l.render f := by
  have hbody : '\n' ∉ l.body f := not_mem_body h Gap.inLine (by decide) (by decide)
  have hremark : '\n' ∉ l.remark.chars := by
    cases l.remark with
    | none => exact List.not_mem_nil
    | comment text inLine => simpa [Remark.chars] using inLine
  unfold render
  rw [List.mem_append, not_or]
  exact ⟨hbody, hremark⟩

/-- Without its remark, a line is its body. -/
theorem ofLine_render (h : ∀ e ∈ l.entry?, f.Legible e) (n : Nat) :
    Content.ofLine (l.render f, n) = ⟨n + 1, l.body f⟩ := by
  have hbody : ∀ c ∈ l.body f, decide (c ≠ '#') = true := by
    intro c hc
    rw [decide_eq_true_eq]
    rintro rfl
    exact not_mem_body h (fun g => g.not_mem (by decide)) (by decide) (by decide) hc
  have hremark : l.remark.chars.takeWhile (· ≠ '#') = [] := by
    cases l.remark <;> rfl
  unfold Content.ofLine render
  rw [List.takeWhile_append_of_pos hbody, hremark, List.append_nil]

end Line

theorem splits_body {e : ε} (h : f.Legible e) (n : Nat)
    (beforeKey afterKey beforeValue afterValue : Gap) (remark : Remark) :
    Content.Splits ⟨n, (Line.entry e beforeKey afterKey beforeValue afterValue remark).body f⟩
      (f.key e) (f.value e) := by
  obtain ⟨hkey, hvalue⟩ := h
  have hgap (g : Gap) : '=' ∉ g.chars := g.not_mem (by decide)
  refine ⟨_, _, rfl, ?_, hkey.trims beforeKey.isBlank afterKey.isBlank,
    hvalue.trims beforeValue.isBlank afterValue.isBlank⟩
  simp only [List.mem_append, not_or]
  exact ⟨⟨hgap _, hkey.not_mem (by decide)⟩, hgap _⟩

/-- The content lines among written lines are those with an entry. -/
theorem forall₂_splits {lines : List (Line ε)} (h : ∀ e ∈ written lines, f.Legible e) (n : Nat) :
    List.Forall₂ (fun l e => l.Splits (f.key e) (f.value e))
      ((((lines.map (Line.render f)).zipIdx n).map Content.ofLine).filter fun l => !l.isBlank)
      (written lines) := by
  induction lines generalizing n with
  | nil => exact .nil
  | cons l lines ih =>
    unfold written at h
    rw [List.map_cons, List.zipIdx_cons, List.map_cons]
    cases l with
    | entry e beforeKey afterKey beforeValue afterValue remark =>
      have hl : f.Legible e := h e List.mem_cons_self
      have hs := splits_body hl (n + 1) beforeKey afterKey beforeValue afterValue remark
      rw [Line.ofLine_render (by rintro _ ⟨⟩; exact hl), List.filter_cons_of_pos]
      · exact .cons hs (ih (fun e he => h e (List.mem_cons_of_mem _ he)) (n + 1))
      · unfold Content.isBlank
        rw [Bool.not_eq_true', List.all_eq_false]
        exact ⟨'=', hs.mem, by decide⟩
    | filler gap remark =>
      rw [Line.ofLine_render (by rintro _ ⟨⟩), List.filter_cons_of_neg]
      · exact ih h (n + 1)
      · unfold Content.isBlank
        rw [Bool.not_eq_true', Bool.not_eq_false]
        exact gap.blank

theorem contents_write {lines : List (Line ε)} (h : ∀ e ∈ written lines, f.Legible e) :
    List.Forall₂ (fun l e => l.Splits (f.key e) (f.value e)) (contents (write f lines))
      (written lines) := by
  by_cases hlines : lines = []
  · -- an empty text has one line all the same, which is blank
    subst hlines
    exact .nil
  · unfold contents write
    rw [String.toList_ofList, List.splitOn_intercalate]
    · exact forall₂_splits h 0
    · intro line hline
      obtain ⟨l, hl, rfl⟩ := List.mem_map.1 hline
      apply Line.newline_not_mem_render
      intro e he
      exact h e (List.mem_filterMap.2 ⟨l, hl, he⟩)
    · simpa using hlines

/-- The verdict on written lines is what their entries mean. -/
theorem verdict_write {α β : Type} {Key : List Char → α → Prop} {Value : List Char → β → Prop}
    {badKey badValue : String → Fault} {path : String} {lines : List (Line ε)} (mean : ε → α × β)
    (h : ∀ e ∈ written lines,
      f.Legible e ∧ Key (f.key e) (mean e).1 ∧ Value (f.value e) (mean e).2) :
    Verdict Key Value badKey badValue path (contents (write f lines))
      (.ok ((written lines).map mean)) := by
  have hsplits := contents_write fun e he => (h e he).1
  have hboth := ((List.forall₂_and_left _ _).2 ⟨fun e he => (h e he).2, hsplits.flip⟩).flip
  refine .entries (List.forall₂_map_right_iff.2 (hboth.imp ?_))
  rintro l e ⟨⟨hkey, hvalue⟩, hs⟩
  exact ⟨_, _, hs, hkey, hvalue⟩

end

end TableFile

/-! ## Tables from their entries -/

/-- A map is made by inserting its entries, in whatever order. -/
theorem extTreeMap_ofList_of_perm {κ ν : Type} [Ord κ] [Std.TransOrd κ] [Std.LawfulEqOrd κ]
    {t : Std.ExtTreeMap κ ν} {es : List (κ × ν)} (h : es.Perm t.toList) :
    Std.ExtTreeMap.ofList es = t := by
  classical
  have hdistinct : es.Pairwise fun a b => ¬ compare a.1 b.1 = .eq := by
    refine (h.pairwise_iff fun hab hba => hab ?_).2 Std.ExtTreeMap.distinct_keys_toList
    rw [Std.LawfulEqCmp.compare_eq_iff_eq] at hba ⊢
    exact hba.symm
  -- equal keys do not occur twice, so each key finds the one value it has in the map
  apply Std.ExtTreeMap.ext_getElem?
  intro k
  cases hk : t[k]? with
  | some v =>
    have hmem : (k, v) ∈ es := h.mem_iff.2 (Std.ExtTreeMap.mem_toList_iff_getElem?_eq_some.2 hk)
    exact Std.ExtTreeMap.getElem?_ofList_of_mem Std.ReflCmp.compare_self hdistinct hmem
  | none =>
    apply Std.ExtTreeMap.getElem?_ofList_of_contains_eq_false
    rw [← Bool.not_eq_true, List.contains_iff_mem, List.mem_map]
    rintro ⟨⟨k', v⟩, hmem, rfl⟩
    rw [Std.ExtTreeMap.mem_toList_iff_getElem?_eq_some.1 (h.mem_iff.1 hmem)] at hk
    cases hk

/-- Characters that are their own lower case are inserted as they stand. -/
theorem LetterScores.ofList_eq {es : List (Char × UInt32)} (h : ∀ e ∈ es, Text.lower e.1 = [e.1]) :
    ofList es = ⟨Std.ExtTreeMap.ofList es⟩ := by
  rw [Std.ExtTreeMap.ofList_eq_foldl]
  induction es using List.reverseRecOn with
  | nil => rfl
  | append_singleton es e ih =>
    have hes := ih fun e he => h e (List.mem_append_left _ he)
    unfold ofList at hes ⊢
    rw [List.foldl_append, List.foldl_append, hes]
    show insert _ e.1 e.2 = _
    unfold insert
    rw [h e (by simp)]
    rfl

theorem LetterScores.ofList_of_perm {s : LetterScores} (hs : ∀ c ∈ s.table, Text.lower c = [c])
    {es : List (Char × UInt32)} (h : es.Perm s.entries) : ofList es = s := by
  have hlower : ∀ e ∈ es, Text.lower e.1 = [e.1] := fun e he =>
    hs e.1 (mem_table_of_mem_entries (h.mem_iff.1 he))
  rw [ofList_eq hlower, extTreeMap_ofList_of_perm h]

theorem ActionScores.ofList_eq (es : List (Value × Action)) :
    ofList es = ⟨Std.ExtTreeMap.ofList es⟩ := by
  rw [Std.ExtTreeMap.ofList_eq_foldl]
  induction es using List.reverseRecOn with
  | nil => rfl
  | append_singleton es e ih =>
    unfold ofList at ih ⊢
    rw [List.foldl_append, List.foldl_append, ih]
    rfl

theorem ActionScores.ofList_of_perm {s : ActionScores} {es : List (Value × Action)}
    (h : es.Perm s.entries) : ofList es = s := by
  rw [ofList_eq, extTreeMap_ofList_of_perm h]

namespace TableFile

/-- A character with its points, in decimal digits. -/
def letterForm : Form (Char × UInt32) where
  key e := [e.1]
  value e := (toString e.2.toNat).toList

/-- A score with the name of its action, in any case of the letters. -/
structure Binding where
  score : Value
  action : Action
  name : List Char
  isName : IsName name action

def Binding.pair (b : Binding) : Value × Action := (b.score, b.action)

/-- A score with the name of its action in lower case. -/
def Binding.ofPair (e : Value × Action) : Binding := ⟨e.1, e.2, e.2.name.toList, isName_name e.2⟩

/-- A score in decimal digits with the name of its action. -/
def bindingForm : Form Binding where
  key b := b.score.render.toList
  value := Binding.name

/-- Tables can be written, and written tables are read back. -/
theorem parse_write (path : String) :
    (∀ es : List (Char × UInt32),
      (∀ c ∈ (LetterScores.ofList es).table, Text.isAlphabetic c = true) →
      (∃ lines, written lines = (LetterScores.ofList es).entries) ∧
      ∀ lines, (written lines).Perm (LetterScores.ofList es).entries →
        LetterScores.parse path (write letterForm lines) = .ok (LetterScores.ofList es)) ∧
    (∀ s : ActionScores,
      (∃ lines, (written lines).map Binding.pair = s.entries) ∧
      ∀ lines, ((written lines).map Binding.pair).Perm s.entries →
        ActionScores.parse path (write bindingForm lines) = .ok s) := by
  constructor
  · intro es halphabetic
    refine ⟨exists_written _, fun lines hperm => ?_⟩
    have hlower : ∀ c ∈ (LetterScores.ofList es).table, Text.lower c = [c] := by
      intro c hc
      obtain ⟨e, -, he⟩ := LetterScores.mem_table_ofList.1 hc
      exact Text.lower_of_mem_lower he
    have hv : Verdict IsLetter IsPoints .notALetter .notPoints path
        (contents (write letterForm lines)) (.ok ((written lines).map id)) := by
      refine verdict_write id fun e he => ?_
      have hletter := halphabetic e.1 (LetterScores.mem_table_of_mem_entries (hperm.mem_iff.1 he))
      have hpoints := Text.decimal_toString e.2.toNat
      exact ⟨⟨Text.solid_of_isAlphabetic hletter, hpoints.solid⟩, ⟨rfl, hletter⟩,
        isPoints_toString e.2⟩
    rw [LetterScores.parse_eq, pairs_of_verdict reads_letter reads_points hv, List.map_id]
    show Except.ok _ = _
    rw [LetterScores.ofList_of_perm hlower hperm]
  · intro s
    refine ⟨?_, fun lines hperm => ?_⟩
    · obtain ⟨lines, hlines⟩ := exists_written (s.entries.map Binding.ofPair)
      refine ⟨lines, ?_⟩
      rw [hlines, List.map_map]
      exact List.map_id _
    · have hv : Verdict IsScore IsName .notAScore .unknownAction path
          (contents (write bindingForm lines)) (.ok ((written lines).map Binding.pair)) := by
        refine verdict_write Binding.pair fun b _ => ⟨⟨?_, b.isName.solid⟩, ?_, b.isName⟩
        · exact b.score.solid_render
        · exact isScore_render b.score
      rw [ActionScores.parse_eq, pairs_of_verdict reads_score reads_action hv]
      show Except.ok _ = _
      rw [ActionScores.ofList_of_perm hperm]

/-- Two tables with all that may stand around entries: the second line of the table of points has a
comment with marks of its own, and the table of actions binds the lowest of all scores. -/
theorem parse_write_two_tables :
    let points : List (Line (Char × UInt32)) := [
      .filler (.mk []) (.comment " points".toList),
      .entry ('ä', 4294967295) (.mk ['\t']) (.mk [' ']) (.mk []) (.mk [' ']) (.comment "# = 7".toList),
      .filler (.mk [' ', ' ']) .none,
      .entry ('b', 3) (.mk []) (.mk []) (.mk []) (.mk []) .none]
    let actions : List (Line Binding) := [
      .entry ⟨17, .quit, "qUIT".toList, by decide⟩ (.mk []) (.mk [' ']) (.mk []) (.mk []) (.comment []),
      .filler (.mk []) .none,
      .entry ⟨-9223372036854775808, .push, "PUSH".toList, by decide⟩
        (.mk []) (.mk []) (.mk [' ']) (.mk []) .none]
    write letterForm points = "# points\n\tä =4294967295 ## = 7\n  \nb=3" ∧
    LetterScores.parse "points" (write letterForm points) =
      .ok (.ofList [('B', 3), ('ä', 4294967295)]) ∧
    write bindingForm actions = "17 =qUIT#\n\n-9223372036854775808= PUSH" ∧
    ActionScores.parse "actions" (write bindingForm actions) =
      .ok (.ofList [(-9223372036854775808, .push), (17, .quit)]) := by
  intro points actions
  refine ⟨by decide +kernel, ?_, by decide +kernel, ?_⟩
  · refine ((parse_write "points").1 _ ?_).2 points (by decide +kernel)
    intro c hc
    obtain ⟨e, he, hlower⟩ := LetterScores.mem_table_ofList.1 hc
    have hall : [('B', (3 : UInt32)), ('ä', 4294967295)].all
        (fun e => (Text.lower e.1).all Text.isAlphabetic) = true := by
      decide +kernel
    exact List.all_eq_true.1 (List.all_eq_true.1 hall e he) c hlower
  · exact ((parse_write "actions").2 _).2 actions (by decide +kernel)

end TableFile

end Beatnik
