import Beatnik.Proofs.Spelling.Exchange

/-!
# The search over totals

A search visits the totals from one on, and tries the letters for each total one after another.  What it
has noted for a total after some of the letters is the least length of the spellings that start with one
of these (`FewestFrom`), after all letters the least length of all spellings (`IsFewest`), together with
a letter that leads back to a total with one letter less (`LeadsBack`).

    (∀ l ∈ ls, 0 < l.points) → Filled ls bound bound (run ls bound)                    (filled_run)

So the way back from a total that has a spelling ends at zero, after as many letters as noted (`Way`),
and these letters are a shortest spelling:

    (∀ l ∈ ls, 0 < l.points) → IsBest ls total word (find? ls total word)            (find?_isBest)
-/

namespace Beatnik.Spelling

theorem spells_cons {ls v : List Letter} {l : Letter} {total : Nat} :
    Spells ls total (l :: v) ↔ l ∈ ls ∧ l.points ≤ total ∧ Spells ls (total - l.points) v := by
  constructor
  · rintro ⟨hmem, hsum⟩
    rw [worth_cons] at hsum
    exact ⟨hmem l List.mem_cons_self, by omega,
      fun m hm => hmem m (List.mem_cons_of_mem _ hm), by omega⟩
  · rintro ⟨hl, hle, hmem, hsum⟩
    refine ⟨fun m hm => ?_, by rw [worth_cons]; omega⟩
    rcases List.mem_cons.1 hm with rfl | hm
    · exact hl
    · exact hmem m hm

/-! ## Fewest letters -/

/-- The right entry of a total: the length of a shortest spelling, or nothing if there is no spelling. -/
inductive IsFewest (ls : List Letter) (total : Nat) : Option Nat → Prop
  | shortest {w : List Letter} : Spells ls total w →
      (∀ v, Spells ls total v → w.length ≤ v.length) → IsFewest ls total (some w.length)
  | impossible : (∀ v, ¬ Spells ls total v) → IsFewest ls total none

/-- What is found among the spellings that start with one of the letters `starts`. -/
inductive FewestFrom (ls starts : List Letter) (total : Nat) : Option Nat → Prop
  | shortest {w : List Letter} : Spells ls total w →
      (∀ l ∈ starts, ∀ v, Spells ls total (l :: v) → w.length ≤ v.length + 1) →
      FewestFrom ls starts total (some w.length)
  | impossible : (∀ l ∈ starts, ∀ v, ¬ Spells ls total (l :: v)) → FewestFrom ls starts total none

namespace FewestFrom

variable {ls starts : List Letter} {total : Nat} {o : Option Nat} {l : Letter}

/-- A letter that starts no spelling shorter than what is found changes nothing. -/
theorem keep (h : FewestFrom ls starts total o)
    (hl : ∀ v, Spells ls total (l :: v) → ∃ k, o = some k ∧ k ≤ v.length + 1) :
    FewestFrom ls (starts ++ [l]) total o := by
  cases h with
  | shortest hw hmin =>
    refine .shortest hw (List.forall_mem_append.2 ⟨hmin, List.forall_mem_singleton.2 fun v hv => ?_⟩)
    obtain ⟨k, hk, hle⟩ := hl v hv
    rwa [Option.some.inj hk]
  | impossible hno =>
    refine .impossible (List.forall_mem_append.2 ⟨hno, List.forall_mem_singleton.2 fun v hv => ?_⟩)
    obtain ⟨k, hk, -⟩ := hl v hv
    cases hk

/-- A letter before a shortest spelling of what is left is the better find if it is shorter than what is
found. -/
theorem improve (h : FewestFrom ls starts total o) (hl : l ∈ ls) (hle : l.points ≤ total) {count : Nat}
    (hcount : IsFewest ls (total - l.points) (some count)) (hlt : ∀ k, o = some k → count + 1 < k) :
    FewestFrom ls (starts ++ [l]) total (some (count + 1)) := by
  cases hcount with
  | @shortest w hw hmin =>
    have hcons : Spells ls total (l :: w) := spells_cons.2 ⟨hl, hle, hw⟩
    refine .shortest (w := l :: w) hcons
      (List.forall_mem_append.2 ⟨fun m hm v hv => ?_, List.forall_mem_singleton.2 fun v hv => ?_⟩)
    · rw [List.length_cons]
      cases h with
      | impossible hno => exact absurd hv (hno m hm v)
      | shortest hw' hmin' =>
        have := hlt _ rfl
        have := hmin' m hm v hv
        omega
    · exact Nat.succ_le_succ (hmin v (spells_cons.1 hv).2.2)

/-- Every spelling of a positive total starts with some letter. -/
theorem isFewest (h : FewestFrom ls ls total o) (hpos : 0 < total) : IsFewest ls total o := by
  have hstart : ∀ v, Spells ls total v → ∃ l ∈ ls, ∃ v', v = l :: v' := by
    intro v hv
    cases v with
    | nil =>
      have := hv.worth_eq
      rw [worth_nil] at this
      omega
    | cons l v' => exact ⟨l, (spells_cons.1 hv).1, v', rfl⟩
  cases h with
  | shortest hw hmin =>
    refine .shortest hw fun v hv => ?_
    obtain ⟨l, hl, v', rfl⟩ := hstart v hv
    exact hmin l hl v' hv
  | impossible hno =>
    refine .impossible fun v hv => ?_
    obtain ⟨l, hl, v', rfl⟩ := hstart v hv
    exact hno l hl v' hv

end FewestFrom

namespace Search

/-! ## One attempt -/

/-- What an attempt does: nothing, because the letter leads to no shorter spelling, or it notes a shorter
one. -/
inductive Attempted (s : Search) (total : Nat) (l : Letter) (place : Nat) : Search → Prop
  | kept : (∀ count, l.points ≤ total → s.fewest[total - l.points]? = some (some count) →
      ∃ k, s.fewest? total = some k ∧ k ≤ count + 1) → Attempted s total l place s
  | improved {count : Nat} : l.points ≤ total → s.fewest[total - l.points]? = some (some count) →
      (∀ k, s.fewest? total = some k → count + 1 < k) →
      Attempted s total l place
        ⟨s.fewest.setIfInBounds total (some (count + 1)), s.last.setIfInBounds total place⟩

theorem attempted (s : Search) (total : Nat) (l : Letter) (place : Nat) :
    Attempted s total l place (s.attempt total l place) := by
  rw [attempt]
  split
  · next hlt => exact .kept fun count hle => by omega
  next hle =>
  split
  · next count hcount =>
    rw [← fewest?]
    split
    · next hall =>
      refine .improved (Nat.not_lt.1 hle) hcount fun k hk => ?_
      rw [hk] at hall
      exact of_decide_eq_true hall
    · next hall =>
      refine .kept fun count' _ hcount' => ?_
      rw [hcount] at hcount'
      cases hcount'
      cases hk : s.fewest? total with
      | none => simp [hk] at hall
      | some k =>
        rw [hk] at hall
        exact ⟨k, rfl, Nat.not_lt.1 fun hlt => hall (decide_eq_true hlt)⟩
  · next hnone => exact .kept fun count _ hcount => absurd hcount (hnone count)

/-! ## Tables that are filled -/

/-- The letter noted for a total leads back to one that takes `count` letters. -/
def LeadsBack (ls : List Letter) (s : Search) (total count : Nat) : Prop :=
  ∃ place l, s.last[total]? = some place ∧ ls[place]? = some l ∧ l.points ≤ total ∧
    s.fewest[total - l.points]? = some (some count)

/-- The entries of a total are right. -/
def Settled (ls : List Letter) (s : Search) (total : Nat) : Prop :=
  ∃ o, s.fewest[total]? = some o ∧ IsFewest ls total o ∧
    ∀ k, o = some k → total = 0 ∧ k = 0 ∨ ∃ count, k = count + 1 ∧ LeadsBack ls s total count

/-- The tables of a search up to `bound`: the totals up to `reached` are settled, and nothing is noted for
the others. -/
structure Filled (ls : List Letter) (bound reached : Nat) (s : Search) : Prop where
  size_fewest : s.fewest.size = bound + 1
  size_last : s.last.size = bound + 1
  settled : ∀ i, i ≤ reached → Settled ls s i
  untouched : ∀ i, reached < i → i ≤ bound → s.fewest[i]? = some none

/-- The tables while a total is visited, after the letters `starts` were tried. -/
structure Visiting (ls starts : List Letter) (bound total : Nat) (s : Search) : Prop where
  size_fewest : s.fewest.size = bound + 1
  size_last : s.last.size = bound + 1
  settled : ∀ i, i < total → Settled ls s i
  untouched : ∀ i, total < i → i ≤ bound → s.fewest[i]? = some none
  entry : ∃ o, s.fewest[total]? = some o ∧ FewestFrom ls starts total o ∧
    ∀ k, o = some k → ∃ count, k = count + 1 ∧ LeadsBack ls s total count

/-- The entries of a total depend on those of smaller totals only. -/
theorem Settled.congr {ls : List Letter} {s t : Search} {total : Nat} (h : Settled ls s total)
    (heq : ∀ i, i ≤ total → t.fewest[i]? = s.fewest[i]? ∧ t.last[i]? = s.last[i]?) :
    Settled ls t total := by
  obtain ⟨o, ho, hfewest, hback⟩ := h
  refine ⟨o, (heq total (Nat.le_refl _)).1.trans ho, hfewest, fun k hk => ?_⟩
  rcases hback k hk with hzero | ⟨count, hcount, place, l, hplace, hl, hle, hrest⟩
  · exact .inl hzero
  · exact .inr ⟨count, hcount, place, l, (heq total (Nat.le_refl _)).2.trans hplace, hl, hle,
      (heq _ (Nat.sub_le _ _)).1.trans hrest⟩

section

variable {ls starts : List Letter} {bound total : Nat} {s : Search}

/-- An attempt with the next letter goes on with the visit. -/
theorem Visiting.attempt (h : Visiting ls starts bound total s) (hbound : total ≤ bound) {l : Letter}
    (hl : ls[starts.length]? = some l) (hpos : 0 < l.points) :
    Visiting ls (starts ++ [l]) bound total (s.attempt total l starts.length) := by
  obtain ⟨o, ho, hfrom, hback⟩ := h.entry
  have ho' : s.fewest? total = o := by rw [fewest?, ho]; rfl
  -- what is left after the letter is a smaller total, which is settled
  have hrest : l.points ≤ total → ∃ o', s.fewest[total - l.points]? = some o' ∧
      IsFewest ls (total - l.points) o' := by
    intro hle
    obtain ⟨o', ho', hfewest, -⟩ := h.settled (total - l.points) (by omega)
    exact ⟨o', ho', hfewest⟩
  have hattempt := attempted s total l starts.length
  generalize s.attempt total l starts.length = t at hattempt
  cases hattempt with
  | kept hkept =>
    refine { h with entry := ⟨o, ho, hfrom.keep fun v hv => ?_, hback⟩ }
    obtain ⟨-, hle, hv⟩ := spells_cons.1 hv
    obtain ⟨o', hentry, hfewest⟩ := hrest hle
    cases hfewest with
    | impossible hno => exact absurd hv (hno v)
    | shortest hw hmin =>
      obtain ⟨k, hk, hk'⟩ := hkept _ hle hentry
      have := hmin v hv
      exact ⟨k, ho'.symm.trans hk, by omega⟩
  | @improved count hle hcount hlt =>
    obtain ⟨o', hentry, hfewest⟩ := hrest hle
    rw [hcount] at hentry
    cases hentry
    have hframe : ∀ i, i ≠ total →
        (s.fewest.setIfInBounds total (some (count + 1)))[i]? = s.fewest[i]? ∧
        (s.last.setIfInBounds total starts.length)[i]? = s.last[i]? := fun i hi =>
      ⟨Array.getElem?_setIfInBounds_ne hi.symm, Array.getElem?_setIfInBounds_ne hi.symm⟩
    have hsize := h.size_fewest
    have hsize' := h.size_last
    refine ⟨by simpa using hsize, by simpa using hsize', fun i hi => ?_, fun i hi hi' => ?_, ?_⟩
    · exact (h.settled i hi).congr fun j hj => hframe j (by omega)
    · exact (hframe i (by omega)).1.trans (h.untouched i hi hi')
    · refine ⟨some (count + 1), Array.getElem?_setIfInBounds_self_of_lt (by omega),
        hfrom.improve (List.mem_of_getElem? hl) hle hfewest fun k hk => hlt k (ho'.trans hk), ?_⟩
      intro k hk
      refine ⟨count, (Option.some.inj hk).symm, starts.length, l,
        Array.getElem?_setIfInBounds_self_of_lt (by omega), hl, hle, ?_⟩
      exact (hframe _ (by omega)).1.trans hcount

theorem Visiting.foldl (hpos : ∀ l ∈ ls, 0 < l.points) (hbound : total ≤ bound) (rest : List Letter)
    (hls : ls = starts ++ rest) (h : Visiting ls starts bound total s) :
    Visiting ls ls bound total
      ((rest.zipIdx starts.length).foldl (fun s l => s.attempt total l.1 l.2) s) := by
  induction rest generalizing starts s with
  | nil =>
    rw [List.append_nil] at hls
    exact hls ▸ h
  | cons l rest ih =>
    have hl : ls[starts.length]? = some l := by rw [hls, List.getElem?_append_right (Nat.le_refl _)]; simp
    have hnext := h.attempt hbound hl (hpos l (List.mem_of_getElem? hl))
    rw [List.zipIdx_cons, List.foldl_cons]
    have hdone := ih (by rw [hls, List.append_assoc]; rfl) hnext
    rwa [List.length_append, List.length_singleton] at hdone

/-- A visit settles one total more. -/
theorem Filled.visit {reached : Nat} (h : Filled ls bound reached s) (hpos : ∀ l ∈ ls, 0 < l.points)
    (hbound : reached + 1 ≤ bound) : Filled ls bound (reached + 1) (s.visit ls (reached + 1)) := by
  have hstart : Visiting ls [] bound (reached + 1) s := by
    refine ⟨h.size_fewest, h.size_last, fun i hi => h.settled i (by omega),
      fun i hi => h.untouched i (by omega), none, h.untouched _ (by omega) hbound, ?_, ?_⟩
    · exact .impossible (by simp)
    · intro k hk
      cases hk
  have hend := hstart.foldl hpos hbound ls rfl
  refine ⟨hend.size_fewest, hend.size_last, fun i hi => ?_, hend.untouched⟩
  rcases Nat.lt_or_eq_of_le hi with hlt | rfl
  · exact hend.settled i hlt
  · obtain ⟨o, ho, hfrom, hback⟩ := hend.entry
    exact ⟨o, ho, hfrom.isFewest (by omega), fun k hk => .inr (hback k hk)⟩

theorem filled_start (ls : List Letter) (bound : Nat) : Filled ls bound 0 (start bound) := by
  have hentry : ∀ i, i ≤ bound → (start bound).fewest[i]? = some (if i = 0 then some 0 else none) := by
    intro i hi
    rw [start, Array.getElem?_setIfInBounds, Array.getElem?_replicate]
    by_cases hz : i = 0
    · simp [hz]
    · rw [if_neg (Ne.symm hz), if_pos (by omega), if_neg hz]
  refine ⟨by simp [start], by simp [start], fun i hi => ?_, fun i hi hi' => ?_⟩
  · have hz : i = 0 := by omega
    subst hz
    refine ⟨some 0, hentry 0 (Nat.zero_le _), .shortest (w := []) ⟨by simp, rfl⟩ (by simp), fun k hk => ?_⟩
    exact .inl ⟨rfl, (Option.some.inj hk).symm⟩
  · rw [hentry i hi', if_neg (by omega)]

theorem filled_run (hpos : ∀ l ∈ ls, 0 < l.points) (bound : Nat) :
    Filled ls bound bound (run ls bound) := by
  have hfold : ∀ n, n ≤ bound →
      Filled ls bound n (n.fold (fun i _ s => s.visit ls (i + 1)) (start bound)) := by
    intro n
    induction n with
    | zero => exact fun _ => filled_start ls bound
    | succ n ih =>
      intro hn
      rw [Nat.fold_succ]
      exact (ih (by omega)).visit hpos hn
  exact hfold bound (Nat.le_refl _)

/-! ## The way back -/

theorem back?_eq_some {l : Letter} {before : Nat} :
    s.back? ls total = some (l, before) ↔
      (∃ place, s.last[total]? = some place ∧ ls[place]? = some l) ∧ l.points ≤ total ∧
        before = total - l.points := by
  simp only [back?, Option.bind_eq_bind, Option.bind_eq_some_iff]
  constructor
  · rintro ⟨place, hplace, l', hl, hif⟩
    split at hif
    · next hle =>
      cases hif
      exact ⟨⟨place, hplace, hl⟩, hle, rfl⟩
    · cases hif
  · rintro ⟨⟨place, hplace, hl⟩, hle, rfl⟩
    exact ⟨place, hplace, l, hl, if_pos hle⟩

theorem LeadsBack.exists_back? {count : Nat} (h : LeadsBack ls s total count) :
    ∃ l, l ∈ ls ∧ l.points ≤ total ∧ s.back? ls total = some (l, total - l.points) ∧
      s.fewest[total - l.points]? = some (some count) := by
  obtain ⟨place, l, hplace, hl, hle, hrest⟩ := h
  exact ⟨l, List.mem_of_getElem? hl, hle, back?_eq_some.2 ⟨⟨place, hplace, hl⟩, hle, rfl⟩, hrest⟩

/-- The letters on the way back from a total to zero. -/
inductive Way (ls : List Letter) (s : Search) : Nat → List Letter → Prop
  | done : Way ls s 0 []
  | round {total before : Nat} {l : Letter} {w : List Letter} :
      s.back? ls total = some (l, before) → before < total → Way ls s before w → Way ls s total (l :: w)

theorem Way.spells {w : List Letter} (h : Way ls s total w) : Spells ls total w := by
  induction h with
  | done => exact ⟨by simp, rfl⟩
  | round hback _ _ ih =>
    obtain ⟨⟨place, -, hl⟩, hle, rfl⟩ := back?_eq_some.1 hback
    exact spells_cons.2 ⟨List.mem_of_getElem? hl, hle, ih⟩

theorem Way.walk? {w : List Letter} (h : Way ls s total w) (word : String) :
    s.walk? ls total word = some (word ++ String.ofList (w.map Letter.char)) := by
  induction h generalizing word with
  | done =>
    rw [Search.walk?, if_pos rfl]
    simp
  | @round total before l w hback hlt _ ih =>
    rw [Search.walk?, if_neg (by omega), hback]
    dsimp only
    rw [if_pos hlt, ih, List.map_cons, Option.some_inj, ← String.toList_inj]
    simp

/-- Only zero takes no letters, and from all other totals with a spelling a round leads back. -/
theorem Filled.leadsBack (h : Filled ls bound bound s) (hbound : total ≤ bound) {k : Nat}
    (hk : s.fewest[total]? = some (some k)) :
    total = 0 ∧ k = 0 ∨ ∃ count, k = count + 1 ∧ LeadsBack ls s total count := by
  obtain ⟨o, ho, -, hback⟩ := h.settled total hbound
  rw [hk] at ho
  exact hback k (Option.some.inj ho).symm

/-- From a total with a spelling the way back ends at zero, after as many letters as are noted. -/
theorem Filled.exists_way (h : Filled ls bound bound s) (hpos : ∀ l ∈ ls, 0 < l.points)
    (hbound : total ≤ bound) {k : Nat} (hk : s.fewest[total]? = some (some k)) :
    ∃ w, Way ls s total w ∧ w.length = k := by
  induction k generalizing total with
  | zero =>
    rcases h.leadsBack hbound hk with ⟨rfl, -⟩ | ⟨count, hcount, -⟩
    · exact ⟨[], .done, rfl⟩
    · omega
  | succ k ih =>
    rcases h.leadsBack hbound hk with ⟨-, hzero⟩ | ⟨count, hcount, hleads⟩
    · omega
    · cases hcount
      obtain ⟨l, hl, hle, hround, hrest⟩ := hleads.exists_back?
      obtain ⟨w, hw, hlen⟩ := ih (by omega) hrest
      have := hpos l hl
      exact ⟨l :: w, .round hround (by omega) hw, by rw [List.length_cons, hlen]⟩

end

end Search

/-! ## What is found -/

/-- The right find for a total: a shortest spelling behind the given word, or nothing if there is no
spelling. -/
inductive IsBest (ls : List Letter) (total : Nat) (word : String) : Option String → Prop
  | shortest {w : List Letter} : Spells ls total w → (∀ v, Spells ls total v → w.length ≤ v.length) →
      IsBest ls total word (some (word ++ String.ofList (w.map Letter.char)))
  | impossible : (∀ v, ¬ Spells ls total v) → IsBest ls total word none

section

variable {ls : List Letter} (hpos : ∀ l ∈ ls, 0 < l.points) (total : Nat) (word : String)

include hpos

/-- What is found has as many letters as are noted. -/
theorem find?_of_fewest {k : Nat} (hk : (Search.run ls total).fewest[total]? = some (some k)) :
    ∃ w, Spells ls total w ∧ w.length = k ∧
      find? ls total word = some (word ++ String.ofList (w.map Letter.char)) := by
  obtain ⟨w, hway, hlen⟩ := (Search.filled_run hpos total).exists_way hpos (Nat.le_refl _) hk
  have hfewest : (Search.run ls total).fewest? total = some k := by rw [Search.fewest?, hk]; rfl
  refine ⟨w, hway.spells, hlen, ?_⟩
  rw [find?, hfewest]
  exact hway.walk? word

/-- The search finds a shortest spelling, and nothing exactly if there is none. -/
theorem find?_isBest : IsBest ls total word (find? ls total word) := by
  obtain ⟨o, ho, hfewest, -⟩ := (Search.filled_run hpos total).settled total (Nat.le_refl _)
  cases hfewest with
  | impossible hno =>
    have hnone : (Search.run ls total).fewest? total = none := by rw [Search.fewest?, ho]; rfl
    rw [find?, hnone]
    exact .impossible hno
  | shortest hw hmin =>
    obtain ⟨v, hv, hlen, hfind⟩ := find?_of_fewest hpos total word ho
    rw [hfind]
    exact .shortest hv fun u hu => hlen ▸ hmin u hu

end

end Beatnik.Spelling
