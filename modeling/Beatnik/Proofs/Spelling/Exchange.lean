import Beatnik.Spelling
import Mathlib

/-!
# Letters for the largest letter

A spelling of a total takes letters of a list, any of them any number of times (`Spells`).  Let the
largest letter be worth `u`.  Among `u` letters worth less, some that stand together are worth a
multiple of `u` (`exists_block`); as many largest letters as that multiple says are fewer letters
(`exists_shorter`).  So with no more letters than a spelling has, fewer than `u` of them need be worth
less than `u`, and what the others spell contains every largest letter that fits above `u * u`:

    Spells ls total w → k * u + u * u ≤ total →
      ∃ v, Spells ls (total - k * u) v ∧ v.length + k ≤ w.length                  (exists_without_bulk)
-/

namespace Beatnik.Spelling

def worth (w : List Letter) : Nat := (w.map Letter.points).sum

/-- Letters of a list that are worth a total together. -/
structure Spells (ls : List Letter) (total : Nat) (w : List Letter) : Prop where
  mem : ∀ l ∈ w, l ∈ ls
  worth_eq : worth w = total

/-! ## Worth -/

@[simp] theorem worth_nil : worth [] = 0 := rfl

@[simp] theorem worth_cons (l : Letter) (w : List Letter) : worth (l :: w) = l.points + worth w := by
  simp [worth]

@[simp] theorem worth_append (a b : List Letter) : worth (a ++ b) = worth a + worth b := by
  simp [worth]

@[simp] theorem worth_replicate (k : Nat) (l : Letter) : worth (List.replicate k l) = k * l.points := by
  simp [worth]

theorem worth_perm {a b : List Letter} (h : a.Perm b) : worth a = worth b := (h.map _).sum_eq

theorem worth_le {w : List Letter} {u : Nat} (h : ∀ l ∈ w, l.points ≤ u) : worth w ≤ w.length * u := by
  induction w with
  | nil => simp
  | cons l w ih =>
    have h1 := h l List.mem_cons_self
    have h2 := ih fun m hm => h m (List.mem_cons_of_mem _ hm)
    rw [worth_cons, List.length_cons, Nat.succ_mul]
    omega

theorem worth_eq_mul {w : List Letter} {u : Nat} (h : ∀ l ∈ w, l.points = u) :
    worth w = w.length * u := by
  induction w with
  | nil => simp
  | cons l w ih =>
    have h1 := h l List.mem_cons_self
    have h2 := ih fun m hm => h m (List.mem_cons_of_mem _ hm)
    rw [worth_cons, List.length_cons, Nat.succ_mul]
    omega

/-! ## The exchange -/

/-- Of at least `u` letters, some that stand together are worth a multiple of `u`. -/
theorem exists_block {u : Nat} (hu : 0 < u) (w : List Letter) (hw : u ≤ w.length) :
    ∃ a b c, w = a ++ b ++ c ∧ b ≠ [] ∧ u ∣ worth b := by
  -- two of the `w.length + 1` beginnings of `w` leave the same remainder
  have hcard : (Finset.range u).card < (Finset.range (w.length + 1)).card := by
    rw [Finset.card_range, Finset.card_range]
    omega
  obtain ⟨i, hi, j, hj, hne, hmod⟩ := Finset.exists_ne_map_eq_of_card_lt_of_maps_to hcard
    (f := fun k => worth (w.take k) % u) fun k _ => by simpa using Nat.mod_lt _ hu
  have key : ∀ i j, i < j → j ≤ w.length → worth (w.take i) % u = worth (w.take j) % u →
      ∃ a b c, w = a ++ b ++ c ∧ b ≠ [] ∧ u ∣ worth b := by
    intro i j hij hj hmod
    have hsplit : w.take j = w.take i ++ (w.take j).drop i := by
      conv => lhs; rw [← List.take_append_drop i (w.take j), List.take_take, Nat.min_eq_left hij.le]
    refine ⟨w.take i, (w.take j).drop i, w.drop j, ?_, ?_, ?_⟩
    · rw [← hsplit, List.take_append_drop]
    · intro hb
      have := congrArg List.length hb
      simp at this
      omega
    · have hsum := congrArg worth hsplit
      rw [worth_append] at hsum
      rw [show worth ((w.take j).drop i) = worth (w.take j) - worth (w.take i) by omega]
      exact Nat.dvd_of_mod_eq_zero (Nat.sub_mod_eq_zero_of_mod_eq hmod.symm)
  simp only [Finset.mem_range] at hi hj
  rcases Nat.lt_or_gt_of_ne hne with h | h
  · exact key i j h (by omega) hmod
  · exact key j i h (by omega) hmod.symm

/-- The letters of a word that are worth less than a letter. -/
def smaller (big : Letter) (w : List Letter) : List Letter :=
  w.filter fun l => l.points < big.points

def larger (big : Letter) (w : List Letter) : List Letter :=
  w.filter fun l => !decide (l.points < big.points)

theorem smaller_append_larger (big : Letter) (w : List Letter) :
    (smaller big w ++ larger big w).Perm w :=
  List.filter_append_perm _ w

theorem mem_smaller {big l : Letter} {w : List Letter} :
    l ∈ smaller big w ↔ l ∈ w ∧ l.points < big.points := by
  simp [smaller]

theorem mem_larger {big l : Letter} {w : List Letter} :
    l ∈ larger big w ↔ l ∈ w ∧ big.points ≤ l.points := by
  simp [larger]

section

variable {ls : List Letter} {big : Letter} (hbig : big ∈ ls)

include hbig

/-- A spelling with as many letters worth less than `big` as `big` is worth is not the shortest. -/
theorem exists_shorter {total : Nat} {w : List Letter} (hpos : 0 < big.points)
    (h : Spells ls total w) (hmany : big.points ≤ (smaller big w).length) :
    ∃ v, Spells ls total v ∧ v.length < w.length := by
  obtain ⟨a, b, c, habc, hb, q, hq⟩ := exists_block hpos (smaller big w) hmany
  have hperm := smaller_append_larger big w
  rw [habc] at hperm
  have hmem : ∀ l, l ∈ a ++ b ++ c ++ larger big w → l ∈ ls := fun l hl => h.mem l (hperm.mem_iff.1 hl)
  -- the letters of the block are worth less than so many largest letters
  have hless : worth b < b.length * big.points := by
    have hle : worth b ≤ b.length * (big.points - 1) := by
      refine worth_le fun l hl => ?_
      have hl : l ∈ smaller big w := by
        rw [habc]
        simp [hl]
      have := (mem_smaller.1 hl).2
      omega
    have hblen := List.length_pos_iff.2 hb
    calc worth b ≤ b.length * (big.points - 1) := hle
      _ < b.length * big.points := Nat.mul_lt_mul_of_pos_left (by omega) hblen
  have hqlt : q < b.length := by
    rw [hq, Nat.mul_comm] at hless
    exact Nat.lt_of_mul_lt_mul_right hless
  refine ⟨a ++ List.replicate q big ++ c ++ larger big w, ⟨fun l hl => ?_, ?_⟩, ?_⟩
  · simp only [List.mem_append, List.mem_replicate] at hl hmem
    rcases hl with ((hl | ⟨-, rfl⟩) | hl) | hl
    · exact hmem l (.inl (.inl (.inl hl)))
    · exact hbig
    · exact hmem l (.inl (.inr hl))
    · exact hmem l (.inr hl)
  · have hw := worth_perm hperm
    rw [h.worth_eq] at hw
    simp only [worth_append, worth_replicate] at hw ⊢
    rw [Nat.mul_comm q, ← hq]
    exact hw
  · have hlen := hperm.length_eq
    simp only [List.length_append, List.length_replicate] at hlen ⊢
    omega

/-- No letters more are needed for a spelling with fewer letters worth less than `big` than `big` is
worth. -/
theorem exists_few_smaller {total : Nat} (hpos : 0 < big.points) (w : List Letter)
    (h : Spells ls total w) :
    ∃ v, Spells ls total v ∧ v.length ≤ w.length ∧ (smaller big v).length < big.points := by
  induction hn : w.length using Nat.strong_induction_on generalizing w with
  | _ n ih =>
    by_cases hfew : (smaller big w).length < big.points
    · exact ⟨w, h, hn.le, hfew⟩
    · obtain ⟨v, hv, hlt⟩ := exists_shorter hbig hpos h (Nat.not_lt.1 hfew)
      obtain ⟨v', hv', hle, hfew'⟩ := ih v.length (hn ▸ hlt) v hv rfl
      exact ⟨v', hv', by omega, hfew'⟩

/-- As many largest letters as fit above the square of their points can be left out of a spelling,
which then needs no more of the other letters. -/
theorem exists_without_bulk {total k : Nat} {w : List Letter} (hpos : 0 < big.points)
    (hle : ∀ l ∈ ls, l.points ≤ big.points) (h : Spells ls total w)
    (hk : k * big.points + big.points * big.points ≤ total) :
    ∃ v, Spells ls (total - k * big.points) v ∧ v.length + k ≤ w.length := by
  obtain ⟨v, hv, hvlen, hfew⟩ := exists_few_smaller hbig hpos w h
  have hperm := smaller_append_larger big v
  have hlarge : worth (larger big v) = (larger big v).length * big.points :=
    worth_eq_mul fun l hl => by
      obtain ⟨hl, hge⟩ := mem_larger.1 hl
      exact Nat.le_antisymm (hle l (hv.mem l hl)) hge
  have hsmall : worth (smaller big v) < big.points * big.points := by
    calc worth (smaller big v) ≤ (smaller big v).length * big.points :=
          worth_le fun l hl => (mem_smaller.1 hl).2.le
      _ < big.points * big.points := Nat.mul_lt_mul_of_pos_right hfew hpos
  have hsum : worth (smaller big v) + worth (larger big v) = total := by
    rw [← worth_append, worth_perm hperm, hv.worth_eq]
  have hlen := hperm.length_eq
  rw [List.length_append] at hlen
  have hklt : k < (larger big v).length := by
    apply Nat.lt_of_mul_lt_mul_right (a := big.points)
    omega
  refine ⟨smaller big v ++ (larger big v).drop k, ⟨fun l hl => ?_, ?_⟩, ?_⟩
  · rcases List.mem_append.1 hl with hl | hl
    · exact hv.mem l (mem_smaller.1 hl).1
    · exact hv.mem l (mem_larger.1 (List.mem_of_mem_drop hl)).1
  · have hdrop : worth ((larger big v).take k) = k * big.points := by
      rw [worth_eq_mul (u := big.points), List.length_take, Nat.min_eq_left hklt.le]
      intro l hl
      obtain ⟨hl, hge⟩ := mem_larger.1 (List.mem_of_mem_take hl)
      exact Nat.le_antisymm (hle l (hv.mem l hl)) hge
    have hsplit := congrArg worth (List.take_append_drop k (larger big v))
    rw [worth_append, hdrop] at hsplit
    rw [worth_append]
    omega
  · rw [List.length_append, List.length_drop]
    omega

end

end Beatnik.Spelling
