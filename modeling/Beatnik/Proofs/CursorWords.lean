import Beatnik.Proofs.LookAhead

/-!
# Words read with a cursor

A cursor reads a text by two loops, which look at the next character before they take it: one goes past
separators, the other takes the characters of a word.  Both are `Cursor.takeWhile`, with opposite tests,
and they take turns until nothing is left (`Cursor.words`).  What is left and the place tell all that
they do:

    (c.takeWhile p).1 = c.left.takeWhile p,  (c.takeWhile p).2.left = c.left.dropWhile p
                                                                                      (takeWhile_spec)
    c.words = scanFrom c.location c.left                                        (words_eq_scanFrom)

So the loops find in a text the words that scanning finds (`words_ofText`).
-/

namespace Beatnik

/-! ## Separators -/

theorem Word.scanFrom_separators (l : Location) {seps : List Char}
    (h : ∀ c ∈ seps, isWordChar c = false) (rest : List Char) :
    scanFrom l (seps ++ rest) = scanFrom (l.afterText seps) rest := by
  induction seps generalizing l with
  | nil => rfl
  | cons c seps ih =>
    have hfirst : scanFrom l (c :: (seps ++ rest)) = scanFrom (l.after c) (seps ++ rest) :=
      scanFrom_append_cons l [] (seps ++ rest) (h c List.mem_cons_self)
    rw [List.cons_append, hfirst, ih _ fun d hd => h d (List.mem_cons_of_mem c hd)]
    rfl

namespace Cursor

/-! ## Taking characters -/

theorem peek_fst (c : Cursor) : c.peek.1 = c.left.head? := by
  rw [peek_eq]

theorem left_next_peek (c : Cursor) : c.peek.2.next.2.left = c.left.tail := by
  rw [left_next, left_peek]

theorem location_next_peek (c : Cursor) :
    c.peek.2.next.2.location = c.location.afterText (c.left.take 1) := by
  rw [next_eq, left_peek, location_peek]

theorem length_left_next_peek {c : Cursor} {x : Char} (h : c.peek.1 = some x) :
    c.peek.2.next.2.left.length < c.left.length := by
  rw [peek_fst] at h
  obtain ⟨rest, hleft⟩ := List.head?_eq_some_iff.1 h
  rw [left_next_peek, hleft]
  exact Nat.lt_succ_self _

/-- Takes characters as long as the next one passes a test. -/
def takeWhile (p : Char → Bool) (c : Cursor) : List Char × Cursor :=
  match h : c.peek.1 with
  | none => ([], c.peek.2)
  | some x =>
    have := length_left_next_peek h
    if p x then
      let taken := takeWhile p c.peek.2.next.2
      (x :: taken.1, taken.2)
    else ([], c.peek.2)
termination_by c.left.length

/-- The loop takes the longest part of what is left that passes the test, and stops right after it. -/
theorem takeWhile_spec (p : Char → Bool) (c : Cursor) :
    (c.takeWhile p).1 = c.left.takeWhile p ∧ (c.takeWhile p).2.left = c.left.dropWhile p ∧
      (c.takeWhile p).2.location = c.location.afterText (c.left.takeWhile p) := by
  fun_induction takeWhile p c with
  | case1 c h =>
    rw [peek_fst, List.head?_eq_none_iff] at h
    rw [left_peek, location_peek, h]
    exact ⟨rfl, rfl, rfl⟩
  | case2 c x h _ hx taken ih =>
    rw [peek_fst] at h
    obtain ⟨rest, hleft⟩ := List.head?_eq_some_iff.1 h
    obtain ⟨hchars, hrest, hplace⟩ := ih
    rw [left_next_peek, hleft, List.tail_cons] at hchars hrest hplace
    rw [location_next_peek, hleft] at hplace
    rw [hleft, List.takeWhile_cons_of_pos hx, List.dropWhile_cons_of_pos hx]
    exact ⟨congrArg (x :: ·) hchars, hrest, hplace⟩
  | case3 c x h _ hx =>
    rw [peek_fst] at h
    obtain ⟨rest, hleft⟩ := List.head?_eq_some_iff.1 h
    rw [left_peek, location_peek, hleft, List.takeWhile_cons_of_neg hx, List.dropWhile_cons_of_neg hx]
    exact ⟨rfl, rfl, rfl⟩

/-! ## Taking words -/

/-- Goes past the characters before the next word. -/
def skipSeparators (c : Cursor) : Cursor := (c.takeWhile fun x => !Word.isWordChar x).2

/-- Takes the word that starts here. -/
def takeWord (c : Cursor) : Word × Cursor :=
  let taken := c.takeWhile Word.isWordChar
  (⟨c.location, String.ofList taken.1⟩, taken.2)

theorem left_skipSeparators (c : Cursor) :
    c.skipSeparators.left = c.left.dropWhile fun x => !Word.isWordChar x :=
  (takeWhile_spec _ c).2.1

theorem takeWord_fst (c : Cursor) :
    c.takeWord.1 = ⟨c.location, String.ofList (c.left.takeWhile Word.isWordChar)⟩ := by
  rw [takeWord, (takeWhile_spec _ c).1]

theorem left_takeWord (c : Cursor) : c.takeWord.2.left = c.left.dropWhile Word.isWordChar :=
  (takeWhile_spec _ c).2.1

theorem isWordChar_of_skipSeparators {c : Cursor} {x : Char}
    (h : c.skipSeparators.peek.1 = some x) : Word.isWordChar x = true := by
  have hnot := List.head?_dropWhile_not (fun x => !Word.isWordChar x) c.left
  rw [peek_fst, left_skipSeparators] at h
  rw [h] at hnot
  simpa using hnot

theorem length_left_takeWord {c : Cursor} {x : Char} (h : c.skipSeparators.peek.1 = some x) :
    c.skipSeparators.peek.2.takeWord.2.left.length < c.left.length := by
  have hx := isWordChar_of_skipSeparators h
  rw [peek_fst] at h
  obtain ⟨rest, hleft⟩ := List.head?_eq_some_iff.1 h
  have hskip := List.length_dropWhile_le (fun x => !Word.isWordChar x) c.left
  rw [← left_skipSeparators, hleft, List.length_cons] at hskip
  have hword := List.length_dropWhile_le Word.isWordChar rest
  rw [left_takeWord, left_peek, hleft, List.dropWhile_cons_of_pos hx]
  omega

/-- The words that are left, taken one after the other. -/
def words (c : Cursor) : List Word :=
  match h : c.skipSeparators.peek.1 with
  | none => []
  | some _ =>
    have := length_left_takeWord h
    let taken := c.skipSeparators.peek.2.takeWord
    taken.1 :: taken.2.words
termination_by c.left.length

theorem scanFrom_skipSeparators (c : Cursor) :
    Word.scanFrom c.skipSeparators.location c.skipSeparators.left = Word.scanFrom c.location c.left := by
  obtain ⟨-, hleft, hplace⟩ := takeWhile_spec (fun x => !Word.isWordChar x) c
  have hseps : ∀ x ∈ c.left.takeWhile fun x => !Word.isWordChar x, Word.isWordChar x = false := by
    intro x hx
    simpa using List.mem_takeWhile_imp hx
  rw [skipSeparators, hleft, hplace, ← Word.scanFrom_separators _ hseps,
    List.takeWhile_append_dropWhile]

theorem scanFrom_takeWord {c : Cursor} {x : Char} (h : c.left.head? = some x)
    (hx : Word.isWordChar x = true) :
    Word.scanFrom c.location c.left =
      c.takeWord.1 :: Word.scanFrom c.takeWord.2.location c.takeWord.2.left := by
  obtain ⟨rest, hleft⟩ := List.head?_eq_some_iff.1 h
  have hne : c.left.takeWhile Word.isWordChar ≠ [] := by
    rw [hleft, List.takeWhile_cons_of_pos hx]
    exact List.cons_ne_nil _ _
  have hrun := Word.scanFrom_run c.location hne (fun y hy => List.mem_takeWhile_imp hy)
    fun y (hy : (c.left.dropWhile Word.isWordChar).head? = some y) => Word.isWordChar_head_dropWhile hy
  rw [List.takeWhile_append_dropWhile] at hrun
  rw [takeWord_fst, left_takeWord, takeWord, (takeWhile_spec _ c).2.2, hrun]

theorem words_eq_scanFrom (c : Cursor) : c.words = Word.scanFrom c.location c.left := by
  fun_induction words c with
  | case1 c h =>
    rw [peek_fst, List.head?_eq_none_iff] at h
    rw [← scanFrom_skipSeparators, h]
    rfl
  | case2 c x h _ taken ih =>
    have hx := isWordChar_of_skipSeparators h
    rw [peek_fst, ← left_peek] at h
    have hword := scanFrom_takeWord h hx
    rw [left_peek, location_peek, scanFrom_skipSeparators] at hword
    rw [ih, hword]

/-- The loops over a cursor find the words that scanning finds, each at its place. -/
theorem words_ofText (path text : String) : (ofText path text).words = Word.scan path text :=
  words_eq_scanFrom (ofText path text)

end Cursor

end Beatnik
