import Beatnik.Cursor
import Beatnik.Proofs.WordRuns

/-!
# Looking ahead

A character that was looked at stands beside the text until it is taken.  Together with what has not been
looked at it makes up what is left (`left`), and this and the place determine what a call does, whether
or not there is a character beside the text:

    c.peek = (c.left.head?, ⟨c.left.head?, c.left.tail, c.location⟩)                        (peek_eq)
    c.next = (c.left.head?, ⟨none, c.left.tail, c.location.afterText (c.left.take 1)⟩)      (next_eq)

Looking so leaves both as they are.  After any calls only the number of those that take something
matters, for what is left (`left_after`), for the place (`location_after`) and for the characters that
were taken (`taken_eq`).
-/

namespace Beatnik.Cursor

/-! ## Calls -/

inductive Call where
  | peek
  | next
deriving DecidableEq, Repr

def after (c : Cursor) : List Call → Cursor
  | [] => c
  | .peek :: calls => c.peek.2.after calls
  | .next :: calls => c.next.2.after calls

/-- The answers to those of some calls that take a character. -/
def taken (c : Cursor) : List Call → List (Option Char)
  | [] => []
  | .peek :: calls => c.peek.2.taken calls
  | .next :: calls => c.next.1 :: c.next.2.taken calls

/-- The characters that can still be taken; one that was looked at comes first. -/
def left (c : Cursor) : List Char := c.ahead.toList ++ c.rest

/-! ## One call -/

variable (c : Cursor)

theorem peek_eq : c.peek = (c.left.head?, ⟨c.left.head?, c.left.tail, c.location⟩) := by
  rcases c with ⟨_ | x, _ | ⟨y, rest⟩, l⟩ <;> rfl

theorem next_eq :
    c.next = (c.left.head?, ⟨none, c.left.tail, c.location.afterText (c.left.take 1)⟩) := by
  rcases c with ⟨_ | x, _ | ⟨y, rest⟩, l⟩ <;> rfl

theorem left_peek : c.peek.2.left = c.left := by
  rw [peek_eq, left]
  cases c.left <;> rfl

theorem location_peek : c.peek.2.location = c.location := by
  rw [peek_eq]

theorem left_next : c.next.2.left = c.left.tail := by
  rw [next_eq]
  rfl

/-! ## Many calls -/

variable (calls : List Call)

theorem left_after : (c.after calls).left = c.left.drop (calls.count .next) := by
  induction calls generalizing c with
  | nil => rfl
  | cons k calls ih =>
    cases k with
    | peek => rw [after, ih, left_peek, List.count_cons_of_ne (by decide)]
    | next => rw [after, ih, left_next, List.count_cons_self, List.drop_tail]

theorem location_after :
    (c.after calls).location = c.location.afterText (c.left.take (calls.count .next)) := by
  induction calls generalizing c with
  | nil => rfl
  | cons k calls ih =>
    cases k with
    | peek => rw [after, ih, left_peek, location_peek, List.count_cons_of_ne (by decide)]
    | next =>
      have hsplit : c.left.take (calls.count .next + 1) =
          c.left.take 1 ++ c.left.tail.take (calls.count .next) := by
        rw [Nat.add_comm, List.take_add, List.drop_one]
      rw [after, ih, left_next, List.count_cons_self, hsplit, Location.afterText_append, next_eq]

/-- Each call that takes something gets the next character, and nothing beyond the end. -/
theorem taken_eq :
    c.taken calls = (c.left.take (calls.count .next)).map some ++
      List.replicate (calls.count .next - c.left.length) none := by
  induction calls generalizing c with
  | nil => simp [taken]
  | cons k calls ih =>
    cases k with
    | peek => rw [taken, ih, left_peek, List.count_cons_of_ne (by decide)]
    | next =>
      rw [taken, ih, left_next, next_eq, List.count_cons_self]
      cases c.left with
      | nil => simp [List.replicate_succ]
      | cons x rest => simp

theorem reduceOption_taken : (c.taken calls).reduceOption = c.left.take (calls.count .next) := by
  rw [taken_eq, List.reduceOption_append, List.reduceOption_replicate_none, List.append_nil,
    List.reduceOption, List.filterMap_map]
  exact List.filterMap_some

/-- Looking on and on does not change what is taken next. -/
theorem next_after_peeks (looks : Nat) :
    (c.after (List.replicate looks .peek)).next.1 = c.left.head? := by
  have hnone : (List.replicate looks Call.peek).count .next = 0 :=
    List.count_eq_zero.2 fun h => by cases List.eq_of_mem_replicate h
  rw [next_eq, left_after, hnone, List.drop_zero]

/-- **Peeking is invisible.**  After any calls on a cursor at the start of a text, calls beyond its end
among them: what was taken are the characters of the text, each once and in order, and then nothing; the
place is told by the line feeds and characters that were taken; a look leaves the place as it is and
tells what will be taken next, however often one looks again before that; and the same calls without the
looks take the same characters and lead to the same place. -/
theorem peeking_invisible (path text : String) (calls : List Call) :
    let start := ofText path text
    let c := start.after calls
    let n := calls.count .next
    start.taken calls =
      (text.toList.take n).map some ++ List.replicate (n - text.toList.length) none ∧
    c.location = .ofPrefix path (start.taken calls).reduceOption ∧
    c.peek.2.location = c.location ∧
    (∀ looks, c.peek.1 = (c.peek.2.after (List.replicate looks .peek)).next.1) ∧
    start.taken (calls.filter (· = .next)) = start.taken calls ∧
    (start.after (calls.filter (· = .next))).location = c.location := by
  intro start c n
  have hleft : start.left = text.toList := rfl
  have hcount : (calls.filter (· = .next)).count .next = n := List.count_filter (by decide)
  refine ⟨taken_eq start calls, ?_, location_peek c, fun looks => ?_, ?_, ?_⟩
  · calc c.location = (Location.ofPrefix path []).afterText (text.toList.take n) :=
          location_after start calls
      _ = .ofPrefix path (start.taken calls).reduceOption := by
          rw [Location.afterText_ofPrefix, List.nil_append, reduceOption_taken, hleft]
  · rw [next_after_peeks, left_peek, peek_eq]
  · rw [taken_eq, taken_eq, hcount]
  · rw [location_after, hcount, location_after start calls]

end Beatnik.Cursor
