import Beatnik.Source
import Mathlib

/-!
# Reading characters

The reading of a character asks for a number of bytes that its first byte decides (`Source.asked`).  If
the source holds as many, they are read and no others, and they alone decide what is read
(`readChar_of_length_eq`); otherwise the reading takes all bytes and finds the end
(`readChar_of_length_lt`).

    got.length = asked got → readChar (ofBytes (got ++ j)) = giving (decoded got) (ofBytes j)

A character is read back from the bytes that it is written as:

    readChar (ofBytes (encode c ++ j)) = .ok (some c) (ofBytes j)                  (readChar_encode)
-/

namespace Beatnik

/-! ## Sequences -/

section

variable {ε σ α β : Type} {x : EStateM ε σ α} {f : α → EStateM ε σ β} {s s' : σ}

theorem bind_ok {a : α} (h : x s = .ok a s') : (x >>= f) s = f a s' := by
  show EStateM.bind x f s = _
  rw [EStateM.bind, h]

theorem bind_error {e : ε} (h : x s = .error e s') : (x >>= f) s = .error e s' := by
  show EStateM.bind x f s = _
  rw [EStateM.bind, h]

/-- A sequence succeeds if its first part succeeds and then its second part does. -/
theorem exists_of_bind_ok {b : β} (h : (x >>= f) s = .ok b s') :
    ∃ a u, x s = .ok a u ∧ f a u = .ok b s' := by
  cases hx : x s with
  | ok a u =>
    rw [bind_ok hx] at h
    exact ⟨a, u, rfl, h⟩
  | error e u =>
    rw [bind_error hx] at h
    cases h

/-- A sequence fails if its first part fails, or else if its second part does. -/
theorem exists_of_bind_error {e : ε} (h : (x >>= f) s = .error e s') :
    x s = .error e s' ∨ ∃ a u, x s = .ok a u ∧ f a u = .error e s' := by
  cases hx : x s with
  | ok a u =>
    rw [bind_ok hx] at h
    exact .inr ⟨a, u, rfl, h⟩
  | error e' u =>
    rw [bind_error hx] at h
    cases h
    exact .inl rfl

end

namespace Source

/-! ## What a character asks for -/

def giving {α : Type} (r : Except Fault α) (s : Source) : EStateM.Result Fault Source α :=
  match r with
  | .ok a => .ok a s
  | .error fault => .error fault s

/-- How many bytes the reading of a character asks for: as many as the first one announces, and only one
if there is none or it announces nothing. -/
def asked : List UInt8 → Nat
  | [] => 1
  | first :: _ => (Text.Utf8.announcedLength first).getD 1

/-- What is read from as many bytes as were asked for. -/
def decoded (got : List UInt8) : Except Fault (Option Char) :=
  ((got.head?.bind Text.Utf8.announcedLength).bind fun _ => Text.Utf8.decode? got).elim
    (.error (.undecodableInput got)) (.ok ∘ some)

theorem announcedLength_pos {first : UInt8} {n : Nat}
    (h : Text.Utf8.announcedLength first = some n) : 0 < n := by
  unfold Text.Utf8.announcedLength at h
  split at h
  · cases h; omega
  · split at h
    · cases h
    · split at h
      · cases h; omega
      · split at h
        · cases h; omega
        · split at h
          · cases h; omega
          · cases h

theorem asked_pos (bytes : List UInt8) : 0 < asked bytes := by
  rcases bytes with _ | ⟨first, bytes⟩
  · exact Nat.one_pos
  · rw [asked]
    cases h : Text.Utf8.announcedLength first with
    | none => exact Nat.one_pos
    | some n => exact announcedLength_pos h

theorem exists_asked {bytes : List UInt8} (h : asked bytes ≤ bytes.length) :
    ∃ got rest, bytes = got ++ rest ∧ got.length = asked got := by
  refine ⟨bytes.take (asked bytes), bytes.drop (asked bytes), (List.take_append_drop _ _).symm, ?_⟩
  rcases bytes with _ | ⟨first, more⟩
  · cases h
  · obtain ⟨n, hn⟩ := Nat.exists_eq_succ_of_ne_zero (Nat.ne_of_gt (asked_pos (first :: more)))
    rw [List.length_take, Nat.min_eq_left h, hn, List.take_succ_cons]
    exact hn.symm

/-! ## More bytes of a character -/

theorem readMore_cons (n : Nat) (bytes : List UInt8) (b : UInt8) (s : Source) :
    readMore (n + 1) bytes (.byte b :: s) = readMore n (bytes ++ [b]) s := by
  have hread : readByte (.byte b :: s) = .ok (some b) s := rfl
  rw [readMore, bind_ok hread]

theorem readMore_append (bytes got j : List UInt8) :
    readMore got.length bytes (ofBytes (got ++ j)) = .ok (bytes ++ got) (ofBytes j) := by
  induction got generalizing bytes with
  | nil =>
    rw [List.append_nil]
    rfl
  | cons b got ih =>
    have hrest := ih (bytes ++ [b])
    rw [List.append_assoc] at hrest
    exact (readMore_cons got.length bytes b _).trans hrest

theorem readMore_of_length_lt {n : Nat} {rest : List UInt8} (h : rest.length < n)
    (bytes : List UInt8) :
    readMore n bytes (ofBytes rest) = .error (.undecodableInput (bytes ++ rest)) [] := by
  obtain ⟨n, rfl⟩ : ∃ k, n = k + 1 := ⟨n - 1, by omega⟩
  induction rest generalizing n bytes with
  | nil =>
    rw [List.append_nil]
    rfl
  | cons b rest ih =>
    rw [List.length_cons] at h
    obtain ⟨n, rfl⟩ : ∃ k, n = k + 1 := ⟨n - 1, by omega⟩
    have hrest := ih (bytes ++ [b]) n (by omega)
    rw [List.append_assoc] at hrest
    exact (readMore_cons (n + 1) bytes b _).trans hrest

/-! ## Characters -/

section

variable {first : UInt8} {n : Nat} {s s' : Source}

theorem readChar_of_none (h : Text.Utf8.announcedLength first = none) (s : Source) :
    readChar (.byte first :: s) = .error (.undecodableInput [first]) s := by
  have hread : readByte (.byte first :: s) = .ok (some first) s := rfl
  rw [readChar, bind_ok hread]
  simp only [h]
  rfl

theorem readChar_of_readMore_ok {bytes : List UInt8} (h : Text.Utf8.announcedLength first = some n)
    (hmore : readMore (n - 1) [first] s = .ok bytes s') :
    readChar (.byte first :: s) =
      giving ((Text.Utf8.decode? bytes).elim (.error (.undecodableInput bytes)) (.ok ∘ some)) s' := by
  have hread : readByte (.byte first :: s) = .ok (some first) s := rfl
  rw [readChar, bind_ok hread]
  simp only [h]
  rw [bind_ok hmore]
  cases Text.Utf8.decode? bytes <;> rfl

theorem readChar_of_readMore_error {fault : Fault} (h : Text.Utf8.announcedLength first = some n)
    (hmore : readMore (n - 1) [first] s = .error fault s') :
    readChar (.byte first :: s) = .error fault s' := by
  have hread : readByte (.byte first :: s) = .ok (some first) s := rfl
  rw [readChar, bind_ok hread]
  simp only [h]
  rw [bind_error hmore]

end

/-- With as many bytes as it asks for, the reading of a character takes these and leaves the others. -/
theorem readChar_of_length_eq {got : List UInt8} (h : got.length = asked got) (j : List UInt8) :
    readChar (ofBytes (got ++ j)) = giving (decoded got) (ofBytes j) := by
  rcases got with _ | ⟨first, more⟩
  · cases h
  · rw [asked, List.length_cons] at h
    cases ha : Text.Utf8.announcedLength first with
    | none =>
      rw [ha] at h
      obtain rfl : more = [] := List.eq_nil_of_length_eq_zero (Nat.succ.inj h)
      rw [decoded, List.head?_cons, Option.bind_some, ha]
      exact readChar_of_none ha (ofBytes j)
    | some n =>
      obtain rfl : more.length + 1 = n := by rwa [ha] at h
      rw [decoded, List.head?_cons, Option.bind_some, ha]
      exact readChar_of_readMore_ok ha (readMore_append [first] more j)

/-- With fewer bytes the reading of a character takes them all and finds the end. -/
theorem readChar_of_length_lt {bytes : List UInt8} (h : bytes.length < asked bytes) :
    readChar (ofBytes bytes) =
      if bytes = [] then .ok none [] else .error (.undecodableInput bytes) [] := by
  rcases bytes with _ | ⟨first, more⟩
  · rfl
  · rw [if_neg (List.cons_ne_nil _ _)]
    rw [asked, List.length_cons] at h
    cases ha : Text.Utf8.announcedLength first with
    | none =>
      rw [ha, Option.getD_none] at h
      omega
    | some n =>
      rw [ha, Option.getD_some] at h
      exact readChar_of_readMore_error ha
        (readMore_of_length_lt (show more.length < n - 1 by omega) [first])

/-! ## Characters written before -/

section

open Text.Utf8

theorem announcedLength_ofNat {n : Nat} (h : n < 0x100) :
    announcedLength (UInt8.ofNat n) =
      if n < 0x80 then some 1
      else if n < 0xC0 then none
      else if n < 0xE0 then some 2
      else if n < 0xF0 then some 3
      else if n < 0xF8 then some 4
      else none := by
  simp only [announcedLength, UInt8.lt_iff_toNat_lt, UInt8.toNat_ofNat', Nat.mod_eq_of_lt h]
  rfl

/-- The first byte of a character announces all of its bytes. -/
theorem announcedLength_encode (c : Char) :
    (encode c).head?.bind announcedLength = some (encode c).length := by
  have hvalid := c.valid
  rw [UInt32.isValidChar, Nat.isValidChar] at hvalid
  rw [encode, String.utf8EncodeChar]
  split
  · rw [List.head?_cons, Option.bind_some, announcedLength_ofNat (by omega), if_pos (by omega)]
    rfl
  · split
    · rw [List.head?_cons, Option.bind_some, announcedLength_ofNat (by omega), if_neg (by omega),
        if_neg (by omega), if_pos (by omega)]
      rfl
    · split
      · rw [List.head?_cons, Option.bind_some, announcedLength_ofNat (by omega), if_neg (by omega),
          if_neg (by omega), if_neg (by omega), if_pos (by omega)]
        rfl
      · rw [List.head?_cons, Option.bind_some, announcedLength_ofNat (by omega), if_neg (by omega),
          if_neg (by omega), if_neg (by omega), if_neg (by omega), if_pos (by omega)]
        rfl

theorem decode?_encode (c : Char) : decode? (encode c) = some c := by
  have hdecode := List.utf8DecodeChar?_utf8Encode_singleton (c := c)
  have hbytes : (encode c).toByteArray = ByteArray.mk (encode c).toArray :=
    ByteArray.ext List.data_toByteArray
  rw [List.utf8Encode_singleton] at hdecode
  rw [decode?, ← hbytes]
  exact hdecode

theorem readChar_encode (c : Char) (j : List UInt8) :
    readChar (ofBytes (encode c ++ j)) = .ok (some c) (ofBytes j) := by
  have hannounced := announcedLength_encode c
  have hasked : (encode c).length = asked (encode c) := by
    cases hc : encode c with
    | nil => simp [encode] at hc
    | cons first more =>
      rw [hc] at hannounced
      rw [asked, show announcedLength first = _ from hannounced, Option.getD_some]
  rw [readChar_of_length_eq hasked, decoded, hannounced, Option.bind_some, decode?_encode]
  rfl

end

end Source

end Beatnik
