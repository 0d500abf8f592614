import Beatnik.Proofs.Reading

/-!
# Reading UTF-8

A character is read exactly when the bytes start with its encoding, and nothing is read exactly when
there are no bytes.  All other bytes are refused, after as many of them as the leading ones of the first
byte announce; the fault names these bytes.  Interruptions between bytes make no difference:

    s.quiet = ofBytes bytes → onSource quiet (readChar s) = readChar (ofBytes bytes)
                                                                                  (readChar_steady)

The whole is stated by `readChar_accepts_utf8`.
-/

namespace Beatnik.Source

/-! ## Interruptions -/

/-- What a source delivers besides interruptions. -/
def quiet (s : Source) : Source := s.filter (· ≠ .interrupted)

def onSource {α : Type} (f : Source → Source) :
    EStateM.Result Fault Source α → EStateM.Result Fault Source α
  | .ok a s => .ok a (f s)
  | .error fault s => .error fault (f s)

/-- A reader that interruptions make no difference to: it gives the same without them, and leaves the
same deliveries. -/
def Steady {α : Type} (x : Reader α) : Prop := ∀ s, x (quiet s) = onSource quiet (x s)

namespace Steady

variable {α β : Type}

theorem pure (a : α) : Steady (Pure.pure a : Reader α) := fun _ => rfl

theorem throw (fault : Fault) : Steady (MonadExcept.throw fault : Reader α) := fun _ => rfl

theorem bind {x : Reader α} {f : α → Reader β} (hx : Steady x) (hf : ∀ a, Steady (f a)) :
    Steady (x >>= f) := by
  intro s
  have hs := hx s
  cases hr : x s with
  | ok a s' =>
    rw [hr] at hs
    rw [bind_ok hr, bind_ok hs]
    exact hf a s'
  | error fault s' =>
    rw [hr] at hs
    rw [bind_error hr, bind_error hs]
    rfl

theorem readByte : Steady readByte := by
  intro s
  induction s with
  | nil => rfl
  | cons d s ih =>
    cases d with
    | byte b => rfl
    | finished => rfl
    | interrupted => exact ih
    | failed reason => rfl

theorem readMore (n : Nat) (bytes : List UInt8) : Steady (readMore n bytes) := by
  induction n generalizing bytes with
  | zero => exact .pure bytes
  | succ n ih =>
    refine readByte.bind fun o => ?_
    cases o with
    | none => exact .throw _
    | some b => exact ih (bytes ++ [b])

end Steady

theorem readChar_steady : Steady readChar := by
  refine Steady.readByte.bind fun o => ?_
  cases o with
  | none => exact .pure none
  | some first =>
    dsimp only
    cases Text.Utf8.announcedLength first with
    | none => exact .throw _
    | some length =>
      refine (Steady.readMore (length - 1) [first]).bind fun bytes => ?_
      cases Text.Utf8.decode? bytes with
      | none => exact .throw _
      | some c => exact .pure (some c)

/-! ## Characters at the start -/

section

open Text.Utf8

variable {bytes got rest : List UInt8} {c : Char}

/-- As many bytes are asked for as the character has that they start with. -/
theorem asked_of_isPrefix (h : encode c <+: bytes) : asked bytes = (encode c).length := by
  obtain ⟨rest, rfl⟩ := h
  have hannounced := announcedLength_encode c
  cases hc : encode c with
  | nil => simp [encode] at hc
  | cons first more =>
    rw [hc, List.head?_cons, Option.bind_some] at hannounced
    rw [List.cons_append, asked, hannounced, Option.getD_some]

theorem isPrefix_of_decode? (h : decode? bytes = some c) : encode c <+: bytes := by
  obtain ⟨l, hl⟩ := ByteArray.exists_of_utf8DecodeChar?_eq_some h
  refine ⟨l.data.toList, ?_⟩
  have hdata := congrArg (fun b => b.data.toList) hl
  simpa [List.utf8Encode_singleton, encode] using hdata.symm

/-- Bytes that were asked for start with a character only if they are all of it. -/
theorem eq_encode_of_isPrefix (hgot : got.length = asked got) (h : encode c <+: got ++ rest) :
    got = encode c := by
  have hsame : asked (got ++ rest) = asked got := by
    cases got with
    | nil => cases hgot
    | cons first more => rfl
  have hlen : (encode c).length = got.length := by rw [← asked_of_isPrefix h, hsame, hgot]
  exact ((List.prefix_of_prefix_length_le h (List.prefix_append got rest) hlen.le).eq_of_length
    hlen).symm

end

theorem decoded_ok {got : List UInt8} {o : Option Char} (h : decoded got = .ok o) :
    ∃ c, o = some c ∧ Text.Utf8.decode? got = some c := by
  rw [decoded] at h
  cases hlength : got.head?.bind Text.Utf8.announcedLength with
  | none =>
    rw [hlength] at h
    cases h
  | some n =>
    rw [hlength, Option.bind_some] at h
    cases hc : Text.Utf8.decode? got with
    | none =>
      rw [hc] at h
      cases h
    | some c =>
      rw [hc] at h
      cases h
      exact ⟨c, rfl, rfl⟩

/-- Bytes that are refused are no character. -/
theorem decoded_error {got : List UInt8} {fault : Fault} (h : decoded got = .error fault) :
    fault = .undecodableInput got ∧ ∀ c, got ≠ Text.Utf8.encode c := by
  constructor
  · rw [decoded] at h
    cases hc : (got.head?.bind Text.Utf8.announcedLength).bind fun _ => Text.Utf8.decode? got with
    | none =>
      rw [hc] at h
      cases h
      rfl
    | some c =>
      rw [hc] at h
      cases h
  · rintro c rfl
    rw [decoded, announcedLength_encode, Option.bind_some, decode?_encode] at h
    cases h

/-- What the reading of a character comes to on some bytes. -/
inductive Read (bytes : List UInt8) : EStateM.Result Fault Source (Option Char) → Prop
  /-- there are none -/
  | nothing : bytes = [] → Read bytes (.ok none [])
  /-- they start with a character -/
  | char (c : Char) (rest : List UInt8) : bytes = Text.Utf8.encode c ++ rest →
      Read bytes (.ok (some c) (ofBytes rest))
  /-- they start with none, which takes no more bytes than were asked for to be seen -/
  | refused : bytes ≠ [] → (∀ c, ¬ Text.Utf8.encode c <+: bytes) →
      Read bytes (.error (.undecodableInput (bytes.take (asked bytes)))
        (ofBytes (bytes.drop (asked bytes))))

section

variable {bytes : List UInt8} {r : EStateM.Result Fault Source (Option Char)} {t : Source}

theorem Read.of_some {c : Char} (h : Read bytes (.ok (some c) t)) :
    ∃ rest, bytes = Text.Utf8.encode c ++ rest ∧ t = ofBytes rest := by
  cases h with
  | char _ rest hbytes => exact ⟨rest, hbytes, rfl⟩

theorem Read.of_none (h : Read bytes (.ok none t)) : bytes = [] := by
  cases h with
  | nothing hnil => exact hnil

theorem Read.of_not_isPrefix (h : Read bytes r) (hne : bytes ≠ [])
    (hno : ∀ c, ¬ Text.Utf8.encode c <+: bytes) :
    r = .error (.undecodableInput (bytes.take (asked bytes))) (ofBytes (bytes.drop (asked bytes))) := by
  cases h with
  | nothing hnil => exact absurd hnil hne
  | char c rest hbytes => exact absurd ⟨rest, hbytes.symm⟩ (hno c)
  | refused _ _ => rfl

end

theorem read_ofBytes (bytes : List UInt8) : Read bytes (readChar (ofBytes bytes)) := by
  by_cases hnil : bytes = []
  · rw [hnil]
    exact .nothing rfl
  rcases Nat.lt_or_ge bytes.length (asked bytes) with hlt | hle
  · -- a character that they start with would have as many bytes as are asked for
    have hno : ∀ c, ¬ Text.Utf8.encode c <+: bytes := by
      intro c hc
      have := hc.length_le
      rw [← asked_of_isPrefix hc] at this
      omega
    have hrefused := Read.refused hnil hno
    rw [List.take_of_length_le hlt.le, List.drop_of_length_le hlt.le] at hrefused
    rw [readChar_of_length_lt hlt, if_neg hnil]
    exact hrefused
  · obtain ⟨got, rest, rfl, hgot⟩ := exists_asked hle
    have hasked : asked (got ++ rest) = got.length := by
      cases got with
      | nil => cases hgot
      | cons first more => exact hgot.symm
    rw [readChar_of_length_eq hgot]
    cases hd : decoded got with
    | ok o =>
      obtain ⟨c, rfl, hc⟩ := decoded_ok hd
      have hstart : Text.Utf8.encode c <+: got ++ [] := by
        rw [List.append_nil]
        exact isPrefix_of_decode? hc
      exact .char c rest (by rw [eq_encode_of_isPrefix hgot hstart])
    | error fault =>
      obtain ⟨rfl, hno⟩ := decoded_error hd
      have hrefused := Read.refused hnil fun c hc => hno c (eq_encode_of_isPrefix hgot hc)
      rwa [hasked, List.take_left, List.drop_left] at hrefused

/-! ## The first byte -/

/-- How many ones a byte has before its first zero, from the highest bit on. -/
def leadingOnes (b : UInt8) : Nat := ((List.range 8).takeWhile fun i => b.toNat.testBit (7 - i)).length

/-- How many bytes a refused reading takes, if there are as many: one that can be no first byte is
refused alone. -/
def refusedLength (first : UInt8) : Nat :=
  if (0x80 ≤ first ∧ first ≤ 0xBF) ∨ 0xF8 ≤ first then 1 else leadingOnes first

theorem announcedLength_ofNat_getD : ∀ n, n < 256 → 128 ≤ n →
    (Text.Utf8.announcedLength (UInt8.ofNat n)).getD 1 = refusedLength (UInt8.ofNat n) := by
  decide +kernel

theorem encode_ofNat : ∀ n, n < 128 → Text.Utf8.encode (Char.ofNat n) = [UInt8.ofNat n] := by
  decide +kernel

theorem asked_of_refused {first : UInt8} {more : List UInt8}
    (h : ∀ c, ¬ Text.Utf8.encode c <+: first :: more) : asked (first :: more) = refusedLength first := by
  have hofNat : UInt8.ofNat first.toNat = first := UInt8.ofNat_toNat
  rcases Nat.lt_or_ge first.toNat 128 with hlt | hge
  · refine absurd ⟨more, ?_⟩ (h (Char.ofNat first.toNat))
    rw [encode_ofNat _ hlt, hofNat, List.singleton_append]
  · have := announcedLength_ofNat_getD first.toNat first.toNat_lt hge
    rwa [hofNat] at this

/-! ## UTF-8 -/

section

variable {α : Type} {s : Source} {bytes : List UInt8} {x : Reader α}

theorem Steady.of_quiet (hx : Steady x) (h : s.quiet = ofBytes bytes) :
    onSource quiet (x s) = x (ofBytes bytes) := by
  rw [← h, hx s]

theorem onSource_eq_ok {r : EStateM.Result Fault Source α} {a : α} {t : Source}
    (h : onSource quiet r = .ok a t) : ∃ s', r = .ok a s' ∧ s'.quiet = t := by
  cases r with
  | ok b s' =>
    cases h
    exact ⟨s', rfl, rfl⟩
  | error fault s' => cases h

theorem onSource_eq_error {r : EStateM.Result Fault Source α} {fault : Fault} {t : Source}
    (h : onSource quiet r = .error fault t) : ∃ s', r = .error fault s' ∧ s'.quiet = t := by
  cases r with
  | ok b s' => cases h
  | error fault' s' =>
    cases h
    exact ⟨s', rfl, rfl⟩

end

open Text.Utf8 in
/-- **The reader accepts exactly UTF-8.**  Let a source deliver some bytes, with any interruptions
between them.  A character is read exactly if the bytes start with its encoding, and then these bytes
are gone; nothing is read exactly if there are no bytes.  All other bytes are refused, after as many
as the first of them announces, or after all of them if they are fewer: those bytes are gone, and the
message lists them.  What is read and which bytes are left is the same as without the interruptions. -/
theorem readChar_accepts_utf8 {s : Source} {bytes : List UInt8} (h : s.quiet = ofBytes bytes) :
    onSource quiet (readChar s) = readChar (ofBytes bytes) ∧
    (∀ c, (∃ s', readChar s = .ok (some c) s') ↔ encode c <+: bytes) ∧
    (∀ c s', readChar s = .ok (some c) s' → s'.quiet = ofBytes (bytes.drop (encode c).length)) ∧
    ((∃ s', readChar s = .ok none s') ↔ bytes = []) ∧
    ∀ first more, bytes = first :: more → (∀ c, ¬ encode c <+: bytes) →
      ∃ fault s', readChar s = .error fault s' ∧ fault.kind = .transfer ∧
        s'.quiet = ofBytes (bytes.drop (min (refusedLength first) bytes.length)) ∧
        fault.message = "Input bytes " ++
          Text.hexList (bytes.take (min (refusedLength first) bytes.length)) ++
          " are not valid UTF-8." := by
  have hquiet := readChar_steady.of_quiet h
  have hread := read_ofBytes bytes
  rw [← hquiet] at hread
  refine ⟨hquiet, fun c => ⟨?_, ?_⟩, ?_, ⟨?_, ?_⟩, ?_⟩
  · rintro ⟨s', hs'⟩
    rw [hs'] at hread
    obtain ⟨rest, hbytes, -⟩ := hread.of_some
    exact ⟨rest, hbytes.symm⟩
  · rintro ⟨rest, rfl⟩
    obtain ⟨s', hs', -⟩ := onSource_eq_ok (hquiet.trans (readChar_encode c rest))
    exact ⟨s', hs'⟩
  · intro c s' hs'
    rw [hs'] at hread
    obtain ⟨rest, rfl, hleft⟩ := hread.of_some
    rw [List.drop_left]
    exact hleft
  · rintro ⟨s', hs'⟩
    rw [hs'] at hread
    exact hread.of_none
  · rintro rfl
    obtain ⟨s', hs', -⟩ := onSource_eq_ok (t := []) hquiet
    exact ⟨s', hs'⟩
  · rintro first more rfl hno
    rw [← asked_of_refused hno, ← List.take_eq_take_min, ← List.drop_eq_drop_min]
    obtain ⟨s', hs', hleft⟩ := onSource_eq_error (hread.of_not_isPrefix (List.cons_ne_nil _ _) hno)
    exact ⟨_, s', hs', rfl, hleft, rfl⟩

/-- The three bytes of a surrogate, with interruptions before and between them, are refused all
together, and the `A` after them is left. -/
theorem readChar_accepts_utf8_surrogate :
    let s : Source := [.interrupted, .byte 0xED, .interrupted, .byte 0xA0, .byte 0x80, .byte 0x41]
    s.quiet = ofBytes [0xED, 0xA0, 0x80, 0x41] ∧
      (∀ c, ¬ Text.Utf8.encode c <+: [0xED, 0xA0, 0x80, 0x41]) ∧
      ∃ fault s', readChar s = .error fault s' ∧ fault.kind = .transfer ∧ s'.quiet = ofBytes [0x41] ∧
        fault.message = "Input bytes [ed, a0, 80] are not valid UTF-8." := by
  intro s
  have hquiet : s.quiet = ofBytes [0xED, 0xA0, 0x80, 0x41] := rfl
  have hread : readChar s = .error (.undecodableInput [0xED, 0xA0, 0x80]) [.byte 0x41] := rfl
  obtain ⟨-, hiff, -, -, hrefused⟩ := readChar_accepts_utf8 hquiet
  have hno : ∀ c, ¬ Text.Utf8.encode c <+: [0xED, 0xA0, 0x80, 0x41] := by
    intro c hc
    obtain ⟨s', hs'⟩ := (hiff c).2 hc
    rw [hread] at hs'
    cases hs'
  obtain ⟨fault, s', hs', hkind, hleft, hmessage⟩ := hrefused 0xED _ rfl hno
  exact ⟨hquiet, hno, fault, s', hs', hkind, hleft, hmessage⟩

end Beatnik.Source
