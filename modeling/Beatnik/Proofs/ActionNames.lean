import Beatnik.Proofs.Tables.Parts

/-!
# The names of actions

A text names an action when, without the blanks around it, it is the name of the action up to the case
of ASCII letters.  Names are compared in lower case, over all of Unicode.  That is no looser: the sign of
the unit kelvin, the only other character with an ASCII letter for its lower case, becomes `k`, which
stands in no name, and the lower case of `İ` has a dot besides the `i`.

The letter `Σ` has a second lower case, `ς`, at the end of a word.  Which of the two is taken makes no
difference to the names (`eq_name_iff_of_lowersTo`).
-/

namespace Beatnik

namespace Text

/-! ## Lower case with a final sigma -/

/-- `ds` is the lower case of `cs`, with either lower case for each `Σ`. -/
inductive LowersTo : List Char → List Char → Prop
  | nil : LowersTo [] []
  | cons {cs ds : List Char} (c : Char) : LowersTo cs ds → LowersTo (c :: cs) (lower c ++ ds)
  | finalSigma {cs ds : List Char} : LowersTo cs ds → LowersTo ('Σ' :: cs) ('ς' :: ds)

theorem lowersTo_lowerText (cs : List Char) : LowersTo cs (lowerText cs) := by
  induction cs with
  | nil => exact .nil
  | cons c cs ih => exact .cons c ih

theorem LowersTo.isAlpha {cs ds : List Char} (h : LowersTo cs ds)
    (hds : ∀ d ∈ ds, d.isAlpha = true ∧ d ≠ 'k') : ∀ c ∈ cs, c.isAlpha = true := by
  induction h with
  | nil => simp
  | cons c _ ih =>
    intro b hb
    rcases List.mem_cons.1 hb with rfl | hb
    · exact isAlpha_of_lower fun d hd => hds d (List.mem_append_left _ hd)
    · exact ih (fun d hd => hds d (List.mem_append_right _ hd)) b hb
  | finalSigma _ _ => exact absurd (hds 'ς' List.mem_cons_self).1 (by decide)

/-- Without a `Σ` there is one lower case. -/
theorem LowersTo.eq_lowerText {cs ds : List Char} (h : LowersTo cs ds)
    (hcs : ∀ c ∈ cs, c.isAlpha = true) : ds = lowerText cs := by
  induction h with
  | nil => rfl
  | cons c _ ih => rw [ih fun b hb => hcs b (List.mem_cons_of_mem _ hb)]; rfl
  | finalSigma _ _ => exact absurd (hcs 'Σ' List.mem_cons_self) (by decide)

end Text

namespace Action

/-! ## Names -/

theorem toLower_name (a : Action) : a.name.toList.map Char.toLower = a.name.toList := by
  cases a <;> decide

theorem parse_eq_ok {text : String} {a : Action} :
    parse text = .ok a ↔ (Text.trim text.toList).map Char.toLower = a.name.toList := by
  rw [← ofText?_eq_some, parse]
  cases ofText? text.toList with
  | none => simp
  | some b => simp

theorem parse_eq_error {text : String} (h : ∀ a, parse text ≠ .ok a) :
    parse text = .error (.unknownAction (String.ofList (Text.trim text.toList))) := by
  rw [parse] at h ⊢
  cases hb : ofText? text.toList with
  | none => rfl
  | some b =>
    rw [hb] at h
    exact absurd rfl (h b)

/-- A text in lower case, whichever lower case is taken for a `Σ`, is a name only if the text is the
name up to the case of ASCII letters. -/
theorem eq_name_iff_of_lowersTo {cs ds : List Char} (h : Text.LowersTo cs ds) (a : Action) :
    ds = a.name.toList ↔ cs.map Char.toLower = a.name.toList := by
  rw [← Text.lowerText_eq_iff a.isAlpha_name]
  constructor
  · intro hds
    have hcs := h.isAlpha (hds ▸ a.isAlpha_name)
    rw [← h.eq_lowerText hcs, hds]
  · intro hlower
    have hcs := (Text.lowersTo_lowerText cs).isAlpha (hlower ▸ a.isAlpha_name)
    rw [h.eq_lowerText hcs, hlower]

theorem lt_of_toLower_eq_name {cs : List Char} {a : Action}
    (h : cs.map Char.toLower = a.name.toList) : ∀ c ∈ cs, c.toNat < 128 := by
  intro c hc
  have hlower : c.toLower.isAlpha = true := (a.isAlpha_name _ (h ▸ List.mem_map_of_mem hc)).1
  have := (Text.isAlpha_iff c).1 (Text.isAlpha_of_toLower hlower)
  omega

/-- **Action names are recognised exactly.**  Let `t` be a text without the blanks at its ends.  The
text names an action exactly if `t` is the name of the action up to the case of ASCII letters, which is
to say that the lower case of `t` is the name, whichever lower case is taken for a `Σ`; and no `t` with
a character past ASCII names one.  Every other text is refused as a configuration error that says `t`. -/
theorem parse_exact (text : String) :
    ∃ t, Text.Trims text.toList t ∧
    (∀ a, parse text = .ok a ↔ t.map Char.toLower = a.name.toList.map Char.toLower) ∧
    (∀ a lowered, Text.LowersTo t lowered → (parse text = .ok a ↔ lowered = a.name.toList)) ∧
    ((∃ c ∈ t, 128 ≤ c.toNat) → ∀ a, parse text ≠ .ok a) ∧
    ((∀ a, parse text ≠ .ok a) →
      ∃ fault, parse text = .error fault ∧ fault.kind = .configuration ∧
        fault.message = "Unknown action " ++ String.ofList t ++ ".") := by
  refine ⟨Text.trim text.toList, Text.trims_trim _, fun a => ?_, fun a lowered hlowered => ?_, ?_,
    fun hnone => ?_⟩
  · rw [parse_eq_ok, toLower_name]
  · rw [parse_eq_ok, eq_name_iff_of_lowersTo hlowered]
  · rintro ⟨c, hc, hpast⟩ a ha
    have := lt_of_toLower_eq_name (parse_eq_ok.1 ha) c hc
    omega
  · exact ⟨_, parse_eq_error hnone, rfl, rfl⟩

end Action

end Beatnik
