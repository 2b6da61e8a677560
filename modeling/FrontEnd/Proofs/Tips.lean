import FrontEnd.Proofs.Numerals

/-!
Tips for refused literals. A literal is refused for one of two reasons: a digit that does not belong
to its base, which only an octal literal can have, or a number that does not fit. The tip goes by
the base alone. So it gives the right reason for every literal but the octal ones that spell a
number that does not fit.
-/

namespace FrontEnd

namespace Cause

def octalTip : String :=
  "a leading 0 makes the literal octal, which only allows the digits 0 to 7"

def rangeTip : String :=
  "integers must fit in a signed 64-bit value"

end Cause

open Cause

def HasWrongDigit (s : String) : Prop :=
  IsOctal s ∧ ('8' ∈ s.toList ∨ '9' ∈ s.toList)

def IsTooGreat (s : String) : Prop :=
  ∃ n, Spells s n ∧ 2 ^ 63 - 1 < n

/-- Each tip is given for its own reason, and only for that. -/
def GivesReason (s : String) (tip : Option String) : Prop :=
  (tip = some octalTip ↔ HasWrongDigit s) ∧ (tip = some rangeTip ↔ IsTooGreat s)

section

variable {s : String} {n : Nat} {c : Char}

theorem tip?_of_octal (h : IsOctal s) : (badInteger s).tip? = some octalTip := by
  obtain ⟨d, ds, hs⟩ := h.exists_toList
  simp [tip?, hs, octalTip]

theorem tip?_of_not_octal (h : ¬ IsOctal s) : (badInteger s).tip? = some rangeTip := by
  rw [IsOctal, ← String.length_toList] at h
  rw [tip?]
  split
  · next hs => simp [hs] at h
  · rfl

theorem octalTip_ne_rangeTip : octalTip ≠ rangeTip := by
  decide

/-- There are two digits that are not octal. -/
theorem not_octal_digit_iff (h : c.isDigit = true) :
    ¬ ('0' ≤ c ∧ c ≤ '7') ↔ c = '8' ∨ c = '9' := by
  have hc := Char.isDigit_iff_toNat.mp h
  rw [← isDigitOf_eight_iff, IsDigitOf, ← Char.toNat_inj, ← Char.toNat_inj]
  have h0 : '0'.toNat = 48 := rfl
  have h8 : '8'.toNat = 56 := rfl
  have h9 : '9'.toNat = 57 := rfl
  simp only [h, true_and]
  omega

/-- Only a wrong digit keeps a literal from spelling a number. -/
theorem hasWrongDigit_iff (h : IsNumeral s) : HasWrongDigit s ↔ ∀ n, ¬ Spells s n := by
  rcases octal_or_decimal h.ne_nil with ho | hd
  · simp only [spells_iff_of_octal ho]
    constructor
    · rintro ⟨-, hw⟩ n ⟨hd, -⟩
      rcases hw with hw | hw
      · exact absurd (hd _ hw) (by decide)
      · exact absurd (hd _ hw) (by decide)
    · intro hn
      obtain ⟨c, hc, hw⟩ : ∃ c ∈ s.toList, ¬ ('0' ≤ c ∧ c ≤ '7') := by
        by_contra hno
        push Not at hno
        exact hn _ ⟨fun c hc => hno c hc, rfl⟩
      rcases (not_octal_digit_iff (h.digit c hc)).mp hw with rfl | rfl
      · exact ⟨ho, .inl hc⟩
      · exact ⟨ho, .inr hc⟩
  · exact iff_of_false (fun hw => not_isOctal hd hw.1) fun hn => hn _ (.decimal hd)

/-- A literal without a value has a wrong digit or is too great, but not both. -/
theorem hasWrongDigit_iff_not_isTooGreat (h : IsNumeral s) (hv : integerValue? s.toList = none) :
    HasWrongDigit s ↔ ¬ IsTooGreat s := by
  rw [hasWrongDigit_iff h]
  constructor
  · rintro hn ⟨n, hs, -⟩
    exact hn n hs
  · intro hg n hs
    have hle : ¬ n ≤ maxInteger := fun hle => by
      rw [(integerValue?_eq_some_iff h).mpr ⟨hs, hle⟩] at hv
      contradiction
    exact hg ⟨n, hs, Nat.lt_of_not_le hle⟩

end

/-- A refused literal gets the tip of its base. That is the one for the real reason unless the
literal is octal and has no wrong digit, but spells a number that does not fit. -/
theorem refused_tip (s : String) (name : Option String) (values : Values) (h : IsNumeral s)
    (hr : ¬ ∃ v, ReadsInteger s name values v) :
    ∃ d, (parse s name values).2.diagnostics = [d] ∧ d.cause = .badInteger s ∧
      (d.cause.tip? = some octalTip ↔ IsOctal s) ∧
      (d.cause.tip? = some rangeTip ↔ ¬ IsOctal s) ∧
      (HasWrongDigit s ↔ ¬ IsTooGreat s) ∧
      (GivesReason s d.cause.tip? ↔ ¬ (IsOctal s ∧ IsTooGreat s)) := by
  have hv := (integerValue?_eq_none_iff h name values).mpr hr
  have hw := hasWrongDigit_iff_not_isTooGreat h hv
  have ho : HasWrongDigit s → IsOctal s := And.left
  refine ⟨_, (parse_of_no_value h hv).2, rfl, ?_⟩
  by_cases hs : IsOctal s
  · rw [tip?_of_octal hs, GivesReason]
    simp only [Option.some.injEq, octalTip_ne_rangeTip]
    tauto
  · rw [tip?_of_not_octal hs, GivesReason]
    simp only [Option.some.injEq, octalTip_ne_rangeTip.symm]
    tauto

/-- The literal `09` gets the tip that is right for it. -/
theorem refused_tip_nine :
    IsNumeral "09" ∧ (¬ ∃ v, ReadsInteger "09" none .parsed v) ∧
      ∃ d, (parse "09" none .parsed).2.diagnostics = [d] ∧ GivesReason "09" d.cause.tip? := by
  have h : IsNumeral "09" := by decide
  have hr := (integerValue?_eq_none_iff h none .parsed).mp (by decide)
  have hw : HasWrongDigit "09" := ⟨⟨by decide, rfl⟩, .inr (by decide)⟩
  obtain ⟨d, hd, -, -, -, hone, hg⟩ := refused_tip "09" none .parsed h hr
  exact ⟨h, hr, d, hd, hg.mpr fun ⟨_, hgreat⟩ => hone.mp hw hgreat⟩

/-- The octal literal of the least number that does not fit gets the tip about its digits, though
none of them is wrong. -/
theorem refused_tip_misleading :
    let s := "01000000000000000000000"
    IsNumeral s ∧ (¬ ∃ v, ReadsInteger s none .parsed v) ∧ IsTooGreat s ∧ ¬ HasWrongDigit s ∧
      ∃ d, (parse s none .parsed).2.diagnostics = [d] ∧ d.cause.tip? = some octalTip := by
  intro s
  have h : IsNumeral s := by decide
  have hv : integerValue? s.toList = none := by decide
  have ho : IsOctal s := ⟨by decide, by decide⟩
  have ht : "0" ++ String.ofList (Nat.toDigits 8 (2 ^ 63)) = s := by decide
  have hs : Spells s (2 ^ 63) := ht ▸ spells_toDigits_eight (2 ^ 63)
  exact ⟨h, (integerValue?_eq_none_iff h none .parsed).mp hv, ⟨_, hs, by decide⟩,
    fun hw => (hasWrongDigit_iff h).mp hw _ hs, _, (parse_of_no_value h hv).2, tip?_of_octal ho⟩

end FrontEnd
