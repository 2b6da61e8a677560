import Mathlib.Algebra.GroupWithZero.Nat
import Mathlib.Algebra.Ring.Int.Defs
import FrontEnd.Proofs.LongestMatch
import FrontEnd.Proofs.ReadingOrder

/-!
Integer literals and the numbers they spell. Two or more digits with a zero in front are octal, all
other literals are decimal. A literal is read as the number that its digits spell in its base, and
it is refused exactly if a digit does not belong to the base or the number does not fit in a signed
64-bit word. So every number that fits is read from its numeral in either base.
-/

namespace FrontEnd

instance (s : String) : Decidable (IsNumeral s) :=
  decidable_of_iff (s.toList ≠ [] ∧ s.toList.all Char.isDigit = true)
    ⟨fun h => ⟨h.1, List.all_eq_true.mp h.2⟩, fun h => ⟨h.ne_nil, List.all_eq_true.mpr h.digit⟩⟩

def IsDigitOf (base : Nat) (c : Char) : Prop :=
  c.isDigit = true ∧ c.toNat - '0'.toNat < base

def IsOctal (s : String) : Prop :=
  2 ≤ s.length ∧ s.toList.head? = some '0'

/-- The number that a literal spells, whatever its size. -/
inductive Spells (s : String) : Nat → Prop
  | decimal : s = "0" ∨ s.toList.head? ≠ some '0' → Spells s (Nat.ofDigitChars 10 s.toList 0)
  | octal : IsOctal s → (∀ c ∈ s.toList, '0' ≤ c ∧ c ≤ '7') →
      Spells s (Nat.ofDigitChars 8 s.toList 0)

/-- The text is read as one integer that has all of it as its literal, and nothing is wrong. -/
def ReadsInteger (text : String) (name : Option String) (values : Values) (value : Int) : Prop :=
  ∃ first token span,
    (parse text name values).1.statements = [.expression first (.integer token value) span] ∧
      token.literal = text ∧ (parse text name values).2.diagnostics = []

def RefusesInteger (text : String) (name : Option String) (values : Values) : Prop :=
  (parse text name values).1.statements = [] ∧
    (parse text name values).2.diagnostics =
      [⟨.badInteger text, .ofOffset (name.getD shellName) 0⟩]

section

variable {base n v : Nat} {c : Char} {digits : List Char} {s : String}

theorem isDigitOf_ten (h : c.isDigit = true) : IsDigitOf 10 c := by
  have hc := Char.isDigit_iff_toNat.mp h
  have h0 : '0'.toNat = 48 := rfl
  have h9 : '9'.toNat = 57 := rfl
  exact ⟨h, by omega⟩

theorem isDigitOf_eight_iff : IsDigitOf 8 c ↔ '0' ≤ c ∧ c ≤ '7' := by
  have h0 : '0'.toNat = 48 := rfl
  have h7 : '7'.toNat = 55 := rfl
  have h9 : '9'.toNat = 57 := rfl
  rw [IsDigitOf, Char.isDigit_iff_toNat, Char.le_def, Char.le_def, UInt32.le_iff_toNat_le,
    UInt32.le_iff_toNat_le]
  simp only [Char.toNat_val]
  omega

theorem digitValue?_eq_some_iff :
    digitValue? base c = some n ↔ IsDigitOf base c ∧ c.toNat - '0'.toNat = n := by
  simp [digitValue?, IsDigitOf]

/-- Digits are taken one by one as long as they belong to the base. -/
theorem foldlM_digitValue? :
    digits.foldlM (fun n c => (digitValue? base c).map (n * base + ·)) n = some v ↔
      (∀ c ∈ digits, IsDigitOf base c) ∧ Nat.ofDigitChars base digits n = v := by
  induction digits generalizing n with
  | nil => simp
  | cons c digits ih =>
      rw [List.foldlM_cons, Nat.ofDigitChars_cons, List.forall_mem_cons, Option.bind_eq_bind,
        Option.bind_eq_some_iff]
      simp only [ih, Option.map_eq_some_iff, digitValue?_eq_some_iff]
      constructor
      · rintro ⟨_, ⟨_, ⟨hc, rfl⟩, rfl⟩, hd, hv⟩
        exact ⟨⟨hc, hd⟩, by rw [Nat.mul_comm]; exact hv⟩
      · rintro ⟨⟨hc, hd⟩, hv⟩
        exact ⟨_, ⟨_, ⟨hc, rfl⟩, rfl⟩, hd, by rw [Nat.mul_comm]; exact hv⟩

theorem valueInBase?_eq_some_iff :
    valueInBase? base digits = some v ↔
      (∀ c ∈ digits, IsDigitOf base c) ∧ Nat.ofDigitChars base digits 0 = v :=
  foldlM_digitValue?

theorem octal_or_decimal (h : s.toList ≠ []) :
    IsOctal s ∨ s = "0" ∨ s.toList.head? ≠ some '0' := by
  by_cases h0 : s.toList.head? = some '0'
  · rw [IsOctal, ← String.length_toList, ← String.toList_inj]
    match hs : s.toList with
    | [] => contradiction
    | [c] => simp_all
    | c :: d :: ds => simp_all
  · exact .inr (.inr h0)

theorem not_isOctal (h : s = "0" ∨ s.toList.head? ≠ some '0') : ¬ IsOctal s := by
  rintro ⟨hl, h0⟩
  rcases h with rfl | h
  · exact absurd hl (by decide)
  · exact h h0

theorem IsOctal.exists_toList (h : IsOctal s) : ∃ d ds, s.toList = '0' :: d :: ds := by
  obtain ⟨hl, h0⟩ := h
  rw [← String.length_toList] at hl
  match hs : s.toList with
  | [] | [c] => simp [hs] at hl
  | c :: d :: ds => simp_all

theorem spells_iff_of_octal (ho : IsOctal s) :
    Spells s v ↔
      (∀ c ∈ s.toList, '0' ≤ c ∧ c ≤ '7') ∧ Nat.ofDigitChars 8 s.toList 0 = v := by
  constructor
  · intro h
    cases h with
    | decimal hd => exact absurd ho (not_isOctal hd)
    | octal _ hd => exact ⟨hd, rfl⟩
  · rintro ⟨hd, rfl⟩
    exact .octal ho hd

theorem spells_iff_of_decimal (hd : s = "0" ∨ s.toList.head? ≠ some '0') :
    Spells s v ↔ Nat.ofDigitChars 10 s.toList 0 = v := by
  constructor
  · intro h
    cases h with
    | decimal => rfl
    | octal ho => exact absurd ho (not_isOctal hd)
  · rintro rfl
    exact .decimal hd

theorem integerValue?_of_octal (h : IsOctal s) :
    integerValue? s.toList = (valueInBase? 8 s.toList).filter (· ≤ maxInteger) := by
  obtain ⟨d, ds, hs⟩ := h.exists_toList
  rw [hs]
  rfl

theorem integerValue?_of_decimal (hn : s.toList ≠ [])
    (h : s = "0" ∨ s.toList.head? ≠ some '0') :
    integerValue? s.toList = (valueInBase? 10 s.toList).filter (· ≤ maxInteger) := by
  rcases h with rfl | h
  · rfl
  · unfold integerValue?
    split <;> simp_all

/-- A literal has a value if it spells a number that fits. -/
theorem integerValue?_eq_some_iff (h : IsNumeral s) :
    integerValue? s.toList = some v ↔ Spells s v ∧ v ≤ maxInteger := by
  rcases octal_or_decimal h.ne_nil with ho | hd
  · rw [spells_iff_of_octal ho, integerValue?_of_octal ho, Option.filter_eq_some_iff,
      valueInBase?_eq_some_iff, decide_eq_true_eq]
    simp only [isDigitOf_eight_iff]
  · have hten : ∀ c ∈ s.toList, IsDigitOf 10 c := fun c hc => isDigitOf_ten (h.digit c hc)
    rw [spells_iff_of_decimal hd, integerValue?_of_decimal h.ne_nil hd, Option.filter_eq_some_iff,
      valueInBase?_eq_some_iff, decide_eq_true_eq]
    exact and_congr_left' (and_iff_right hten)

/-- A literal spells one number. -/
theorem Spells.unique (hn : s.toList ≠ []) (h : Spells s n) (h' : Spells s v) : n = v := by
  rcases octal_or_decimal hn with ho | hd
  · exact ((spells_iff_of_octal ho).mp h).2.symm.trans ((spells_iff_of_octal ho).mp h').2
  · exact ((spells_iff_of_decimal hd).mp h).symm.trans ((spells_iff_of_decimal hd).mp h')

end

section

variable {base n k : Nat} {s : String}

theorem toNat_digitChar (h : n < 10) : n.digitChar.toNat - '0'.toNat = n :=
  Nat.toNat_digitChar_sub_48_of_lt_ten h

theorem isDigitOf_of_mem_toDigits (hb : 1 < base) (hten : base ≤ 10) :
    ∀ c ∈ Nat.toDigits base n, IsDigitOf base c := by
  induction n using Nat.strongRecOn with
  | ind n ih =>
      have hlast : ∀ m < base, IsDigitOf base m.digitChar := fun m hm => by
        have hd : m.digitChar ∈ Nat.toDigits base m := by simp [Nat.toDigits_of_lt_base hm]
        refine ⟨Nat.isDigit_of_mem_toDigits (by omega) hten hd, ?_⟩
        rw [toNat_digitChar (by omega)]
        exact hm
      rw [Nat.toDigits_eq_if hb]
      split
      · next hlt => simpa using hlast n hlt
      · next hle =>
          have hdiv := ih (n / base) (Nat.div_lt_self (by omega) hb)
          simpa [or_imp, forall_and] using ⟨hdiv, hlast _ (Nat.mod_lt n (by omega))⟩

/-- A numeral has no zero in front. -/
theorem head?_toDigits_ne_zero (hb : 1 < base) (hten : base ≤ 10) (hn : 0 < n) :
    (Nat.toDigits base n).head? ≠ some '0' := by
  induction n using Nat.strongRecOn with
  | ind n ih =>
      rw [Nat.toDigits_eq_if hb]
      split
      · next hlt =>
          intro h0
          have hd := toNat_digitChar (n := n) (by omega)
          rw [List.head?_cons, Option.some.injEq] at h0
          rw [h0] at hd
          omega
      · next hle =>
          rw [List.head?_append_of_ne_nil _ Nat.toDigits_ne_nil]
          exact ih _ (Nat.div_lt_self hn hb) (Nat.div_pos (by omega) (by omega))

/-- Every number is spelled by its decimal numeral. -/
theorem spells_repr (n : Nat) : Spells n.repr n := by
  have hd : n.repr = "0" ∨ n.repr.toList.head? ≠ some '0' := by
    rcases Nat.eq_zero_or_pos n with rfl | hn
    · exact .inl rfl
    · rw [Nat.toList_repr]
      exact .inr (head?_toDigits_ne_zero (by decide) (by decide) hn)
  rw [spells_iff_of_decimal hd, Nat.toList_repr, Nat.ofDigitChars_ten_toDigits]

/-- A zero in front makes digits octal, and further ones make no difference. -/
theorem spells_zeros_iff (h : IsNumeral s) :
    Spells ("0" ++ String.ofList (List.replicate k '0') ++ s) n ↔
      (∀ c ∈ s.toList, '0' ≤ c ∧ c ≤ '7') ∧ Nat.ofDigitChars 8 s.toList 0 = n := by
  have hpos := List.length_pos_iff.mpr h.ne_nil
  have hzero : '0' ≤ '0' ∧ '0' ≤ '7' := by decide
  have hl : ("0" ++ String.ofList (List.replicate k '0') ++ s).toList =
      '0' :: (List.replicate k '0' ++ s.toList) := by simp
  have ho : IsOctal ("0" ++ String.ofList (List.replicate k '0') ++ s) := by
    rw [IsOctal, ← String.length_toList, hl, List.length_cons, List.length_append]
    exact ⟨by omega, rfl⟩
  rw [spells_iff_of_octal ho, hl, Nat.ofDigitChars_cons, Nat.ofDigitChars_append]
  simp [or_imp, forall_and, hzero]

theorem isNumeral_toDigits (hb : 1 < base) (hten : base ≤ 10) :
    IsNumeral (String.ofList (Nat.toDigits base n)) := by
  refine ⟨by simp, fun c hc => ?_⟩
  rw [String.toList_ofList] at hc
  exact (isDigitOf_of_mem_toDigits hb hten c hc).1

theorem IsNumeral.zeros (h : IsNumeral s) (k : Nat) :
    IsNumeral ("0" ++ String.ofList (List.replicate k '0') ++ s) := by
  refine ⟨by simp, fun c hc => ?_⟩
  simp only [String.toList_append, String.toList_ofList, List.mem_append] at hc
  rcases hc with (hc | hc) | hc
  · rw [List.mem_singleton.mp hc]
    rfl
  · rw [List.eq_of_mem_replicate hc]
    rfl
  · exact h.digit c hc

/-- Every number is spelled by its octal numeral behind a zero. -/
theorem spells_toDigits_eight (n : Nat) :
    Spells ("0" ++ String.ofList (Nat.toDigits 8 n)) n := by
  have hd : IsNumeral (String.ofList (Nat.toDigits 8 n)) :=
    isNumeral_toDigits (by decide) (by decide)
  have hs := (spells_zeros_iff (k := 0) (n := n) hd).mpr ?_
  · exact hs
  · rw [String.toList_ofList]
    refine ⟨fun c hc => ?_, Nat.ofDigitChars_toDigits (by decide) (by decide)⟩
    exact isDigitOf_eight_iff.mp (isDigitOf_of_mem_toDigits (by decide) (by decide) c hc)

end

def Token.wholeInteger (s : String) (name : Option String) : Token :=
  let source := name.getD shellName
  ⟨.integer, s, ⟨.ofOffset source 0, .ofOffset source (Text.byteLength s.toList)⟩⟩

section

variable {s : String} {n : Nat} {v : Int} {name : Option String} {values : Values}

theorem exists_yields_numeral (h : IsNumeral s) (name : Option String) :
    ∃ ending, (Lexer.ofText s name).Yields [.wholeInteger s name] ending := by
  have hrest : (Lexer.ofText s name).rest = [] ++ (s.toList ++ []) := (List.append_nil _).symm
  have hn := Lexer.next_of_admits hrest nofun (.numeral h) nofun
  simp only [Text.byteLength_nil, Nat.add_zero] at hn
  have hend : (Lexer.ofText s name).next.2.next.1.kind = .eof := by
    rw [hn]
    rfl
  refine ⟨_, .cons ?_ nofun (.nil rfl hend)⟩
  rw [hn]
  simp [Lexer.ofText, Token.wholeInteger]

/-- A literal that has a value is an expression by itself. -/
theorem parse_of_value (h : IsNumeral s) (hv : integerValue? s.toList = some n)
    (name : Option String) (values : Values) :
    let t := Token.wholeInteger s name
    (parse s name values).1.statements = [.expression t (.integer t n) t.span] ∧
      (parse s name values).2.diagnostics = [] := by
  obtain ⟨ending, hy⟩ := exists_yields_numeral h name
  have hx : Reads .standard ending none .lowest [.wholeInteger s name]
      (.ok (.integer (.wholeInteger s name) n)) [.wholeInteger s name] := by
    refine .integer rfl hv (.finish fun hc => ?_)
    rw [front_nil, hy.ends] at hc
    exact absurd hc.2.2 (by decide)
  have hs : ReadsStatement .standard ending values [.wholeInteger s name] _ _ := .expression hx
  exact parse_of_readsItems hy (.statement hs .done)

/-- A literal without a value is refused. -/
theorem parse_of_no_value (h : IsNumeral s) (hv : integerValue? s.toList = none) :
    RefusesInteger s name values := by
  obtain ⟨ending, hy⟩ := exists_yields_numeral h name
  have hx : Reads .standard ending none .lowest [.wholeInteger s name] _ _ := .badInteger rfl hv
  have hs : ReadsStatement .standard ending values [.wholeInteger s name] _ _ :=
    .expressionFails hx
  exact parse_of_readsItems hy (.diagnostic hs .done)

theorem readsInteger_iff (h : IsNumeral s) :
    ReadsInteger s name values v ↔ ∃ n : Nat, v = n ∧ Spells s n ∧ n ≤ maxInteger := by
  simp only [← integerValue?_eq_some_iff h]
  constructor
  · rintro ⟨first, token, span, hs, -, hd⟩
    cases hv : integerValue? s.toList with
    | none =>
        rw [(parse_of_no_value h hv).1] at hs
        contradiction
    | some n =>
        rw [(parse_of_value h hv name values).1] at hs
        cases hs
        exact ⟨n, rfl, rfl⟩
  · rintro ⟨n, rfl, hv⟩
    obtain ⟨hs, hd⟩ := parse_of_value h hv name values
    exact ⟨_, _, _, hs, rfl, hd⟩

/-- Only what has no value is not read. -/
theorem integerValue?_eq_none_iff (h : IsNumeral s) (name : Option String) (values : Values) :
    integerValue? s.toList = none ↔ ¬ ∃ v, ReadsInteger s name values v := by
  simp only [readsInteger_iff h, ← integerValue?_eq_some_iff h, Option.eq_none_iff_forall_ne_some]
  constructor
  · rintro hn ⟨v, n, rfl, hv⟩
    exact hn n hv
  · intro hn n hv
    exact hn ⟨n, n, rfl, hv⟩

end

namespace Expr

variable {x y : Expr}

/-- The parts of a well-formed tree are well formed. -/
theorem WellFormed.of_mem_parts (h : x.WellFormed) (hy : y ∈ x.parts) : y.WellFormed := by
  induction x with
  | identifier | integer =>
      obtain rfl := List.mem_singleton.mp hy
      exact h
  | unary operator right span ih =>
      rcases List.mem_cons.mp hy with rfl | hy
      · exact h
      · exact ih h.2.2 hy
  | binary left operator right span ihl ihr =>
      rcases List.mem_cons.mp hy with rfl | hy
      · exact h
      · rcases List.mem_append.mp hy with hy | hy
        · exact ihl h.2.2.1 hy
        · exact ihr h.2.2.2 hy

end Expr

theorem Program.WellFormed.of_mem_parts {p : Program} {values : Values} {x : Expr}
    (h : p.WellFormed values) (hx : x ∈ p.parts) : x.WellFormed := by
  obtain ⟨y, hxy, -, s, hs, hv⟩ := Program.tokens_sublist_of_mem_parts hx
  have hw := h s hs
  refine Expr.WellFormed.of_mem_parts ?_ hxy
  cases s with
  | binding =>
      cases hv
      exact hw.2.2.2.2 y rfl
  | returning =>
      cases hv
      exact hw.2.2.2 y rfl
  | expression =>
      cases hv
      exact hw

/-- A literal is read as the number that it spells in its base, and refused if there is none that
fits. So each number that fits is read from its decimal numeral and from its octal one behind a
zero, further zeros change nothing there, and no integer in any program is negative. -/
theorem parse_numeral (name : Option String) (values : Values) :
    (∀ s, IsNumeral s → ∀ v : Int,
      ReadsInteger s name values v ↔ ∃ n : Nat, v = n ∧ Spells s n ∧ n ≤ 2 ^ 63 - 1) ∧
    (∀ s, IsNumeral s → (¬ ∃ v, ReadsInteger s name values v) → RefusesInteger s name values) ∧
    (∀ n : Nat, n < 2 ^ 63 → ReadsInteger n.repr name values n ∧
      ReadsInteger ("0" ++ String.ofList (Nat.toDigits 8 n)) name values n) ∧
    (∀ s, IsNumeral s → ∀ k v,
      ReadsInteger ("0" ++ String.ofList (List.replicate k '0') ++ s) name values v ↔
        ReadsInteger ("0" ++ s) name values v) ∧
    ∀ text token v, .integer token v ∈ (parse text name values).1.parts → 0 ≤ v := by
  have hmax : 2 ^ 63 - 1 = maxInteger := rfl
  refine ⟨fun s hs v => ?_, fun s hs hn => ?_, fun n hn => ⟨?_, ?_⟩, fun s hs k v => ?_, ?_⟩
  · rw [hmax]
    exact readsInteger_iff hs
  · exact parse_of_no_value hs ((integerValue?_eq_none_iff hs name values).mpr hn)
  · have hd : IsNumeral n.repr := isNumeral_toDigits (by decide) (by decide)
    exact (readsInteger_iff hd).mpr ⟨n, rfl, spells_repr n, Nat.le_pred_of_lt hn⟩
  · have hd : IsNumeral (String.ofList (Nat.toDigits 8 n)) :=
      isNumeral_toDigits (by decide) (by decide)
    have hs := spells_toDigits_eight n
    exact (readsInteger_iff (hd.zeros 0)).mpr ⟨n, rfl, hs, Nat.le_pred_of_lt hn⟩
  · have hzero : IsNumeral ("0" ++ s) := hs.zeros 0
    have hspells (n : Nat) : Spells ("0" ++ s) n ↔ _ := spells_zeros_iff (k := 0) hs
    rw [readsInteger_iff (hs.zeros k), readsInteger_iff hzero]
    simp only [spells_zeros_iff hs, hspells]
  · intro text token v hm
    obtain ⟨-, -, n, -, rfl⟩ := (parse_wellFormed text name values).of_mem_parts hm
    exact Int.natCast_nonneg n

/-- Behind the zero, twenty-one sevens are the greatest number that fits, and the next one is
refused. -/
theorem parse_numeral_greatest :
    IsNumeral "0777777777777777777777" ∧
      ReadsInteger "0777777777777777777777" none .parsed (2 ^ 63 - 1) ∧
      IsNumeral "01000000000000000000000" ∧
      RefusesInteger "01000000000000000000000" none .parsed := by
  obtain ⟨hreads, hrefuses, -⟩ := parse_numeral none .parsed
  have hd : IsNumeral "0777777777777777777777" := by decide
  have hs := (integerValue?_eq_some_iff hd).mp (by decide : _ = some (2 ^ 63 - 1))
  have hd' : IsNumeral "01000000000000000000000" := by decide
  have hn := (integerValue?_eq_none_iff hd' none .parsed).mp (by decide)
  exact ⟨hd, (hreads _ hd _).mpr ⟨_, rfl, hs⟩, hd', hrefuses _ hd' hn⟩

end FrontEnd
