import FrontEnd.Proofs.TokenStream

/-!
Reading as a relation between lists of tokens. There is no depth and no window here: a reader is
given the tokens from the first one of its construct on and leaves those from the last one of its
construct on. Every stretch of tokens is read in exactly one way, with any rules that start no
expression at the end of the text.
-/

namespace FrontEnd

/-- Going on behind the first token of a rest leaves fewer tokens. -/
theorem length_tail_lt {t : Token} {ts us : List Token} (h : us <:+ t :: ts) :
    us.tail.length < (t :: ts).length := by
  have hl := h.length_le
  rw [List.length_cons] at hl ⊢
  rw [List.length_tail]
  omega

def Rules.Continues (r : Rules) (power : Power) (k : Kind) : Prop :=
  k ≠ .semicolon ∧ power < r.power k ∧ r.continuing k = some .binary

/-- Reading an expression at a power: a whole one, or the rest of one whose left operand has just
been read. In the second case the first token is the last one of that operand. -/
inductive Reads (r : Rules) (ending : Token) :
    Option Expr → Power → List Token → Except Diagnostic Expr → List Token → Prop
  | noStart {power : Power} {ts : List Token} :
      r.starting (front ending ts).kind = none →
      Reads r ending none power ts
        (.error ⟨.noStart (front ending ts).kind, (front ending ts).span.start⟩) ts
  | identifier {power : Power} {t : Token} {ts us : List Token} {o : Except Diagnostic Expr} :
      r.starting t.kind = some .identifier →
      Reads r ending (some (.identifier (.ofToken t))) power (t :: ts) o us →
      Reads r ending none power (t :: ts) o us
  | integer {power : Power} {t : Token} {value : Nat} {ts us : List Token}
      {o : Except Diagnostic Expr} :
      r.starting t.kind = some .integer → integerValue? t.literal.toList = some value →
      Reads r ending (some (.integer t value)) power (t :: ts) o us →
      Reads r ending none power (t :: ts) o us
  | badInteger {power : Power} {t : Token} {ts : List Token} :
      r.starting t.kind = some .integer → integerValue? t.literal.toList = none →
      Reads r ending none power (t :: ts) (.error ⟨.badInteger t.literal, t.span.start⟩) (t :: ts)
  | unary {power : Power} {t : Token} {x : Expr} {ts us vs : List Token}
      {o : Except Diagnostic Expr} :
      r.starting t.kind = some .unary → Reads r ending none .unary ts (.ok x) us →
      Reads r ending (some (.unary t x (t.span.hull x.span))) power us o vs →
      Reads r ending none power (t :: ts) o vs
  | unaryFails {power : Power} {t : Token} {d : Diagnostic} {ts us : List Token} :
      r.starting t.kind = some .unary → Reads r ending none .unary ts (.error d) us →
      Reads r ending none power (t :: ts) (.error d) us
  | group {power : Power} {t u c : Token} {x : Expr} {ts us vs : List Token}
      {o : Except Diagnostic Expr} :
      r.starting t.kind = some .grouping → Reads r ending none .lowest ts (.ok x) (u :: c :: us) →
      c.kind = .closeParen → Reads r ending (some x) power (c :: us) o vs →
      Reads r ending none power (t :: ts) o vs
  | groupOpen {power : Power} {t : Token} {x : Expr} {ts us : List Token} :
      r.starting t.kind = some .grouping → Reads r ending none .lowest ts (.ok x) us →
      (front ending us.tail).kind ≠ .closeParen →
      Reads r ending none power (t :: ts)
        (.error ⟨.expectedToken .closeParen (front ending us.tail).kind,
          (front ending us.tail).span.start⟩) us
  | groupFails {power : Power} {t : Token} {d : Diagnostic} {ts us : List Token} :
      r.starting t.kind = some .grouping → Reads r ending none .lowest ts (.error d) us →
      Reads r ending none power (t :: ts) (.error d) us
  | finish {power : Power} {left : Expr} {t : Token} {ts : List Token} :
      ¬ r.Continues power (front ending ts).kind →
      Reads r ending (some left) power (t :: ts) (.ok left) (t :: ts)
  | binary {power : Power} {left x : Expr} {t : Token} {ts us vs : List Token}
      {o : Except Diagnostic Expr} :
      r.Continues power (front ending ts).kind →
      Reads r ending none (r.power (front ending ts).kind) ts.tail (.ok x) us →
      Reads r ending (some (.binary left (front ending ts) x (left.span.hull x.span))) power us
        o vs →
      Reads r ending (some left) power (t :: ts) o vs
  | binaryFails {power : Power} {left : Expr} {t : Token} {d : Diagnostic} {ts us : List Token} :
      r.Continues power (front ending ts).kind →
      Reads r ending none (r.power (front ending ts).kind) ts.tail (.error d) us →
      Reads r ending (some left) power (t :: ts) (.error d) us

namespace Reads

variable {r : Rules} {ending : Token} {task : Option Expr} {power : Power} {ts us : List Token}
  {o : Except Diagnostic Expr}

/-- What a reader leaves is a rest of what it was given. -/
theorem suffix (h : Reads r ending task power ts o us) : us <:+ ts := by
  induction h with
  | noStart | badInteger | finish => exact List.suffix_rfl
  | identifier _ _ ih | integer _ _ _ ih => exact ih
  | unary _ _ _ ih ihc => exact (ihc.trans ih).trans (List.suffix_cons _ _)
  | unaryFails _ _ ih | groupFails _ _ ih | groupOpen _ _ _ ih =>
      exact ih.trans (List.suffix_cons _ _)
  | group _ _ _ _ ih ihc =>
      exact (ihc.trans ((List.suffix_cons _ _).trans ih)).trans (List.suffix_cons _ _)
  | binary _ _ _ ih ihc =>
      exact (ihc.trans (ih.trans (List.tail_suffix _))).trans (List.suffix_cons _ _)
  | binaryFails _ _ ih => exact (ih.trans (List.tail_suffix _)).trans (List.suffix_cons _ _)

theorem length_le (h : Reads r ending task power ts o us) : us.length ≤ ts.length :=
  h.suffix.length_le

/-- After an expression its last token is still there. -/
theorem ne_nil {x : Expr} (h : Reads r ending task power ts (.ok x) us) : us ≠ [] := by
  generalize ho : (Except.ok x : Except Diagnostic Expr) = o at h
  induction h with
  | noStart | badInteger | unaryFails | groupOpen | groupFails | binaryFails => simp_all
  | finish => simp
  | identifier _ _ ih | integer _ _ _ ih => exact ih ho
  | unary _ _ _ _ ih | group _ _ _ _ _ ih | binary _ _ _ _ ih => exact ih ho

/-- There is only one way to read. -/
theorem unique {o' : Except Diagnostic Expr} {us' : List Token}
    (h : Reads r ending task power ts o us) (h' : Reads r ending task power ts o' us') :
    o = o' ∧ us = us' := by
  induction h generalizing o' us' with
  | noStart hs => cases h' <;> simp_all
  | identifier hs _ ih =>
      cases h' with
      | identifier _ hc => exact ih hc
      | _ => simp_all
  | integer hs hv _ ih =>
      cases h' with
      | integer _ hv' hc =>
          obtain rfl := Option.some.inj (hv.symm.trans hv')
          exact ih hc
      | _ => simp_all
  | badInteger hs hv => cases h' <;> simp_all
  | unary hs _ _ ih ihc =>
      cases h' with
      | unary _ hx hc =>
          obtain ⟨he, rfl⟩ := ih hx
          cases he
          exact ihc hc
      | unaryFails _ hx => cases (ih hx).1
      | _ => simp_all
  | unaryFails hs _ ih =>
      cases h' with
      | unary _ hx => cases (ih hx).1
      | unaryFails _ hx => exact ih hx
      | _ => simp_all
  | group hs _ hk _ ih ihc =>
      cases h' with
      | group _ hx _ hc =>
          obtain ⟨he, hus⟩ := ih hx
          cases he
          cases hus
          exact ihc hc
      | groupOpen _ hx hk' =>
          obtain ⟨-, rfl⟩ := ih hx
          exact absurd hk hk'
      | groupFails _ hx => cases (ih hx).1
      | _ => simp_all
  | groupOpen hs _ hk ih =>
      cases h' with
      | group _ hx hk' _ =>
          obtain ⟨-, rfl⟩ := ih hx
          exact absurd hk' hk
      | groupOpen _ hx _ =>
          obtain ⟨-, rfl⟩ := ih hx
          exact ⟨rfl, rfl⟩
      | groupFails _ hx => cases (ih hx).1
      | _ => simp_all
  | groupFails hs _ ih =>
      cases h' with
      | group _ hx | groupOpen _ hx => cases (ih hx).1
      | groupFails _ hx => exact ih hx
      | _ => simp_all
  | finish hn =>
      cases h' with
      | finish => exact ⟨rfl, rfl⟩
      | binary hb | binaryFails hb => exact absurd hb hn
  | binary hb _ _ ih ihc =>
      cases h' with
      | finish hn => exact absurd hb hn
      | binary _ hx hc =>
          obtain ⟨he, rfl⟩ := ih hx
          cases he
          exact ihc hc
      | binaryFails _ hx => cases (ih hx).1
  | binaryFails hb _ ih =>
      cases h' with
      | finish hn => exact absurd hb hn
      | binary _ hx => cases (ih hx).1
      | binaryFails _ hx => exact ih hx

/-- An operand can be continued if everything after it can be read. -/
private theorem exists_continuing {t : Token} {ts : List Token}
    (ih : ∀ us, us.length < (t :: ts).length →
      (∀ power, ∃ o vs, Reads r ending none power us o vs) ∧
        ∀ power left, us ≠ [] → ∃ o vs, Reads r ending (some left) power us o vs)
    (power : Power) (left : Expr) : ∃ o us, Reads r ending (some left) power (t :: ts) o us := by
  by_cases hc : r.Continues power (front ending ts).kind
  · have hl : ts.tail.length < (t :: ts).length := length_tail_lt (List.suffix_cons t ts)
    obtain ⟨o, us, hx⟩ := (ih ts.tail hl).1 (r.power (front ending ts).kind)
    cases o with
    | error d => exact ⟨_, _, .binaryFails hc hx⟩
    | ok x =>
        obtain ⟨o, vs, hv⟩ := (ih us (Nat.lt_of_le_of_lt hx.length_le hl)).2 power
          (.binary left (front ending ts) x (left.span.hull x.span)) hx.ne_nil
        exact ⟨o, vs, .binary hc hx hv⟩
  · exact ⟨_, _, .finish hc⟩

/-- An operand can be read if everything after its first token can. -/
private theorem exists_starting (he : ending.kind = .eof) {t : Token} {ts : List Token}
    (ih : ∀ us, us.length < (t :: ts).length →
      (∀ power, ∃ o vs, Reads r ending none power us o vs) ∧
        ∀ power left, us ≠ [] → ∃ o vs, Reads r ending (some left) power us o vs)
    (power : Power) : ∃ o us, Reads r ending none power (t :: ts) o us := by
  have hl : ts.length < (t :: ts).length := Nat.lt_succ_self _
  cases hs : r.starting t.kind with
  | none => exact ⟨_, _, .noStart hs⟩
  | some rule =>
      cases rule with
      | identifier =>
          obtain ⟨o, us, h⟩ := exists_continuing ih power (.identifier (.ofToken t))
          exact ⟨o, us, .identifier hs h⟩
      | integer =>
          cases hv : integerValue? t.literal.toList with
          | none => exact ⟨_, _, .badInteger hs hv⟩
          | some value =>
              obtain ⟨o, us, h⟩ := exists_continuing ih power (.integer t value)
              exact ⟨o, us, .integer hs hv h⟩
      | unary =>
          obtain ⟨o, us, hx⟩ := (ih ts hl).1 .unary
          cases o with
          | error d => exact ⟨_, _, .unaryFails hs hx⟩
          | ok x =>
              obtain ⟨o, vs, hv⟩ := (ih us (Nat.lt_of_le_of_lt hx.length_le hl)).2 power
                (.unary t x (t.span.hull x.span)) hx.ne_nil
              exact ⟨o, vs, .unary hs hx hv⟩
      | grouping =>
          obtain ⟨o, us, hx⟩ := (ih ts hl).1 .lowest
          cases o with
          | error d => exact ⟨_, _, .groupFails hs hx⟩
          | ok x =>
              have hu := hx.length_le
              by_cases hk : (front ending us.tail).kind = .closeParen
              · match us, hx, hk with
                | [], _, hk | [u], _, hk => simp [he] at hk
                | u :: c :: us, hx, hk =>
                    rw [List.length_cons] at hu
                    obtain ⟨o, vs, hv⟩ := (ih (c :: us) (Nat.lt_succ_of_lt hu)).2 power x
                      (List.cons_ne_nil _ _)
                    exact ⟨o, vs, .group hs hx hk hv⟩
              · exact ⟨_, _, .groupOpen hs hx hk⟩

private theorem exists_of_length (he : ending.kind = .eof) (hr : r.starting .eof = none) (n : Nat) :
    ∀ ts, ts.length < n →
      (∀ power, ∃ o us, Reads r ending none power ts o us) ∧
        ∀ power left, ts ≠ [] → ∃ o us, Reads r ending (some left) power ts o us := by
  induction n with
  | zero => intro ts h; omega
  | succ n ih =>
      intro ts hn
      cases ts with
      | nil =>
          exact ⟨fun power => ⟨_, _, .noStart (by rw [front_nil, he, hr])⟩,
            fun _ _ h => absurd rfl h⟩
      | cons t ts =>
          have ih' := fun us (hu : us.length < (t :: ts).length) => ih us (by omega)
          exact ⟨exists_starting he ih', fun power left _ => exists_continuing ih' power left⟩

/-- There is a way to read, whatever the tokens are. -/
theorem exists_reads (he : ending.kind = .eof) (hr : r.starting .eof = none) (power : Power)
    (ts : List Token) : ∃ o us, Reads r ending none power ts o us :=
  (exists_of_length he hr (ts.length + 1) ts (Nat.lt_succ_self _)).1 power

end Reads

end FrontEnd
