import FrontEnd.Proofs.Fault
import FrontEnd.Proofs.ReadingOrder

/-!
How a statement ends. A statement that has an expression ends with it and with the semicolon behind
it, if there is one. So it can be read in front of anything that does not continue the expression,
whatever it was read in front of; only its span shows whether a semicolon follows. The others end in
a semicolon, or where the text does.
-/

namespace FrontEnd

def Stmt.endAt (last : Span) : Stmt → Stmt
  | .binding token name value span => .binding token name value (span.hull last)
  | .returning token value span => .returning token value (span.hull last)
  | .expression token x span => .expression token x (span.hull last)

theorem Stmt.endAt_eq_self {s : Stmt} {first last : Span} (h : s.span = first.hull last) :
    s.endAt last = s := by
  cases s with
  | binding token name value span | returning token value span | expression token x span =>
      obtain rfl : span = first.hull last := h
      rfl

variable {ending ending' : Token} {values : Values} {ts us rest rest' ws : List Token} {s : Stmt}
  {u : Token} {x : Expr}

theorem not_bindsTighter_of_eof {k : Kind} (h : k = .eof) (power : Power) :
    ¬ k.BindsTighter power := by
  rintro ⟨l, hl, -⟩
  rw [h] at hl
  contradiction

/-- The statement ends with an expression, whose last token is given between those in front of it
and the rest. The rest does not continue the expression, and anything else that does not can stand
in its place. -/
structure EndsInExpression (ending : Token) (values : Values) (vs : List Token) (u : Token)
    (rest : List Token) (s : Stmt) : Prop where
  ne_semicolon : u.kind ≠ .semicolon
  tokens : s.tokens = (vs ++ [u]).filter (·.kind.isKept)
  ends : ¬ (front ending rest).kind.BindsTighter .lowest
  again : ∀ ending' rest', ending'.kind = .eof →
    ¬ (front ending' rest').kind.BindsTighter .lowest →
      ReadsStatement .standard ending' values (vs ++ u :: rest')
        (.ok (s.endAt (front ending' (pastSemicolon (u :: rest'))).span))
        (pastSemicolon (u :: rest'))

/-- An expression is read in front of anything that does not continue it. -/
theorem Reads.exists_last (he : ending.kind = .eof)
    (h : Reads .standard ending none .lowest ts (.ok x) us) :
    ∃ vs u rest, ts = vs ++ u :: rest ∧ us = u :: rest ∧ u.kind ≠ .semicolon ∧
      x.tokens = (vs ++ [u]).filter (·.kind.isKept) ∧
      ¬ (front ending rest).kind.BindsTighter .lowest ∧
      ∀ ending' rest', ending'.kind = .eof →
        ¬ (front ending' rest').kind.BindsTighter .lowest →
          Reads .standard ending' none .lowest (vs ++ u :: rest') (.ok x) (u :: rest') := by
  obtain ⟨vs, u, rest, rfl, rfl, hd, hb⟩ := (reads_iff_taken he).mp h
  refine ⟨vs, u, rest, rfl, rfl, h.kind_ne_semicolon, hd.tokens_eq, hb,
    fun ending' rest' he' hb' => ?_⟩
  exact (reads_iff_taken he').mpr ⟨vs, u, rest', rfl, rfl, hd, hb'⟩

/-- A statement that has an expression ends with it. -/
theorem ReadsStatement.exists_last (he : ending.kind = .eof)
    (h : ReadsStatement .standard ending values ts (.ok s) us) (hx : s.value? = some x) :
    ∃ vs u rest, ts = vs ++ u :: rest ∧ us = pastSemicolon (u :: rest) ∧
      EndsInExpression ending values vs u rest s := by
  rw [ReadsStatement] at h
  generalize hrule : (Rules.standard.statement (front ending ts).kind).getD .expression = rule at h
  have hagain {vs u rest} {o : Except Diagnostic Stmt} {ending' : Token} {rest' us : List Token}
      (hts : ts = vs ++ u :: rest)
      (hb : ReadsBy .standard ending' values rule (vs ++ u :: rest') o us) :
      ReadsStatement .standard ending' values (vs ++ u :: rest') o us := by
    rw [ReadsStatement, front_append_congr ending' ending u vs rest' rest, ← hts, hrule]
    exact hb
  cases h with
  | expression hr =>
      obtain ⟨vs, u, rest, rfl, rfl, hu, ht, hb, hr'⟩ := hr.exists_last he
      refine ⟨vs, u, rest, rfl, rfl, hu, ht, hb, fun ending' rest' he' hb' => hagain rfl ?_⟩
      rw [front_append_congr ending ending' u vs rest rest']
      exact .expression (hr' ending' rest' he' hb')
  | @binding t n a _ _ _ hn ha hr =>
      obtain ⟨vs, u, rest, rfl, rfl, hu, ht, hb, hr'⟩ := hr.exists_last he
      have hk := Rules.standard_statement_binding.mp hrule
      rw [front_cons] at hk
      refine ⟨t :: n :: a :: vs, u, rest, rfl, rfl, hu, ?_, hb, fun ending' rest' he' hb' =>
        hagain rfl (.binding hn ha (hr' ending' rest' he' hb'))⟩
      simp [Stmt.tokens, Identifier.ofToken, Kind.isKept, hk, hn, ha, ht]
  | returning hs hr =>
      obtain ⟨vs, u, rest, hts, rfl, hu, ht, hb, hr'⟩ := hr.exists_last he
      obtain ⟨t, ts, rfl⟩ := List.exists_cons_of_ne_nil (l := ts) (by rintro rfl; simp at hts)
      rw [List.tail_cons] at hts hs
      subst hts
      have hk := Rules.standard_statement_returning.mp hrule
      rw [front_cons] at hk
      refine ⟨t :: vs, u, rest, rfl, rfl, hu, ?_, hb, fun ending' rest' he' hb' => hagain rfl ?_⟩
      · simp [Stmt.tokens, Kind.isKept, hk, ht]
      · rw [front_append_congr ending ending' u vs rest rest'] at hs
        exact .returning hs (hr' ending' rest' he' hb')
  | bindingSkipped | bare | returningSkipped => cases hx

/-- A statement without an expression ends in a semicolon, if anywhere before the end of the
text. -/
theorem ReadsStatement.kind_of_value_none
    (h : ReadsStatement .standard ending values ts (.ok s) (u :: us)) (hx : s.value? = none) :
    u.kind = .semicolon := by
  rw [ReadsStatement] at h
  generalize (Rules.standard.statement (front ending ts).kind).getD .expression = rule at h
  generalize hv : u :: us = vs at h
  cases h with
  | bindingSkipped | returningSkipped => exact kind_of_fromSemicolon hv.symm
  | bare hs =>
      rw [← hv] at hs
      exact hs
  | expression | binding | returning => cases hx

theorem eq_cons_of_pastSemicolon (he : ending.kind = .eof) (h : pastSemicolon us = u :: rest)
    (hu : u.kind ≠ .semicolon) : us = u :: rest ∧ (front ending rest).kind ≠ .semicolon := by
  match us with
  | [] => cases h
  | [t] =>
      cases h
      exact ⟨rfl, by simp [he]⟩
  | t :: s :: us =>
      by_cases hs : s.kind = .semicolon
      · rw [pastSemicolon_cons_of_eq t us hs] at h
        cases h
        exact absurd hs hu
      · have hf : (front ending (s :: us)).kind ≠ .semicolon := hs
        rw [pastSemicolon_cons_of_ne hf] at h
        cases h
        exact ⟨rfl, hf⟩

/-- A statement is read in the same way if something else follows that begins alike, or nothing. -/
theorem ReadsStatement.replace_rest (he : ending.kind = .eof) (he' : ending'.kind = .eof)
    (h : ReadsStatement .standard ending values (ws ++ u :: rest) (.ok s) (u :: rest))
    (hf : (front ending' rest').kind = (front ending rest).kind ∨
      (front ending' rest').kind = .eof) :
    ReadsStatement .standard ending' values (ws ++ u :: rest') (.ok s) (u :: rest') := by
  by_cases hu : u.kind = .semicolon
  -- Behind a semicolon, not even the beginning matters.
  · obtain ⟨vs, hv, hs⟩ := h.readsBefore rfl rfl hu
    obtain rfl : vs = [] := (List.append_cancel_right ((List.nil_append _).trans hv)).symm
    exact hs ending' rest'
  cases hx : s.value? with
  | none => exact absurd (h.kind_of_value_none hx) hu
  | some x =>
      obtain ⟨vs, v, rest₁, hts, hus, hv⟩ := h.exists_last he hx
      obtain ⟨hus, hs⟩ := eq_cons_of_pastSemicolon he hus.symm hu
      obtain ⟨rfl, rfl⟩ := List.cons.inj hus
      obtain rfl : ws = vs := List.append_cancel_right hts
      have hb : ¬ (front ending' rest').kind.BindsTighter .lowest := by
        rcases hf with hf | hf
        · rw [hf]
          exact hv.ends
        · exact not_bindsTighter_of_eof hf _
      have hs' : (front ending' rest').kind ≠ .semicolon := by
        rcases hf with hf | hf <;> rw [hf]
        · exact hs
        · decide
      have hr := hv.again ending' rest' he' hb
      have hspan : s.endAt v.span = s := Stmt.endAt_eq_self (ReadsBy.span_eq h)
      rwa [pastSemicolon_cons_of_ne hs', front_cons, hspan] at hr

end FrontEnd
