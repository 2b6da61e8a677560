import FrontEnd.Proofs.Reading

/-!
Reading statements and whole programs, as relations between lists of tokens. A statement is given
the tokens from its first one on and leaves those from its last one on; a program takes every token
of its source, one item after the other.
-/

namespace FrontEnd

def pastSemicolon : List Token → List Token
  | t :: s :: ts => if s.kind = .semicolon then s :: ts else t :: s :: ts
  | ts => ts

theorem pastSemicolon_cons_of_eq (t : Token) {s : Token} (ts : List Token)
    (h : s.kind = .semicolon) : pastSemicolon (t :: s :: ts) = s :: ts :=
  if_pos h

theorem pastSemicolon_cons_of_ne {ending t : Token} {ts : List Token}
    (h : (front ending ts).kind ≠ .semicolon) : pastSemicolon (t :: ts) = t :: ts := by
  cases ts with
  | nil => rfl
  | cons s ts => exact if_neg h

theorem pastSemicolon_suffix (ts : List Token) : pastSemicolon ts <:+ ts := by
  match ts with
  | [] | [_] => exact List.suffix_rfl
  | t :: s :: ts =>
      simp only [pastSemicolon]
      split
      · exact List.suffix_cons _ _
      · exact List.suffix_rfl

theorem fromSemicolon_suffix (ts : List Token) : fromSemicolon ts <:+ ts :=
  List.dropWhile_suffix _

inductive ReadsBy (r : Rules) (ending : Token) :
    Values → StatementRule → List Token → Except Diagnostic Stmt → List Token → Prop
  | expression {values : Values} {x : Expr} {ts us : List Token} :
      Reads r ending none .lowest ts (.ok x) us →
      ReadsBy r ending values .expression ts
        (.ok (.expression (front ending ts) x
          ((front ending ts).span.hull (front ending (pastSemicolon us)).span)))
        (pastSemicolon us)
  | expressionFails {values : Values} {d : Diagnostic} {ts us : List Token} :
      Reads r ending none .lowest ts (.error d) us →
      ReadsBy r ending values .expression ts (.error d) us
  | unnamed {values : Values} {ts : List Token} :
      (front ending ts.tail).kind ≠ .identifier →
      ReadsBy r ending values .binding ts
        (.error ⟨.expectedToken .identifier (front ending ts.tail).kind,
          (front ending ts.tail).span.start⟩) ts
  | unassigned {values : Values} {t n : Token} {ts : List Token} :
      n.kind = .identifier → (front ending ts).kind ≠ .assignment →
      ReadsBy r ending values .binding (t :: n :: ts)
        (.error ⟨.expectedToken .assignment (front ending ts).kind, (front ending ts).span.start⟩)
        (n :: ts)
  | binding {t n a : Token} {x : Expr} {ts us : List Token} :
      n.kind = .identifier → a.kind = .assignment → Reads r ending none .lowest ts (.ok x) us →
      ReadsBy r ending .parsed .binding (t :: n :: a :: ts)
        (.ok (.binding t (.ofToken n) (some x)
          (t.span.hull (front ending (pastSemicolon us)).span)))
        (pastSemicolon us)
  | bindingFails {t n a : Token} {d : Diagnostic} {ts us : List Token} :
      n.kind = .identifier → a.kind = .assignment → Reads r ending none .lowest ts (.error d) us →
      ReadsBy r ending .parsed .binding (t :: n :: a :: ts) (.error d) us
  | bindingSkipped {t n a : Token} {ts : List Token} :
      n.kind = .identifier → a.kind = .assignment →
      ReadsBy r ending .skipped .binding (t :: n :: a :: ts)
        (.ok (.binding t (.ofToken n) none
          (t.span.hull (front ending (fromSemicolon (a :: ts))).span)))
        (fromSemicolon (a :: ts))
  | bare {ts : List Token} :
      (front ending ts.tail).kind = .semicolon →
      ReadsBy r ending .parsed .returning ts
        (.ok (.returning (front ending ts) none
          ((front ending ts).span.hull (front ending ts.tail).span)))
        ts.tail
  | returning {x : Expr} {ts us : List Token} :
      (front ending ts.tail).kind ≠ .semicolon → Reads r ending none .lowest ts.tail (.ok x) us →
      ReadsBy r ending .parsed .returning ts
        (.ok (.returning (front ending ts) (some x)
          ((front ending ts).span.hull (front ending (pastSemicolon us)).span)))
        (pastSemicolon us)
  | returningFails {d : Diagnostic} {ts us : List Token} :
      (front ending ts.tail).kind ≠ .semicolon → Reads r ending none .lowest ts.tail (.error d) us →
      ReadsBy r ending .parsed .returning ts (.error d) us
  | returningSkipped {ts : List Token} :
      ReadsBy r ending .skipped .returning ts
        (.ok (.returning (front ending ts) none
          ((front ending ts).span.hull (front ending (fromSemicolon ts.tail)).span)))
        (fromSemicolon ts.tail)

def ReadsStatement (r : Rules) (ending : Token) (values : Values) (ts : List Token)
    (o : Except Diagnostic Stmt) (us : List Token) : Prop :=
  ReadsBy r ending values ((r.statement (front ending ts).kind).getD .expression) ts o us

inductive ReadsItems (r : Rules) (ending : Token) (values : Values) : List Token → List Item → Prop
  | done : ReadsItems r ending values [] []
  | statement {t : Token} {s : Stmt} {ts us : List Token} {items : List Item} :
      ReadsStatement r ending values (t :: ts) (.ok s) us →
      ReadsItems r ending values us.tail items →
      ReadsItems r ending values (t :: ts) (.statement s :: items)
  | diagnostic {t : Token} {d : Diagnostic} {ts us : List Token} {items : List Item} :
      ReadsStatement r ending values (t :: ts) (.error d) us →
      ReadsItems r ending values (fromSemicolon us).tail items →
      ReadsItems r ending values (t :: ts) (.diagnostic d :: items)

variable {r : Rules} {ending : Token} {values : Values} {rule : StatementRule} {ts us : List Token}
  {o : Except Diagnostic Stmt}

theorem ReadsBy.readsStatement {t : Token} (hr : (r.statement t.kind).getD .expression = rule)
    (h : ReadsBy r ending values rule (t :: ts) o us) :
    ReadsStatement r ending values (t :: ts) o us := by
  subst hr
  exact h

theorem ReadsStatement.exists_readsBy {t : Token}
    (h : ReadsStatement r ending values (t :: ts) o us) :
    ∃ rule, (r.statement t.kind).getD .expression = rule ∧
      ReadsBy r ending values rule (t :: ts) o us :=
  ⟨_, rfl, h⟩

theorem ReadsItems.statement_of_ne_nil {s : Stmt} {items : List Item} (hn : ts ≠ [])
    (hs : ReadsStatement r ending values ts (.ok s) us)
    (hi : ReadsItems r ending values us.tail items) :
    ReadsItems r ending values ts (.statement s :: items) := by
  obtain ⟨t, ts, rfl⟩ := List.exists_cons_of_ne_nil hn
  exact .statement hs hi

theorem ReadsItems.diagnostic_of_ne_nil {d : Diagnostic} {items : List Item} (hn : ts ≠ [])
    (hs : ReadsStatement r ending values ts (.error d) us)
    (hi : ReadsItems r ending values (fromSemicolon us).tail items) :
    ReadsItems r ending values ts (.diagnostic d :: items) := by
  obtain ⟨t, ts, rfl⟩ := List.exists_cons_of_ne_nil hn
  exact .diagnostic hs hi

theorem ReadsBy.suffix (h : ReadsBy r ending values rule ts o us) : us <:+ ts := by
  cases h with
  | expression h => exact (pastSemicolon_suffix _).trans h.suffix
  | expressionFails h => exact h.suffix
  | unnamed => exact List.suffix_rfl
  | unassigned => exact List.suffix_cons _ _
  | binding _ _ h =>
      exact (((pastSemicolon_suffix _).trans h.suffix).trans (List.suffix_cons _ _)).trans
        ((List.suffix_cons _ _).trans (List.suffix_cons _ _))
  | bindingFails _ _ h =>
      exact (h.suffix.trans (List.suffix_cons _ _)).trans
        ((List.suffix_cons _ _).trans (List.suffix_cons _ _))
  | bindingSkipped =>
      exact (fromSemicolon_suffix _).trans ((List.suffix_cons _ _).trans (List.suffix_cons _ _))
  | bare => exact List.tail_suffix _
  | returning _ h => exact ((pastSemicolon_suffix _).trans h.suffix).trans (List.tail_suffix _)
  | returningFails _ h => exact h.suffix.trans (List.tail_suffix _)
  | returningSkipped => exact (fromSemicolon_suffix _).trans (List.tail_suffix _)

/-- A statement spans its tokens. -/
theorem ReadsBy.span_eq {s : Stmt} (h : ReadsBy r ending values rule ts (.ok s) us) :
    s.span = (front ending ts).span.hull (front ending us).span := by
  cases h with
  | expression | binding | bindingSkipped | bare | returning | returningSkipped => rfl

private theorem exists_binding (he : ending.kind = .eof) (hr : r.starting .eof = none)
    (values : Values) (ts : List Token) : ∃ o us, ReadsBy r ending values .binding ts o us := by
  match ts with
  | [] | [_] => exact ⟨_, _, .unnamed (by simp [he])⟩
  | t :: n :: ts =>
      by_cases hn : n.kind = .identifier
      · match ts with
        | [] => exact ⟨_, _, .unassigned hn (by simp [he])⟩
        | a :: ts =>
            by_cases ha : a.kind = .assignment
            · cases values with
              | parsed =>
                  obtain ⟨o, us, h⟩ := Reads.exists_reads he hr .lowest ts
                  cases o with
                  | ok x => exact ⟨_, _, .binding hn ha h⟩
                  | error d => exact ⟨_, _, .bindingFails hn ha h⟩
              | skipped => exact ⟨_, _, .bindingSkipped hn ha⟩
            · exact ⟨_, _, .unassigned hn ha⟩
      · exact ⟨_, _, .unnamed hn⟩

private theorem exists_returning (he : ending.kind = .eof) (hr : r.starting .eof = none)
    (values : Values) (ts : List Token) : ∃ o us, ReadsBy r ending values .returning ts o us := by
  cases values with
  | parsed =>
      by_cases hs : (front ending ts.tail).kind = .semicolon
      · exact ⟨_, _, .bare hs⟩
      · obtain ⟨o, us, h⟩ := Reads.exists_reads he hr .lowest ts.tail
        cases o with
        | ok x => exact ⟨_, _, .returning hs h⟩
        | error d => exact ⟨_, _, .returningFails hs h⟩
  | skipped => exact ⟨_, _, .returningSkipped⟩

theorem exists_readsBy (he : ending.kind = .eof) (hr : r.starting .eof = none) (values : Values)
    (rule : StatementRule) (ts : List Token) : ∃ o us, ReadsBy r ending values rule ts o us := by
  cases rule with
  | binding => exact exists_binding he hr values ts
  | returning => exact exists_returning he hr values ts
  | expression =>
      obtain ⟨o, us, h⟩ := Reads.exists_reads he hr .lowest ts
      cases o with
      | ok x => exact ⟨_, _, .expression h⟩
      | error d => exact ⟨_, _, .expressionFails h⟩

theorem exists_readsItems (he : ending.kind = .eof) (hr : r.starting .eof = none) (values : Values)
    (ts : List Token) : ∃ items, ReadsItems r ending values ts items := by
  induction hn : ts.length using Nat.strongRecOn generalizing ts with
  | ind n ih =>
      cases ts with
      | nil => exact ⟨[], .done⟩
      | cons t ts =>
          obtain ⟨o, us, h⟩ : ∃ o us, ReadsStatement r ending values (t :: ts) o us :=
            exists_readsBy he hr values _ _
          cases o with
          | ok s =>
              obtain ⟨items, hi⟩ := ih _ (hn ▸ length_tail_lt h.suffix) us.tail rfl
              exact ⟨_, .statement h hi⟩
          | error d =>
              have hf := (fromSemicolon_suffix us).trans h.suffix
              obtain ⟨items, hi⟩ := ih _ (hn ▸ length_tail_lt hf) (fromSemicolon us).tail rfl
              exact ⟨_, .diagnostic h hi⟩

/-- A statement is read in one way. -/
theorem ReadsBy.unique {o' : Except Diagnostic Stmt} {us' : List Token}
    (h : ReadsBy r ending values rule ts o us) (h' : ReadsBy r ending values rule ts o' us') :
    o = o' ∧ us = us' := by
  cases h with
  | expression hx | expressionFails hx =>
      cases h' with
      | expression hy | expressionFails hy =>
          obtain ⟨he, rfl⟩ := hx.unique hy
          cases he <;> exact ⟨rfl, rfl⟩
  | unnamed | unassigned | bindingSkipped | bare => cases h' <;> simp_all
  | binding hn ha hx | bindingFails hn ha hx =>
      cases h' with
      | binding _ _ hy | bindingFails _ _ hy =>
          obtain ⟨he, rfl⟩ := hx.unique hy
          cases he <;> exact ⟨rfl, rfl⟩
      | _ => simp_all
  | returning hs hx | returningFails hs hx =>
      cases h' with
      | returning _ hy | returningFails _ hy =>
          obtain ⟨he, rfl⟩ := hx.unique hy
          cases he <;> exact ⟨rfl, rfl⟩
      | bare => contradiction
  | returningSkipped =>
      cases h'
      exact ⟨rfl, rfl⟩

theorem ReadsItems.unique {items items' : List Item} (h : ReadsItems r ending values ts items)
    (h' : ReadsItems r ending values ts items') : items = items' := by
  induction h generalizing items' with
  | done =>
      cases h'
      rfl
  | statement hs _ ih | diagnostic hs _ ih =>
      cases h' with
      | statement hs' hi' | diagnostic hs' hi' =>
          obtain ⟨he, rfl⟩ := ReadsBy.unique hs hs'
          cases he <;> rw [ih hi']

theorem ReadsItems.exists_of_statement {items : List Item} {s : Stmt}
    (h : ReadsItems r ending values ts items) (hs : ReadsStatement r ending values ts (.ok s) us)
    (hn : ts ≠ []) :
    ∃ items', items = .statement s :: items' ∧ ReadsItems r ending values us.tail items' := by
  cases h with
  | done => contradiction
  | statement hs' hi | diagnostic hs' hi =>
      obtain ⟨he, rfl⟩ := ReadsBy.unique hs hs'
      cases he <;> exact ⟨_, rfl, hi⟩

end FrontEnd
