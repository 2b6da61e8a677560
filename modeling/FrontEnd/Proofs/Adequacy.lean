import FrontEnd.Proofs.StatementReading

/-!
The parser reads what the reading relations say. A window that shows a list of tokens, and a depth
that exceeds their number, are all that a reader needs to come to the outcome of the relation; in
particular none of them is endless.
-/

namespace FrontEnd

/-- A result is the outcome, on a window that shows the tokens that are left. -/
inductive Returns {α : Type} (ending : Token) :
    EStateM.Result Stop Window α → Except Diagnostic α → List Token → Prop
  | ok {a : α} {w : Window} {us : List Token} :
      w.Shows us ending → Returns ending (.ok a w) (.ok a) us
  | error {d : Diagnostic} {w : Window} {us : List Token} :
      w.Shows us ending → Returns ending (.error (.diagnostic d) w) (.error d) us

namespace Returns

variable {α β : Type} {ending : Token} {x : Parse α} {f : α → Parse β} {w : Window}
  {us vs : List Token}

theorem bind {a : α} {o : Except Diagnostic β} (h : Returns ending (x w) (.ok a) us)
    (hf : ∀ w', w'.Shows us ending → Returns ending (f a w') o vs) :
    Returns ending ((x >>= f) w) o vs := by
  change Returns ending (EStateM.bind x f w) o vs
  unfold EStateM.bind
  generalize x w = result at h
  cases h with
  | ok hw => exact hf _ hw

theorem bind_error {d : Diagnostic} (h : Returns ending (x w) (.error d) us) :
    Returns ending ((x >>= f) w) (.error d) us := by
  change Returns ending (EStateM.bind x f w) _ us
  unfold EStateM.bind
  generalize x w = result at h
  cases h with
  | error hw => exact .error hw

theorem map {a : α} (g : α → β) (h : Returns ending (x w) (.ok a) us) :
    Returns ending ((g <$> x) w) (.ok (g a)) us := by
  change Returns ending (EStateM.map g x w) _ us
  unfold EStateM.map
  generalize x w = result at h
  cases h with
  | ok hw => exact .ok hw

theorem map_error {d : Diagnostic} (g : α → β) (h : Returns ending (x w) (.error d) us) :
    Returns ending ((g <$> x) w) (.error d) us := by
  change Returns ending (EStateM.map g x w) _ us
  unfold EStateM.map
  generalize x w = result at h
  cases h with
  | error hw => exact .error hw

end Returns

namespace Window.Shows

variable {w : Window} {ts : List Token} {ending : Token}

theorem returns_current (h : w.Shows ts ending) :
    Returns ending (Parse.current w) (.ok (front ending ts)) ts :=
  h.current ▸ .ok h

theorem returns_upcoming (h : w.Shows ts ending) :
    Returns ending (Parse.upcoming w) (.ok (front ending ts.tail)) ts :=
  h.upcoming ▸ .ok h

theorem returns_advance (h : w.Shows ts ending) :
    Returns ending (Parse.advance w) (.ok (front ending ts)) ts.tail :=
  h.current ▸ .ok h.advance

theorem returns_refuse {α : Type} (h : w.Shows ts ending) (cause : Cause) (t : Token) :
    Returns ending (Parse.refuse (α := α) cause t w) (.error ⟨cause, t.span.start⟩) ts :=
  .error h

theorem returns_skipToSemicolon (h : w.Shows ts ending) :
    Returns ending (Parse.skipToSemicolon w) (.ok ()) (fromSemicolon ts) :=
  .ok h.skipToSemicolon

theorem returns_expect {k : Kind} (h : w.Shows ts ending) (hk : (front ending ts.tail).kind = k) :
    Returns ending (Parse.expect k w) (.ok (front ending ts.tail)) ts.tail := by
  refine h.returns_upcoming.bind fun w h => ?_
  rw [if_pos hk]
  exact h.returns_advance.bind fun w h => h.returns_current

theorem returns_expect_of_ne {k : Kind} (h : w.Shows ts ending)
    (hk : (front ending ts.tail).kind ≠ k) :
    Returns ending (Parse.expect k w)
      (.error ⟨.expectedToken k (front ending ts.tail).kind, (front ending ts.tail).span.start⟩)
      ts := by
  refine h.returns_upcoming.bind fun w h => ?_
  rw [if_neg hk]
  exact h.returns_refuse _ _

end Window.Shows

namespace Rules

variable {r : Rules} {power : Power} {w : Window} {left : Expr} {operand : Power → Parse Expr}

theorem expression_of_none (depth : Nat) (h : r.starting w.current.kind = none) :
    r.expression (depth + 1) power w = Parse.refuse (.noStart w.current.kind) w.current w := by
  simp only [expression, bind, EStateM.bind, Parse.current, h]

theorem expression_of_some {rule : StartRule} (depth : Nat)
    (h : r.starting w.current.kind = some rule) :
    r.expression (depth + 1) power w =
      (rule.read (r.expression depth) >>=
        r.continued (r.expression depth) power (depth + 1)) w := by
  simp only [expression, bind, EStateM.bind, Parse.current, h]

theorem continued_of_not (n : Nat) (h : ¬ r.Continues power w.upcoming.kind) :
    r.continued operand power (n + 1) left w = .ok left w := by
  rw [Continues] at h
  simp only [continued, bind, EStateM.bind, Parse.upcoming]
  split
  · next hc =>
      cases hr : r.continuing w.upcoming.kind with
      | none => rfl
      | some rule => cases rule; exact absurd ⟨hc.1, hc.2, hr⟩ h
  · rfl

theorem continued_of (n : Nat) (h : r.Continues power w.upcoming.kind) :
    r.continued operand power (n + 1) left w =
      (Expression.binary operand left (r.power w.upcoming.kind) >>=
        r.continued operand power n) w.advance := by
  obtain ⟨hs, hp, hc⟩ := h
  simp only [continued, bind, EStateM.bind, Parse.upcoming, hc, ContinueRule.read]
  rw [if_pos ⟨hs, hp⟩]
  rfl

end Rules

/-- What a task computes on every window that shows the tokens, at every depth beyond their
number. -/
def Rules.Computes (r : Rules) (ending : Token) (task : Option Expr) (power : Power)
    (ts : List Token) (o : Except Diagnostic Expr) (us : List Token) : Prop :=
  ∀ w depth, w.Shows ts ending → ts.length ≤ depth →
    match task with
    | none => Returns ending (r.expression (depth + 1) power w) o us
    | some left => ∀ n, ts.length ≤ n →
        Returns ending (r.continued (r.expression depth) power (n + 1) left w) o us

namespace Rules.Computes

variable {r : Rules} {ending : Token} {power : Power} {ts us : List Token} {w : Window}
  {o : Except Diagnostic Expr} {depth : Nat}

theorem expression (h : r.Computes ending none power ts o us) (hw : w.Shows ts ending)
    (hd : ts.length < depth) : Returns ending (r.expression depth power w) o us := by
  cases depth with
  | zero => omega
  | succ depth => exact h w depth hw (Nat.le_of_lt_succ hd)

/-- The operand of an operator is read after the operator. -/
theorem unary {t : Token} {x : Expr} (h : r.Computes ending none .unary ts (.ok x) us)
    (hw : w.Shows (t :: ts) ending) (hd : ts.length < depth) :
    Returns ending (Expression.unary (r.expression depth) w)
      (.ok (.unary t x (t.span.hull x.span))) us := by
  refine hw.returns_advance.bind fun w hw => ?_
  exact (h.expression hw hd).bind fun w hw => .ok hw

theorem unary_error {t : Token} {d : Diagnostic}
    (h : r.Computes ending none .unary ts (.error d) us) (hw : w.Shows (t :: ts) ending)
    (hd : ts.length < depth) :
    Returns ending (Expression.unary (r.expression depth) w) (.error d) us :=
  hw.returns_advance.bind fun _ hw => (h.expression hw hd).bind_error

theorem grouping {t : Token} {x : Expr} (h : r.Computes ending none .lowest ts (.ok x) us)
    (hw : w.Shows (t :: ts) ending) (hd : ts.length < depth)
    (hk : (front ending us.tail).kind = .closeParen) :
    Returns ending (Expression.grouping (r.expression depth) w) (.ok x) us.tail := by
  refine hw.returns_advance.bind fun w hw => ?_
  refine (h.expression hw hd).bind fun w hw => ?_
  exact (hw.returns_expect hk).bind fun w hw => .ok hw

theorem grouping_open {t : Token} {x : Expr} (h : r.Computes ending none .lowest ts (.ok x) us)
    (hw : w.Shows (t :: ts) ending) (hd : ts.length < depth)
    (hk : (front ending us.tail).kind ≠ .closeParen) :
    Returns ending (Expression.grouping (r.expression depth) w)
      (.error ⟨.expectedToken .closeParen (front ending us.tail).kind,
        (front ending us.tail).span.start⟩) us := by
  refine hw.returns_advance.bind fun w hw => ?_
  refine (h.expression hw hd).bind fun w hw => ?_
  exact (hw.returns_expect_of_ne hk).bind_error

theorem grouping_error {t : Token} {d : Diagnostic}
    (h : r.Computes ending none .lowest ts (.error d) us) (hw : w.Shows (t :: ts) ending)
    (hd : ts.length < depth) :
    Returns ending (Expression.grouping (r.expression depth) w) (.error d) us :=
  hw.returns_advance.bind fun _ hw => (h.expression hw hd).bind_error

theorem binary {left x : Expr} (h : r.Computes ending none power ts.tail (.ok x) us)
    (hw : w.Shows ts ending) (hd : ts.tail.length < depth) :
    Returns ending (Expression.binary (r.expression depth) left power w)
      (.ok (.binary left (front ending ts) x (left.span.hull x.span))) us := by
  refine hw.returns_advance.bind fun w hw => ?_
  exact (h.expression hw hd).bind fun w hw => .ok hw

theorem binary_error {left : Expr} {d : Diagnostic}
    (h : r.Computes ending none power ts.tail (.error d) us) (hw : w.Shows ts ending)
    (hd : ts.tail.length < depth) :
    Returns ending (Expression.binary (r.expression depth) left power w) (.error d) us :=
  hw.returns_advance.bind fun _ hw => (h.expression hw hd).bind_error

/-- Once its operand has been read, an expression is continued. -/
theorem of_start {rule : StartRule} {t : Token} {x : Expr} {vs : List Token}
    (hs : r.starting t.kind = some rule) (hw : w.Shows (t :: ts) ending)
    (hx : Returns ending (rule.read (r.expression depth) w) (.ok x) us) (hu : us.length ≤ depth)
    (hc : r.Computes ending (some x) power us o vs) :
    Returns ending (r.expression (depth + 1) power w) o vs := by
  rw [expression_of_some depth (by rw [hw.current]; exact hs)]
  exact hx.bind fun w hw => hc w depth hw hu depth hu

theorem of_start_error {rule : StartRule} {t : Token} {d : Diagnostic}
    (hs : r.starting t.kind = some rule) (hw : w.Shows (t :: ts) ending)
    (hx : Returns ending (rule.read (r.expression depth) w) (.error d) us) :
    Returns ending (r.expression (depth + 1) power w) (.error d) us := by
  rw [expression_of_some depth (by rw [hw.current]; exact hs)]
  exact hx.bind_error

end Rules.Computes

theorem Reads.computes {r : Rules} {ending : Token} {task : Option Expr} {power : Power}
    {ts us : List Token} {o : Except Diagnostic Expr} (h : Reads r ending task power ts o us) :
    r.Computes ending task power ts o us := by
  induction h with
  | noStart hs =>
      intro w depth hw hd
      simp only
      rw [Rules.expression_of_none depth (by rw [hw.current]; exact hs), hw.current]
      exact hw.returns_refuse _ _
  | identifier hs hc ihc =>
      intro w depth hw hd
      exact Rules.Computes.of_start hs hw (hw.returns_current.bind fun w h => .ok h) hd ihc
  | integer hs hv hc ihc =>
      intro w depth hw hd
      refine Rules.Computes.of_start hs hw (hw.returns_current.bind fun w h => ?_) hd ihc
      simp only [front_cons, hv]
      exact .ok h
  | badInteger hs hv =>
      intro w depth hw hd
      refine Rules.Computes.of_start_error hs hw (hw.returns_current.bind fun w h => ?_)
      simp only [front_cons, hv]
      exact h.returns_refuse _ _
  | unary hs hx hc ih ihc =>
      intro w depth hw hd
      refine Rules.Computes.of_start hs hw (ih.unary hw hd) ?_ ihc
      exact Nat.le_trans hx.length_le (Nat.le_of_succ_le hd)
  | unaryFails hs hx ih =>
      intro w depth hw hd
      exact Rules.Computes.of_start_error hs hw (ih.unary_error hw hd)
  | group hs hx hk hc ih ihc =>
      intro w depth hw hd
      refine Rules.Computes.of_start hs hw (ih.grouping hw hd hk) ?_ ihc
      exact Nat.le_trans (Nat.le_of_succ_le hx.length_le) (Nat.le_of_succ_le hd)
  | groupOpen hs hx hk ih =>
      intro w depth hw hd
      exact Rules.Computes.of_start_error hs hw (ih.grouping_open hw hd hk)
  | groupFails hs hx ih =>
      intro w depth hw hd
      exact Rules.Computes.of_start_error hs hw (ih.grouping_error hw hd)
  | finish hn =>
      intro w depth hw hd n hn'
      rw [Rules.continued_of_not n (by rw [hw.upcoming]; exact hn)]
      exact .ok hw
  | @binary power left x t ts us vs o hb hx hc ih ihc =>
      intro w depth hw hd n hn
      have hu := hx.length_le
      simp only [List.length_cons, List.length_tail] at hd hn hu
      obtain ⟨n, rfl⟩ := Nat.exists_eq_add_one_of_ne_zero (Nat.ne_zero_of_lt hn)
      rw [Rules.continued_of _ (by rw [hw.upcoming]; exact hb), hw.upcoming]
      refine (ih.binary hw.advance ?_).bind fun w hw => ihc w depth hw (by omega) n (by omega)
      simp only [List.length_tail]
      omega
  | binaryFails hb hx ih =>
      intro w depth hw hd n hn
      simp only [List.length_cons] at hd
      rw [Rules.continued_of _ (by rw [hw.upcoming]; exact hb), hw.upcoming]
      refine (ih.binary_error hw.advance ?_).bind_error
      simp only [List.length_tail]
      omega

section

variable {r : Rules} {ending : Token} {values : Values} {ts us : List Token} {w : Window}
  {depth : Nat}

theorem Reads.returns {power : Power} {o : Except Diagnostic Expr}
    (h : Reads r ending none power ts o us) (hw : w.Shows ts ending) (hd : ts.length < depth) :
    Returns ending (r.expression depth power w) o us :=
  h.computes.expression hw hd

theorem Reads.returns_terminated {x : Expr} (h : Reads r ending none .lowest ts (.ok x) us)
    (hw : w.Shows ts ending) (hd : ts.length < depth) :
    Returns ending (r.terminated depth w) (.ok x) (pastSemicolon us) := by
  refine (h.returns hw hd).bind fun w hw => ?_
  refine hw.returns_upcoming.bind fun w hw => ?_
  obtain ⟨t, us, rfl⟩ := List.exists_cons_of_ne_nil h.ne_nil
  split
  · next hs =>
      cases us with
      | nil => rw [List.tail_cons, front_nil, hw.ends] at hs; contradiction
      | cons s us =>
          rw [pastSemicolon_cons_of_eq t us (show s.kind = .semicolon from hs)]
          exact hw.returns_advance.bind fun w hw => .ok hw
  · next hs =>
      rw [pastSemicolon_cons_of_ne (show (front ending us).kind ≠ .semicolon from hs)]
      exact .ok hw

theorem Reads.returns_terminated_error {d : Diagnostic}
    (h : Reads r ending none .lowest ts (.error d) us) (hw : w.Shows ts ending)
    (hd : ts.length < depth) : Returns ending (r.terminated depth w) (.error d) us :=
  (h.returns hw hd).bind_error

theorem Reads.returns_boundValue {a : Token} {x : Expr}
    (h : Reads r ending none .lowest ts (.ok x) us) (hw : w.Shows (a :: ts) ending)
    (hd : ts.length < depth) :
    Returns ending (r.boundValue .parsed depth w) (.ok (some x)) (pastSemicolon us) := by
  refine hw.returns_advance.bind fun w hw => ?_
  exact (h.returns_terminated hw hd).bind fun w hw => .ok hw

theorem Reads.returns_boundValue_error {a : Token} {d : Diagnostic}
    (h : Reads r ending none .lowest ts (.error d) us) (hw : w.Shows (a :: ts) ending)
    (hd : ts.length < depth) : Returns ending (r.boundValue .parsed depth w) (.error d) us := by
  refine hw.returns_advance.bind fun w hw => ?_
  exact (h.returns_terminated_error hw hd).bind_error

theorem Reads.returns_returnedValue {x : Expr} (h : Reads r ending none .lowest ts (.ok x) us)
    (hs : (front ending ts).kind ≠ .semicolon) (hw : w.Shows ts ending) (hd : ts.length < depth) :
    Returns ending (r.returnedValue .parsed depth w) (.ok (some x)) (pastSemicolon us) := by
  refine hw.returns_current.bind fun w hw => ?_
  rw [if_neg hs]
  exact (h.returns_terminated hw hd).bind fun w hw => .ok hw

theorem Reads.returns_returnedValue_error {d : Diagnostic}
    (h : Reads r ending none .lowest ts (.error d) us) (hs : (front ending ts).kind ≠ .semicolon)
    (hw : w.Shows ts ending) (hd : ts.length < depth) :
    Returns ending (r.returnedValue .parsed depth w) (.error d) us := by
  refine hw.returns_current.bind fun w hw => ?_
  rw [if_neg hs]
  exact (h.returns_terminated_error hw hd).bind_error

theorem returns_returnedValue_bare (hs : (front ending ts).kind = .semicolon)
    (hw : w.Shows ts ending) :
    Returns ending (r.returnedValue .parsed depth w) (.ok none) ts := by
  refine hw.returns_current.bind fun w hw => ?_
  rw [if_pos hs]
  exact .ok hw

theorem returns_boundValue_skipped (hw : w.Shows ts ending) :
    Returns ending (r.boundValue .skipped depth w) (.ok none) (fromSemicolon ts) :=
  hw.returns_skipToSemicolon.bind fun _ hw => .ok hw

theorem returns_returnedValue_skipped (hw : w.Shows ts ending) :
    Returns ending (r.returnedValue .skipped depth w) (.ok none) (fromSemicolon ts) :=
  hw.returns_skipToSemicolon.bind fun _ hw => .ok hw

/-- A binding whose value has been read or skipped. -/
theorem returns_binding {t n a : Token} {value : Option Expr} (hn : n.kind = .identifier)
    (ha : a.kind = .assignment) (hw : w.Shows (t :: n :: a :: ts) ending)
    (hv : ∀ w, w.Shows (a :: ts) ending →
      Returns ending (r.boundValue values depth w) (.ok value) us) :
    Returns ending (r.binding values depth w)
      (.ok (.binding t (.ofToken n) value (t.span.hull (front ending us).span))) us := by
  refine hw.returns_current.bind fun w hw => ?_
  refine (hw.returns_expect hn).bind fun w hw => ?_
  refine (hw.returns_expect ha).bind fun w hw => ?_
  refine (hv w hw).bind fun w hw => ?_
  exact hw.returns_current.bind fun w hw => .ok hw

/-- A return whose value has been read, skipped or found missing. -/
theorem returns_returning {value : Option Expr} (hw : w.Shows ts ending)
    (hv : ∀ w, w.Shows ts.tail ending →
      Returns ending (r.returnedValue values depth w) (.ok value) us) :
    Returns ending (r.returning values depth w)
      (.ok (.returning (front ending ts) value
        ((front ending ts).span.hull (front ending us).span))) us := by
  refine hw.returns_advance.bind fun w hw => ?_
  refine (hv w hw).bind fun w hw => ?_
  exact hw.returns_current.bind fun w hw => .ok hw

theorem ReadsBy.returns {rule : StatementRule} {o : Except Diagnostic Stmt}
    (h : ReadsBy r ending values rule ts o us) (hw : w.Shows ts ending) (hd : ts.length < depth) :
    Returns ending (r.statementBy values depth rule w) o us := by
  have ht : ts.tail.length < depth := by rw [List.length_tail]; omega
  cases h with
  | expression h =>
      refine hw.returns_current.bind fun w hw => ?_
      refine (h.returns_terminated hw hd).bind fun w hw => ?_
      exact hw.returns_current.bind fun w hw => .ok hw
  | expressionFails h =>
      refine hw.returns_current.bind fun w hw => ?_
      exact (h.returns_terminated_error hw hd).bind_error
  | unnamed hn =>
      refine hw.returns_current.bind fun w hw => ?_
      exact (hw.returns_expect_of_ne hn).bind_error
  | unassigned hn ha =>
      refine hw.returns_current.bind fun w hw => ?_
      refine (hw.returns_expect hn).bind fun w hw => ?_
      exact (hw.returns_expect_of_ne ha).bind_error
  | binding hn ha h =>
      simp only [List.length_cons] at hd
      exact returns_binding hn ha hw fun w hw => h.returns_boundValue hw (by omega)
  | bindingFails hn ha h =>
      simp only [List.length_cons] at hd
      refine hw.returns_current.bind fun w hw => ?_
      refine (hw.returns_expect hn).bind fun w hw => ?_
      refine (hw.returns_expect ha).bind fun w hw => ?_
      exact (h.returns_boundValue_error hw (by omega)).bind_error
  | bindingSkipped hn ha =>
      exact returns_binding hn ha hw fun w hw => returns_boundValue_skipped hw
  | bare hs => exact returns_returning hw fun w hw => returns_returnedValue_bare hs hw
  | returning hs h => exact returns_returning hw fun w hw => h.returns_returnedValue hs hw ht
  | returningFails hs h =>
      refine hw.returns_advance.bind fun w hw => ?_
      exact (h.returns_returnedValue_error hs hw ht).bind_error
  | returningSkipped => exact returns_returning hw fun w hw => returns_returnedValue_skipped hw

theorem ReadsStatement.returns {o : Except Diagnostic Stmt}
    (h : ReadsStatement r ending values ts o us) (hw : w.Shows ts ending)
    (hd : ts.length < depth) : Returns ending (r.readStatement values depth w) o us := by
  refine hw.returns_current.bind fun w hw => ?_
  rw [ReadsStatement] at h
  cases hr : r.statement (front ending ts).kind with
  | none =>
      rw [hr] at h
      exact (show ReadsBy r ending values .expression ts o us from h).returns hw hd
  | some rule =>
      rw [hr] at h
      exact h.returns hw hd

theorem ReadsStatement.returns_item {s : Stmt} (h : ReadsStatement r ending values ts (.ok s) us)
    (hw : w.Shows ts ending) (hd : ts.length < depth) :
    Returns ending (r.item values depth w) (.ok (.statement s)) us := by
  have hr := h.returns hw hd
  rw [Rules.item]
  generalize r.readStatement values depth w = result at hr
  cases hr with
  | ok hw => exact .ok (hw.record _)

theorem ReadsStatement.returns_item_error {d : Diagnostic}
    (h : ReadsStatement r ending values ts (.error d) us) (hw : w.Shows ts ending)
    (hd : ts.length < depth) :
    Returns ending (r.item values depth w) (.ok (.diagnostic d)) (fromSemicolon us) := by
  have hr := h.returns hw hd
  rw [Rules.item]
  generalize r.readStatement values depth w = result at hr
  cases hr with
  | error hw => exact .ok (hw.record _).skipToSemicolon

/-- An item is followed by the items after its last token. -/
theorem returns_items_cons {t : Token} {item : Item} {items : List Item} {n : Nat}
    (hw : w.Shows (t :: ts) ending)
    (hi : ∀ w, w.Shows (t :: ts) ending → Returns ending (r.item values depth w) (.ok item) us)
    (hr : ∀ w, w.Shows us.tail ending → Returns ending (r.items values depth n w) (.ok items) []) :
    Returns ending (r.items values depth (n + 1) w) (.ok (item :: items)) [] := by
  refine hw.returns_current.bind fun w hw => ?_
  rw [if_neg (show (front ending (t :: ts)).kind ≠ .eof from hw.proper t (by simp))]
  refine (hi w hw).bind fun w hw => ?_
  refine hw.returns_advance.bind fun w hw => ?_
  exact (hr w hw).bind fun w hw => .ok hw

theorem ReadsItems.returns {items : List Item} (h : ReadsItems r ending values ts items)
    (hd : ts.length < depth) (n : Nat) (hn : ts.length ≤ n) (hw : w.Shows ts ending) :
    Returns ending (r.items values depth (n + 1) w) (.ok items) [] := by
  induction h generalizing n w with
  | done =>
      refine hw.returns_current.bind fun w hw => ?_
      rw [if_pos (show (front ending []).kind = .eof from hw.ends)]
      exact .ok hw
  | @statement t s ts us items hs _ ih =>
      have hl := length_tail_lt hs.suffix
      obtain ⟨n, rfl⟩ := Nat.exists_eq_add_one_of_ne_zero (Nat.ne_zero_of_lt hn)
      exact returns_items_cons hw (fun w hw => hs.returns_item hw hd)
        fun w hw => ih (by omega) n (by omega) hw
  | @diagnostic t d ts us items hs _ ih =>
      have hl := length_tail_lt ((fromSemicolon_suffix us).trans hs.suffix)
      obtain ⟨n, rfl⟩ := Nat.exists_eq_add_one_of_ne_zero (Nat.ne_zero_of_lt hn)
      exact returns_items_cons hw (fun w hw => hs.returns_item_error hw hd)
        fun w hw => ih (by omega) n (by omega) hw

end

namespace Parser

variable {p : Parser} {ts us : List Token} {ending : Token}

theorem length_lt_budget (hw : p.window.Shows ts ending) : ts.length < p.budget :=
  Nat.lt_succ_of_le hw.length_le_size

/-- What an action reads is its answer, and it leaves everything but the window alone. -/
theorem run_of_returns {α : Type} {x : Parse α} {a : α}
    (h : Returns ending (x p.window) (.ok a) us) :
    ∃ w, p.run x = (.ok a, { p with window := w }) ∧ w.Shows us ending := by
  rw [run]
  generalize x p.window = result at h
  cases h with
  | ok hw => exact ⟨_, rfl, hw⟩

theorem run_of_returns_error {α : Type} {x : Parse α} {d : Diagnostic}
    (h : Returns ending (x p.window) (.error d) us) :
    ∃ w, p.run x = (.error (.diagnostic d), { p with window := w }) ∧ w.Shows us ending := by
  rw [run]
  generalize x p.window = result at h
  cases h with
  | error hw => exact ⟨_, rfl, hw⟩

theorem perform_of_reads {power : Power} {x : Expr} (hw : p.window.Shows ts ending)
    (h : Reads p.rules ending none power ts (.ok x) us) :
    ∃ q, p.perform (.expression power) = (.ok (.expression x), q) ∧ q.window.Shows us ending := by
  obtain ⟨w, hp, hw⟩ := run_of_returns ((h.returns hw (length_lt_budget hw)).map Answer.expression)
  exact ⟨_, hp, hw⟩

theorem reads_of_perform {q : Parser} {power : Power} {x : Expr} (hr : p.rules.starting .eof = none)
    (hw : p.window.Shows ts ending) (h : p.perform (.expression power) = (.ok (.expression x), q)) :
    ∃ us, Reads p.rules ending none power ts (.ok x) us ∧ q.window.Shows us ending := by
  obtain ⟨o, us, ho⟩ := Reads.exists_reads hw.ends hr power ts
  have hx := ho.returns hw (length_lt_budget hw)
  cases o with
  | ok y =>
      obtain ⟨w, hp, hw⟩ := run_of_returns (hx.map Answer.expression)
      cases hp.symm.trans h
      exact ⟨us, ho, hw⟩
  | error d =>
      obtain ⟨w, hp, -⟩ := run_of_returns_error (hx.map_error Answer.expression)
      cases hp.symm.trans h

theorem program_of_readsItems {items : List Item} (hw : p.window.Shows ts ending)
    (h : ReadsItems p.rules ending p.values ts items) :
    ∃ w, w.Shows [] ending ∧ p.program =
      (.ok ⟨items.filterMap Item.statement?⟩,
        { p with
          window := w
          diagnostics := p.diagnostics ++ items.filterMap Item.diagnostic? }) := by
  have hb : p.budget = p.window.size + 1 := rfl
  obtain ⟨w, hr, hw⟩ := run_of_returns
    (h.returns (length_lt_budget hw) p.window.size hw.length_le_size hw)
  rw [← hb] at hr
  exact ⟨w, hw, by rw [program, hr]⟩

end Parser

/-- A text is read as the items that its tokens are read as. -/
theorem parse_of_readsItems {text : String} {name : Option String} {values : Values}
    {ts : List Token} {ending : Token} {items : List Item}
    (hy : (Lexer.ofText text name).Yields ts ending)
    (h : ReadsItems .standard ending values ts items) :
    (parse text name values).1.statements = items.filterMap Item.statement? ∧
      (parse text name values).2.diagnostics = items.filterMap Item.diagnostic? := by
  obtain ⟨w, _, hp⟩ := Parser.program_of_readsItems
    (p := Parser.ofText text name values) (Window.shows_ofLexer hy) h
  rw [parse, hp]
  exact ⟨rfl, rfl⟩

end FrontEnd
