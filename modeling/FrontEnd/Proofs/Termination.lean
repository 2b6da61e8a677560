import FrontEnd.Proofs.Blocks
import FrontEnd.Proofs.History

/-!
Every action comes to an end. Unless an expression can start at the end of the text, a depth of one
more than the tokens that are left is enough for any reader, whatever rules are registered, and a
greater depth changes nothing. The loop over the statements takes a token in every round.
-/

namespace FrontEnd

/-- The second computation does what the first one does, unless that one is endless. -/
def Deepens {α : Type} (x y : Parse α) : Prop :=
  ∀ w, (∃ w', x w = .error .endless w') ∨ y w = x w

namespace Deepens

variable {α β : Type}

theorem refl (x : Parse α) : Deepens x x := fun _ => .inr rfl

theorem endless (y : Parse α) : Deepens Parse.endless y := fun w => .inl ⟨w, rfl⟩

theorem bind {x x' : Parse α} {f f' : α → Parse β} (hx : Deepens x x')
    (hf : ∀ a, Deepens (f a) (f' a)) : Deepens (x >>= f) (x' >>= f') := by
  intro w
  change (∃ w', EStateM.bind x f w = _) ∨ EStateM.bind x' f' w = EStateM.bind x f w
  unfold EStateM.bind
  rcases hx w with ⟨w', h⟩ | h
  · exact .inl ⟨w', by rw [h]⟩
  · rw [h]
    cases x w with
    | ok a w' => exact hf a w'
    | error e w' => exact .inr rfl

theorem map {x x' : Parse α} (g : α → β) (h : Deepens x x') : Deepens (g <$> x) (g <$> x') :=
  h.bind fun _ => refl _

section

variable {operand operand' : Power → Parse Expr}
  (ho : ∀ power, Deepens (operand power) (operand' power))
include ho

theorem start_read (rule : StartRule) : Deepens (rule.read operand) (rule.read operand') := by
  cases rule with
  | identifier | integer => exact refl _
  | unary => exact (refl _).bind fun _ => (ho _).bind fun _ => refl _
  | grouping => exact (refl _).bind fun _ => (ho _).bind fun _ => refl _

theorem continue_read (left : Expr) (power : Power) (rule : ContinueRule) :
    Deepens (rule.read operand left power) (rule.read operand' left power) := by
  cases rule with
  | binary => exact (refl _).bind fun _ => (ho _).bind fun _ => refl _

theorem continued (r : Rules) (power : Power) {n n' : Nat} (hn : n ≤ n') (left : Expr) :
    Deepens (r.continued operand power n left) (r.continued operand' power n' left) := by
  induction n generalizing n' left with
  | zero => exact endless _
  | succ n ih =>
      obtain ⟨n', rfl⟩ := Nat.exists_eq_add_one_of_ne_zero (Nat.ne_zero_of_lt hn)
      refine (refl _).bind fun next => ?_
      split
      · cases r.continuing next.kind with
        | none => exact refl _
        | some rule =>
            exact (refl _).bind fun _ => (refl _).bind fun _ =>
              (continue_read ho _ _ _).bind fun _ => ih (Nat.le_of_succ_le_succ hn) _
      · exact refl _

end

section

variable (r : Rules) {depth depth' : Nat} (hd : depth ≤ depth')
include hd

theorem expression (power : Power) :
    Deepens (r.expression depth power) (r.expression depth' power) := by
  induction depth generalizing depth' power with
  | zero => exact endless _
  | succ depth ih =>
      obtain ⟨depth', rfl⟩ := Nat.exists_eq_add_one_of_ne_zero (Nat.ne_zero_of_lt hd)
      have ho := ih (Nat.le_of_succ_le_succ hd)
      refine (refl _).bind fun first => ?_
      cases r.starting first.kind with
      | none => exact refl _
      | some rule => exact (start_read ho rule).bind fun _ => continued ho r _ hd _

theorem terminated : Deepens (r.terminated depth) (r.terminated depth') :=
  (expression r hd _).bind fun _ => refl _

theorem boundValue (values : Values) :
    Deepens (r.boundValue values depth) (r.boundValue values depth') := by
  cases values with
  | parsed => exact (refl _).bind fun _ => (terminated r hd).bind fun _ => refl _
  | skipped => exact refl _

theorem returnedValue (values : Values) :
    Deepens (r.returnedValue values depth) (r.returnedValue values depth') := by
  cases values with
  | parsed =>
      refine (refl _).bind fun first => ?_
      split
      · exact refl _
      · exact (terminated r hd).bind fun _ => refl _
  | skipped => exact refl _

theorem statementBy (values : Values) (rule : StatementRule) :
    Deepens (r.statementBy values depth rule) (r.statementBy values depth' rule) := by
  cases rule with
  | binding =>
      exact (refl _).bind fun _ => (refl _).bind fun _ => (refl _).bind fun _ =>
        (boundValue r hd values).bind fun _ => refl _
  | returning => exact (refl _).bind fun _ => (returnedValue r hd values).bind fun _ => refl _
  | expression => exact (refl _).bind fun _ => (terminated r hd).bind fun _ => refl _

theorem readStatement (values : Values) :
    Deepens (r.readStatement values depth) (r.readStatement values depth') := by
  refine (refl _).bind fun first => ?_
  cases r.statement first.kind with
  | none => exact statementBy r hd values .expression
  | some rule => exact statementBy r hd values rule

theorem item (values : Values) : Deepens (r.item values depth) (r.item values depth') := by
  intro w
  rw [Rules.item, Rules.item]
  rcases readStatement r hd values w with ⟨w', h⟩ | h
  · exact .inl ⟨w', by rw [h]⟩
  · exact .inr (by rw [h])

theorem items (values : Values) {n n' : Nat} (hn : n ≤ n') :
    Deepens (r.items values depth n) (r.items values depth' n') := by
  induction n generalizing n' with
  | zero => exact endless _
  | succ n ih =>
      obtain ⟨n', rfl⟩ := Nat.exists_eq_add_one_of_ne_zero (Nat.ne_zero_of_lt hn)
      refine (refl _).bind fun first => ?_
      split
      · exact refl _
      · exact (item r hd values).bind fun _ => (refl _).bind fun _ =>
          (ih (Nat.le_of_succ_le_succ hn)).bind fun _ => refl _

end

end Deepens

def Finishes {α : Type} (ending : Token) (x : Parse α) (w : Window) : Prop :=
  ∃ o us, Returns ending (x w) o us

namespace Finishes

variable {α β : Type} {ending : Token} {x : Parse α} {w : Window} {ts : List Token}

theorem bind {f : α → Parse β} (h : Finishes ending x w)
    (hf : ∀ a w us, w.Shows us ending → Finishes ending (f a) w) :
    Finishes ending (x >>= f) w := by
  obtain ⟨o, us, h⟩ := h
  cases o with
  | error d => exact ⟨_, _, h.bind_error⟩
  | ok a =>
      rw [Finishes]
      change ∃ o us, Returns ending (EStateM.bind x f w) o us
      unfold EStateM.bind
      generalize x w = result at h
      cases h with
      | ok hw => exact hf a _ us hw

theorem pure (hw : w.Shows ts ending) (a : α) : Finishes ending (Pure.pure a) w :=
  ⟨.ok a, ts, .ok hw⟩

theorem map (g : α → β) (h : Finishes ending x w) : Finishes ending (g <$> x) w :=
  h.bind fun a _ _ hw => pure hw (g a)

theorem of_advance {f : Token → Parse β} (hf : Finishes ending (f w.current) w.advance) :
    Finishes ending (Parse.advance >>= f) w :=
  hf

theorem of_current {f : Token → Parse β} (hf : Finishes ending (f w.current) w) :
    Finishes ending (Parse.current >>= f) w :=
  hf

theorem expect (hw : w.Shows ts ending) (k : Kind) : Finishes ending (Parse.expect k) w := by
  by_cases hk : (front ending ts.tail).kind = k
  · exact ⟨_, _, hw.returns_expect hk⟩
  · exact ⟨_, _, hw.returns_expect_of_ne hk⟩

section

variable {r : Rules} {depth : Nat} (hr : r.starting .eof = none) (hw : w.Shows ts ending)
  (hd : ts.length < depth)
include hr hw hd

theorem expression (power : Power) : Finishes ending (r.expression depth power) w := by
  obtain ⟨o, us, h⟩ := Reads.exists_reads hw.ends hr power ts
  exact ⟨o, us, h.returns hw hd⟩

theorem expression_advance (power : Power) :
    Finishes ending (r.expression depth power) w.advance :=
  expression hr hw.advance (List.length_tail ▸ Nat.lt_of_le_of_lt (Nat.sub_le _ _) hd) power

theorem start_read (rule : StartRule) : Finishes ending (rule.read (r.expression depth)) w := by
  cases rule with
  | identifier => exact of_current (pure hw _)
  | integer =>
      refine of_current ?_
      cases integerValue? w.current.literal.toList with
      | none => exact ⟨_, _, hw.returns_refuse _ _⟩
      | some value => exact pure hw _
  | unary =>
      exact of_advance ((expression_advance hr hw hd _).bind fun _ _ _ hw => pure hw _)
  | grouping =>
      exact of_advance ((expression_advance hr hw hd _).bind fun _ _ _ hw =>
        (expect hw _).bind fun _ _ _ hw => pure hw _)

theorem continue_read (left : Expr) (power : Power) (rule : ContinueRule) :
    Finishes ending (rule.read (r.expression depth) left power) w := by
  cases rule with
  | binary =>
      exact of_advance ((expression_advance hr hw hd _).bind fun _ _ _ hw => pure hw _)

theorem statementBy (values : Values) (rule : StatementRule) :
    Finishes ending (r.statementBy values depth rule) w := by
  obtain ⟨o, us, h⟩ := exists_readsBy hw.ends hr values rule ts
  exact ⟨o, us, h.returns hw hd⟩

theorem readStatement (values : Values) : Finishes ending (r.readStatement values depth) w := by
  obtain ⟨o, us, h⟩ : ∃ o us, ReadsStatement r ending values ts o us :=
    exists_readsBy hw.ends hr values _ ts
  exact ⟨o, us, h.returns hw hd⟩

theorem items (values : Values) : Finishes ending (r.items values depth depth) w := by
  obtain ⟨items, h⟩ := exists_readsItems hw.ends hr values ts
  obtain ⟨n, rfl⟩ := Nat.exists_eq_add_one_of_ne_zero (Nat.ne_zero_of_lt hd)
  exact ⟨_, _, h.returns hd n (Nat.le_of_lt_succ hd) hw⟩

end

end Finishes

def Round.Advances (rd : Round) (text : String) (name : Option String) : Prop :=
  ∃ j k, rd.start.At text name j ∧ rd.stop.advance.At text name k ∧ j < k ∧
    k ≤ (sourceTokens text name).length

theorem ReadsRounds.advances {r : Rules} {text : String} {name : Option String} {values : Values}
    {ts : List Token} {rds : List Round}
    (h : ReadsRounds r (sourceEnd text name) values ts rds) (hts : ts <:+ sourceTokens text name) :
    ∀ rd ∈ rds, rd.Advances text name := by
  induction h with
  | done => exact List.forall_mem_nil _
  | @round t ts us rd rds hstart hi hstop _ ih =>
      have htail : us.tail <:+ sourceTokens text name :=
        ((List.tail_suffix us).trans hi.suffix).trans hts
      have hlt : place text name (t :: ts) < place text name us.tail :=
        place_lt_place (length_tail_lt hi.suffix) hts
      exact List.forall_mem_cons.mpr ⟨⟨place text name (t :: ts), place text name us.tail,
        hstart.at_place hts, hstop.advance.at_place htail, hlt, Nat.sub_le ..⟩, ih htail⟩

/-- Anything but a rule that starts an expression at the end of the text. -/
def Action.IsProper : Action → Prop
  | .setStarting kind _ => kind ≠ .eof
  | _ => True

namespace Parser

/-- The action when expressions may nest no deeper than a depth. What would have to go deeper comes
out endless, and so do longer rows of operators or of statements. -/
def performWithin (depth : Nat) (p : Parser) : Action → Except Stop Answer × Parser
  | .expression power => p.run (Answer.expression <$> p.rules.expression depth power)
  | .start rule => p.run (Answer.expression <$> rule.read (p.rules.expression depth))
  | .continue rule left power =>
      p.run (Answer.expression <$> rule.read (p.rules.expression depth) left power)
  | .statement => p.run (Answer.statement <$> p.rules.readStatement p.values depth)
  | .statementBy rule => p.run (Answer.statement <$> p.rules.statementBy p.values depth rule)
  | .program =>
      match p.run (p.rules.items p.values depth depth) with
      | (.ok items, p) =>
          (.ok (.program ⟨items.filterMap Item.statement?⟩),
            { p with diagnostics := p.diagnostics ++ items.filterMap Item.diagnostic? })
      | (.error e, p) => (.error e, p)
  | a => p.perform a

theorem performWithin_budget (p : Parser) (a : Action) :
    p.performWithin p.budget a = p.perform a := by
  cases a with
  | program =>
      rw [performWithin, perform, program]
      rcases p.run (p.rules.items p.values p.budget p.budget) with ⟨_ | _, _⟩ <;> rfl
  | _ => rfl

def rounds (p : Parser) : List Round :=
  p.rules.rounds p.values p.budget p.budget p.window

variable {p : Parser} {ts : List Token} {ending : Token} {depth depth' : Nat}

theorem run_of_finishes {α : Type} {x y : Parse α} (hx : Finishes ending x p.window)
    (hd : Deepens x y) : p.run y = p.run x ∧ (p.run x).1 ≠ .error .endless := by
  obtain ⟨o, us, h⟩ := hx
  have hy : y p.window = x p.window := by
    rcases hd p.window with ⟨w, he⟩ | he
    · rw [he] at h
      cases h
    · exact he
  rw [run, run, hy]
  generalize x p.window = result at h
  cases h with
  | ok | error => exact ⟨rfl, by simp⟩

/-- A depth beyond the number of tokens that are left is enough for an action, and more is no
better. -/
theorem performWithin_of_length_lt (hr : p.rules.starting .eof = none)
    (hw : p.window.Shows ts ending) (hn : ts.length < depth) (hd : depth ≤ depth') (a : Action) :
    p.performWithin depth' a = p.performWithin depth a ∧
      (p.performWithin depth a).1 ≠ .error .endless := by
  cases a with
  | expression power =>
      exact run_of_finishes ((Finishes.expression hr hw hn _).map _)
        ((Deepens.expression _ hd _).map _)
  | start rule =>
      exact run_of_finishes ((Finishes.start_read hr hw hn rule).map _)
        ((Deepens.start_read (Deepens.expression _ hd) rule).map _)
  | «continue» rule left power =>
      exact run_of_finishes ((Finishes.continue_read hr hw hn left power rule).map _)
        ((Deepens.continue_read (Deepens.expression _ hd) left power rule).map _)
  | statement =>
      exact run_of_finishes ((Finishes.readStatement hr hw hn _).map _)
        ((Deepens.readStatement _ hd _).map _)
  | statementBy rule =>
      exact run_of_finishes ((Finishes.statementBy hr hw hn _ rule).map _)
        ((Deepens.statementBy _ hd _ rule).map _)
  | program =>
      obtain ⟨he, hf⟩ := run_of_finishes (Finishes.items hr hw hn p.values)
        (Deepens.items _ hd p.values hd)
      rw [performWithin, performWithin, he]
      refine ⟨rfl, ?_⟩
      split
      · nofun
      · next hx =>
          rw [hx] at hf
          exact fun h => hf (congrArg Except.error (Except.error.inj h))
  | expect k =>
      exact run_of_finishes ((Finishes.expect hw k).map _) (Deepens.refl _)
  | advance | skipToSemicolon | setStarting | setContinuing | setStatement => exact ⟨rfl, nofun⟩

theorem perform_terminates (hr : p.rules.starting .eof = none) (hw : p.window.Shows ts ending)
    (hn : ts.length < depth) (a : Action) :
    p.performWithin depth a = p.perform a ∧ (p.perform a).1 ≠ .error .endless := by
  have hb := length_lt_budget hw
  -- Both the depth and the budget come after the least depth that is enough.
  obtain ⟨hbudget, hne⟩ := performWithin_of_length_lt hr hw (Nat.lt_succ_self _) hb a
  obtain ⟨hdepth, -⟩ := performWithin_of_length_lt hr hw (Nat.lt_succ_self _) hn a
  rw [← performWithin_budget, hbudget]
  exact ⟨hdepth, hne⟩

/-- No action but one makes an expression start at the end of the text. -/
theorem starting_eof_perform (hr : p.rules.starting .eof = none) {a : Action} (ha : a.IsProper) :
    (p.perform a).2.rules.starting .eof = none := by
  cases a with
  | setStarting kind rule =>
      change (if Kind.eof = kind then some rule else p.rules.starting .eof) = none
      rw [if_neg (Ne.symm ha), hr]
  | setContinuing | setStatement => exact hr
  | _ =>
      rw [(p.perform_frame _).rules id]
      exact hr

structure Settled (p : Parser) (text : String) (name : Option String) : Prop where
  starting : p.rules.starting .eof = none
  follows : ∃ i, p.window.Follows (.ofText text name) i

theorem Settled.perform {text : String} {name : Option String} (h : p.Settled text name)
    {a : Action} (ha : a.IsProper) : (p.perform a).2.Settled text name := by
  obtain ⟨i, hi⟩ := h.follows
  obtain ⟨j, -, hj⟩ := perform_keeps (Window.Follows.stable _ i) p a ⟨i, Nat.le_refl i, hi⟩
  exact ⟨starting_eof_perform h.starting ha, j, hj⟩

theorem Settled.history {text : String} {name : Option String} {values : Values}
    {actions : List Action} (ha : ∀ a ∈ actions, a.IsProper) :
    ∀ p ∈ (ofText text name values).history actions, p.Settled text name :=
  forall_mem_history ⟨rfl, 0, .ofLexer _⟩ fun a hm _ h => h.perform (ha a hm)

/-- A program is read up to the end of the text, in rounds that it has the statements of. -/
theorem perform_program (hr : p.rules.starting .eof = none) (hw : p.window.Shows ts ending) :
    ReadsRounds p.rules ending p.values ts p.rounds ∧
      ∃ q, q.window.Shows [] ending ∧
        p.perform .program =
          (.ok (.program ⟨(p.rounds.map Round.item).filterMap Item.statement?⟩), q) := by
  have hrounds : ReadsRounds p.rules ending p.values ts p.rounds :=
    Rules.readsRounds hw.ends hr hw (length_lt_budget hw) hw.length_le_size
  obtain ⟨w, hend, hp⟩ := program_of_readsItems hw hrounds.readsItems
  refine ⟨hrounds, p.program.2, ?_, ?_⟩
  · rw [hp]
    exact hend
  · rw [perform, hp]
    rfl

/-- A parser that is used without a rule that starts an expression at the end of the text comes to
an end in whatever is done next. Expressions nest no deeper than there are tokens left, and one.
Every round of the loop that reads a program takes a token. -/
theorem history_terminates (text : String) (name : Option String) (values : Values)
    {actions : List Action} (ha : ∀ a ∈ actions, a.IsProper) :
    ∀ p ∈ (ofText text name values).history actions, ∃ i, p.window.At text name i ∧
      (∀ a depth, ((sourceTokens text name).drop i).length < depth →
        p.performWithin depth a = p.perform a ∧ (p.perform a).1 ≠ .error .endless) ∧
      (∃ q, q.window.At text name (sourceTokens text name).length ∧
        p.perform .program =
          (.ok (.program ⟨(p.rounds.map Round.item).filterMap Item.statement?⟩), q)) ∧
      ∀ rd ∈ p.rounds, rd.Advances text name := by
  intro p hp
  obtain ⟨hr, i, hi⟩ := Settled.history ha p hp
  have hw := hi.toAt
  obtain ⟨hrounds, q, hq, hprogram⟩ := perform_program hr hw
  refine ⟨i, hw, fun a depth hd => perform_terminates hr hw hd a, ⟨q, ?_, hprogram⟩, ?_⟩
  · rw [Window.At, List.drop_length]
    exact hq
  · exact hrounds.advances (List.drop_suffix i _)

/-- Even where the end of the text is an operator. -/
theorem history_terminates_operator :
    let p := ((ofText "a" none .parsed).perform (.setContinuing .eof .product .binary)).2
    p.rules.continuing .eof = some .binary ∧ ∀ a, p.performWithin 2 a = p.perform a := by
  have hactions : ∀ a ∈ [Action.setContinuing .eof .product .binary], a.IsProper :=
    List.forall_mem_singleton.mpr trivial
  obtain ⟨i, -, h, -⟩ := history_terminates "a" none .parsed hactions _
    (List.mem_cons_of_mem _ (List.mem_cons_self ..))
  refine ⟨rfl, fun a => (h a 2 ?_).1⟩
  have hl : (sourceTokens "a" none).length = 1 := by decide +kernel
  rw [List.length_drop, hl]
  omega

end Parser

end FrontEnd
