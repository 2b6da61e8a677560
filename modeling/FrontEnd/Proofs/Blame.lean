import FrontEnd.Proofs.History
import FrontEnd.Proofs.Rounds

/-!
What diagnostics are about. A computation that stops with a diagnostic leaves the window where the
diagnostic arose, so the window still shows the token that is to blame: the upcoming one where
another kind was expected, and the current one otherwise. This holds with any rules, also with
those that start or continue an expression at the end of the text.
-/

namespace FrontEnd

/-- The diagnostic is about what the window shows, and rightly so. -/
inductive Diagnostic.Blames (r : Rules) (w : Window) : Diagnostic → Prop
  | expectedToken {expected : Kind} :
      expected ≠ w.upcoming.kind →
      Blames r w ⟨.expectedToken expected w.upcoming.kind, w.upcoming.span.start⟩
  | noStart :
      r.starting w.current.kind = none →
      Blames r w ⟨.noStart w.current.kind, w.current.span.start⟩
  | badInteger :
      integerValue? w.current.literal.toList = none →
      Blames r w ⟨.badInteger w.current.literal, w.current.span.start⟩

def Cause.Fits : Cause → Token → Prop
  | .expectedToken expected got, t => got = t.kind ∧ expected ≠ t.kind
  | .noStart kind, t => kind = t.kind
  | .badInteger literal, t => literal = t.literal

structure Diagnostic.Concerns (d : Diagnostic) (text : String) (name : Option String) (i : Nat) :
    Prop where
  position : d.position = (tokenAt text name i).span.start
  cause : d.cause.Fits (tokenAt text name i)

theorem Diagnostic.Blames.exists_concerns {r : Rules} {w : Window} {d : Diagnostic} {text : String}
    {name : Option String} {i : Nat} (h : d.Blames r w) (hw : w.Follows (.ofText text name) i) :
    ∃ j, d.Concerns text name j := by
  obtain ⟨hc, hu, -⟩ := hw.standsAt
  cases h with
  | expectedToken hk => exact ⟨i + 1, by rw [hu], by rw [← hu]; exact ⟨rfl, hk⟩⟩
  | noStart => exact ⟨i, by rw [hc], by rw [← hc]; rfl⟩
  | badInteger => exact ⟨i, by rw [hc], by rw [← hc]; rfl⟩

def Accounted {α : Type} (r : Rules) : EStateM.Result Stop Window α → Prop
  | .error (.diagnostic d) w => d.Blames r w
  | .error .endless _ | .ok _ _ => True

/-- The computation stops only with diagnostics that are about what the window shows then. -/
def Accounts {α : Type} (r : Rules) (x : Parse α) : Prop :=
  ∀ w, Accounted r (x w)

namespace Accounts

variable {α β : Type} {r : Rules} {x : Parse α}

theorem pure (a : α) : Accounts r (Pure.pure a : Parse α) := fun _ => trivial

theorem current : Accounts r Parse.current := fun _ => trivial

theorem upcoming : Accounts r Parse.upcoming := fun _ => trivial

theorem advance : Accounts r Parse.advance := fun _ => trivial

theorem skipToSemicolon : Accounts r Parse.skipToSemicolon := fun _ => trivial

theorem endless : Accounts r (Parse.endless : Parse α) := fun _ => trivial

theorem bind {f : α → Parse β} (hx : Accounts r x) (hf : ∀ a, Accounts r (f a)) :
    Accounts r (x >>= f) := by
  intro w
  have hw := hx w
  change Accounted r (EStateM.bind x f w)
  unfold EStateM.bind
  cases hr : x w with
  | ok a w' => exact hf a w'
  | error e w' =>
      rw [hr] at hw
      cases e with
      | diagnostic d => exact hw
      | endless => trivial

theorem map (g : α → β) (hx : Accounts r x) : Accounts r (g <$> x) :=
  hx.bind fun _ => pure _

/-- A token of another kind is still the upcoming one. -/
theorem expect (k : Kind) : Accounts r (Parse.expect k) := by
  intro w
  change Accounted r ((if w.upcoming.kind = k then Parse.advance >>= fun _ => Parse.current
    else Parse.refuse (.expectedToken k w.upcoming.kind) w.upcoming : Parse Token) w)
  by_cases hk : w.upcoming.kind = k
  · rw [if_pos hk]
    trivial
  · rw [if_neg hk]
    exact .expectedToken (Ne.symm hk)

/-- A literal without a value is still the current token. -/
theorem integer : Accounts r Expression.integer := by
  intro w
  simp only [Expression.integer, Bind.bind, EStateM.bind, Parse.current]
  cases hv : integerValue? w.current.literal.toList with
  | some value => trivial
  | none => exact .badInteger hv

section

variable {operand : Power → Parse Expr} (ho : ∀ power, Accounts r (operand power))
include ho

theorem start_read (rule : StartRule) : Accounts r (rule.read operand) := by
  cases rule with
  | identifier => exact current.bind fun _ => pure _
  | integer => exact integer
  | unary => exact advance.bind fun _ => (ho _).bind fun _ => pure _
  | grouping =>
      exact advance.bind fun _ => (ho _).bind fun _ => (expect _).bind fun _ => pure _

theorem continue_read (left : Expr) (power : Power) (rule : ContinueRule) :
    Accounts r (rule.read operand left power) := by
  cases rule with
  | binary => exact advance.bind fun _ => (ho _).bind fun _ => pure _

theorem continued (power : Power) (n : Nat) (left : Expr) :
    Accounts r (r.continued operand power n left) := by
  induction n generalizing left with
  | zero => exact endless
  | succ n ih =>
      refine upcoming.bind fun next => ?_
      split
      · cases r.continuing next.kind with
        | none => exact pure _
        | some rule =>
            exact advance.bind fun _ => current.bind fun _ =>
              (continue_read ho _ _ _).bind fun _ => ih _
      · exact pure _

end

theorem expression (r : Rules) (depth : Nat) (power : Power) :
    Accounts r (r.expression depth power) := by
  induction depth generalizing power with
  | zero => exact endless
  | succ depth ih =>
      intro w
      cases hs : r.starting w.current.kind with
      | none =>
          rw [Rules.expression_of_none depth hs]
          exact .noStart hs
      | some rule =>
          rw [Rules.expression_of_some depth hs]
          exact (start_read ih rule).bind (continued ih power _) w

theorem terminated (r : Rules) (depth : Nat) : Accounts r (r.terminated depth) := by
  refine (expression r depth _).bind fun _ => upcoming.bind fun next => ?_
  split
  · exact advance.bind fun _ => pure _
  · exact pure _

theorem boundValue (r : Rules) (values : Values) (depth : Nat) :
    Accounts r (r.boundValue values depth) := by
  cases values with
  | parsed => exact advance.bind fun _ => (terminated r depth).bind fun _ => pure _
  | skipped => exact skipToSemicolon.bind fun _ => pure _

theorem returnedValue (r : Rules) (values : Values) (depth : Nat) :
    Accounts r (r.returnedValue values depth) := by
  cases values with
  | parsed =>
      refine current.bind fun first => ?_
      split
      · exact pure _
      · exact (terminated r depth).bind fun _ => pure _
  | skipped => exact skipToSemicolon.bind fun _ => pure _

theorem statementBy (r : Rules) (values : Values) (depth : Nat) (rule : StatementRule) :
    Accounts r (r.statementBy values depth rule) := by
  cases rule with
  | binding =>
      exact current.bind fun _ => (expect _).bind fun _ => (expect _).bind fun _ =>
        (boundValue r values depth).bind fun _ => current.bind fun _ => pure _
  | returning =>
      exact advance.bind fun _ => (returnedValue r values depth).bind fun _ =>
        current.bind fun _ => pure _
  | expression =>
      exact current.bind fun _ => (terminated r depth).bind fun _ => current.bind fun _ => pure _

theorem readStatement (r : Rules) (values : Values) (depth : Nat) :
    Accounts r (r.readStatement values depth) := by
  refine current.bind fun first => ?_
  cases r.statement first.kind with
  | none => exact statementBy r values depth .expression
  | some rule => exact statementBy r values depth rule

/-- An item keeps its diagnostic for itself. -/
theorem item (r : Rules) (values : Values) (depth : Nat) : Accounts r (r.item values depth) := by
  intro w
  unfold Rules.item
  cases r.readStatement values depth w with
  | ok s w' => trivial
  | error e w' => cases e <;> trivial

theorem items (r : Rules) (values : Values) (depth n : Nat) :
    Accounts r (r.items values depth n) := by
  induction n with
  | zero => exact endless
  | succ n ih =>
      refine current.bind fun first => ?_
      split
      · exact pure _
      · exact (item r values depth).bind fun _ => advance.bind fun _ => ih.bind fun _ => pure _

end Accounts

namespace Rules

variable {r : Rules} {values : Values} {depth n : Nat} {w : Window} {P : Window → Prop}

/-- A round reads its item where the loop has come to. -/
theorem round_of_mem (hP : Stable P) (hw : P w) :
    ∀ rd ∈ r.rounds values depth n w,
      P rd.start ∧ r.item values depth rd.start = .ok rd.item rd.stop := by
  induction n generalizing w with
  | zero => exact List.forall_mem_nil _
  | succ n ih =>
      rw [rounds]
      split
      · exact List.forall_mem_nil _
      · have hi := Keeps.item hP r values depth w hw
        cases hr : r.item values depth w with
        | error e stop => exact List.forall_mem_nil _
        | ok item stop =>
            rw [hr] at hi
            exact List.forall_mem_cons.mpr ⟨⟨hw, hr⟩, ih (hP.advance stop hi)⟩

/-- The diagnostic of an item arose at a window that the loop had come to. -/
theorem item_blames {d : Diagnostic} {stop : Window} (hP : Stable P) (hw : P w)
    (h : r.item values depth w = .ok (.diagnostic d) stop) : ∃ w, P w ∧ d.Blames r w := by
  have hk := Keeps.readStatement hP.advance r values depth w hw
  have ha := Accounts.readStatement r values depth w
  unfold item at h
  cases hs : r.readStatement values depth w with
  | ok s w' =>
      rw [hs] at h
      cases h
  | error e w' =>
      rw [hs] at h hk ha
      cases e with
      | endless => cases h
      | diagnostic d' =>
          cases h
          exact ⟨w', hk, ha⟩

end Rules

namespace Parser

variable {p q : Parser} {d : Diagnostic} {P : Window → Prop}

theorem run_blames {α : Type} {x : Parse α} (hx : Accounts p.rules x)
    (h : p.run x = (.error (.diagnostic d), q)) : d.Blames p.rules q.window := by
  have hw := hx p.window
  rw [run] at h
  cases hr : x p.window with
  | ok a w =>
      rw [hr] at h
      cases h
  | error e w =>
      rw [hr] at h hw
      cases h
      exact hw

/-- The diagnostics of a program are recorded and not returned. -/
theorem program_blames (h : p.program = (.error (.diagnostic d), q)) :
    d.Blames p.rules q.window := by
  rw [program] at h
  split at h
  · cases h
  · next hr =>
      cases h
      exact run_blames (Accounts.items _ _ _ _) hr

theorem perform_blames {a : Action} (h : p.perform a = (.error (.diagnostic d), q)) :
    d.Blames p.rules q.window := by
  cases a with
  | advance => exact run_blames (Accounts.advance.map Answer.token) h
  | expect k => exact run_blames ((Accounts.expect k).map Answer.token) h
  | expression power =>
      exact run_blames ((Accounts.expression _ _ _).map Answer.expression) h
  | start rule =>
      exact run_blames ((Accounts.start_read (Accounts.expression _ _) rule).map Answer.expression) h
  | «continue» rule left power =>
      exact run_blames ((Accounts.continue_read (Accounts.expression _ _) left power rule).map
        Answer.expression) h
  | statement => exact run_blames ((Accounts.readStatement _ _ _).map Answer.statement) h
  | statementBy rule =>
      exact run_blames ((Accounts.statementBy _ _ _ rule).map Answer.statement) h
  | skipToSemicolon =>
      exact run_blames (Accounts.skipToSemicolon.map fun _ => Answer.nothing) h
  | program =>
      rw [perform] at h
      cases hp : p.program with
      | mk o q' =>
          rw [hp] at h
          cases o with
          | ok program => cases h
          | error e =>
              cases h
              exact program_blames hp
  | setStarting | setContinuing | setStatement => cases h

/-- What a program adds to the diagnostics arose at windows on the way. -/
theorem program_recorded (hP : Stable P) (hw : P p.window) :
    ∀ d ∈ p.program.2.diagnostics, d ∈ p.diagnostics ∨ ∃ w, P w ∧ d.Blames p.rules w := by
  intro d hd
  rw [program] at hd
  split at hd
  · next items q hr =>
      rw [run] at hr
      cases hi : p.rules.items p.values p.budget p.budget p.window with
      | error e w =>
          rw [hi] at hr
          cases hr
      | ok items' w =>
          rw [hi] at hr
          cases hr
          refine (List.mem_append.mp hd).imp_right fun hd => ?_
          obtain ⟨item, hm, hid⟩ := List.mem_filterMap.mp hd
          rw [← Rules.map_item_rounds hi] at hm
          obtain ⟨rd, hrd, rfl⟩ := List.mem_map.mp hm
          obtain ⟨hstart, hitem⟩ := Rules.round_of_mem hP hw rd hrd
          cases hk : rd.item with
          | statement s =>
              rw [hk] at hid
              cases hid
          | diagnostic d' =>
              rw [hk] at hid hitem
              cases hid
              exact Rules.item_blames hP hstart hitem
  · next hr =>
      obtain ⟨w, hw'⟩ := p.exists_run (p.rules.items p.values p.budget p.budget)
      rw [hr] at hw'
      cases hw'
      exact .inl hd

/-- Whatever has been recorded is about tokens of the source. -/
theorem Reachable.concerns {text : String} {name : Option String} {values : Values}
    (hp : p.Reachable text name values) : ∀ d ∈ p.diagnostics, ∃ i, d.Concerns text name i := by
  induction hp with
  | start => exact List.forall_mem_nil _
  | @perform p a hp ih =>
      intro d hd
      by_cases ha : a = .program
      · subst ha
        have hstable := Window.Follows.stable (.ofText text name) 0
        have hw := hp.keeps hstable ⟨0, Nat.le_refl 0, .ofLexer _⟩
        rcases program_recorded hstable hw d hd with hd | ⟨w, ⟨i, -, hi⟩, hb⟩
        · exact ih d hd
        · exact hb.exists_concerns hi
      · rw [(p.perform_frame a).diagnostics ha] at hd
        exact ih d hd

end Parser

theorem parse_snd (text : String) (name : Option String) (values : Values) :
    (parse text name values).2 = ((Parser.ofText text name values).perform .program).2 := by
  rw [parse, Parser.perform]
  rcases (Parser.ofText text name values).program with ⟨_ | _, _⟩ <;> rfl

theorem parse_concerns (text : String) (name : Option String) (values : Values) :
    ∀ d ∈ (parse text name values).2.diagnostics, ∃ i, d.Concerns text name i := by
  rw [parse_snd]
  exact (Parser.Reachable.start.perform .program).concerns

theorem tokenAt_mem_tokenize (text : String) (name : Option String) (i : Nat) :
    tokenAt text name i ∈ tokenize text name := by
  rw [tokenize_eq, tokenAt]
  cases hd : (sourceTokens text name).drop i with
  | nil => exact List.mem_append_right _ (List.mem_singleton_self _)
  | cons t ts =>
      have ht : t ∈ (sourceTokens text name).drop i := hd ▸ List.mem_cons_self ..
      exact List.mem_append_left _ (List.mem_of_mem_drop ht)

theorem Diagnostic.Concerns.exists_token {d : Diagnostic} {text : String} {name : Option String}
    {i : Nat} (h : d.Concerns text name i) :
    ∃ t ∈ tokenize text name, d.position = t.span.start ∧ d.cause.Fits t :=
  ⟨_, tokenAt_mem_tokenize text name i, h.position, h.cause⟩

/-- Diagnostics name the right token. With whatever rules, an action that stops with a diagnostic
leaves the window where the diagnostic arose, and what a parser has recorded is about tokens of its
source: there is one at the very position, and of the kind or with the literal that is named. -/
theorem Parser.diagnostics_name_tokens (text : String) (name : Option String) (values : Values) :
    (∀ p : Parser, p.Reachable text name values →
      (∀ a d q, p.perform a = (.error (.diagnostic d), q) → d.Blames p.rules q.window) ∧
        ∀ d ∈ p.diagnostics,
          ∃ t ∈ tokenize text name, d.position = t.span.start ∧ d.cause.Fits t) ∧
      ∀ d ∈ (parse text name values).2.diagnostics,
        ∃ t ∈ tokenize text name, d.position = t.span.start ∧ d.cause.Fits t := by
  refine ⟨fun p hp => ⟨fun a d q => perform_blames, fun d hd => ?_⟩, fun d hd => ?_⟩
  · obtain ⟨i, hi⟩ := hp.concerns d hd
    exact hi.exists_token
  · obtain ⟨i, hi⟩ := parse_concerns text name values d hd
    exact hi.exists_token

end FrontEnd
