import FrontEnd.Proofs.Adequacy

/-!
What holds of every window a parser comes to. Computations touch a window by advancing and by
recording only, so a property that survives both survives every action, whatever the rules are. The
first such property: a reachable parser always stands at some index of the tokens of its source.
-/

namespace FrontEnd

structure Stable (P : Window → Prop) : Prop where
  advance : ∀ w, P w → P w.advance
  record : ∀ w r, P w → P (w.record r)

def Keeps {α : Type} (P : Window → Prop) (x : Parse α) : Prop :=
  ∀ w, P w → match x w with
    | .ok _ w | .error _ w => P w

namespace Keeps

variable {α β : Type} {P : Window → Prop}

theorem pure (a : α) : Keeps P (Pure.pure a : Parse α) := fun _ h => h

theorem bind {x : Parse α} {f : α → Parse β} (hx : Keeps P x) (hf : ∀ a, Keeps P (f a)) :
    Keeps P (x >>= f) := by
  intro w h
  have hw := hx w h
  change match EStateM.bind x f w with | .ok _ w | .error _ w => P w
  unfold EStateM.bind
  cases hr : x w with
  | ok a w' => rw [hr] at hw; exact hf a w' hw
  | error e w' => rw [hr] at hw; exact hw

theorem current : Keeps P Parse.current := fun _ h => h

theorem upcoming : Keeps P Parse.upcoming := fun _ h => h

theorem refuse (cause : Cause) (t : Token) : Keeps P (Parse.refuse cause t : Parse α) :=
  fun _ h => h

theorem endless : Keeps P (Parse.endless : Parse α) := fun _ h => h

section

-- No reader records anything: what advancing keeps, reading keeps.
variable (hP : ∀ w, P w → P w.advance)
include hP

theorem advance : Keeps P Parse.advance := hP

theorem skipToSemicolon : Keeps P Parse.skipToSemicolon := by
  intro w h
  change P w.skipToSemicolon
  induction w using Window.skipToSemicolon.induct with
  | case1 w hs => rwa [Window.skipToSemicolon, if_pos hs]
  | case2 w hs ih =>
      rw [Window.skipToSemicolon, if_neg hs]
      exact ih (hP w h)

theorem expect (k : Kind) : Keeps P (Parse.expect k) := by
  refine upcoming.bind fun next => ?_
  split
  · exact (advance hP).bind fun _ => current
  · exact refuse _ _

theorem start_read {operand : Power → Parse Expr} (ho : ∀ power, Keeps P (operand power))
    (rule : StartRule) : Keeps P (rule.read operand) := by
  cases rule with
  | identifier => exact current.bind fun _ => pure _
  | integer =>
      refine current.bind fun t => ?_
      cases integerValue? t.literal.toList with
      | none => exact refuse _ _
      | some value => exact pure _
  | unary => exact (advance hP).bind fun _ => (ho _).bind fun _ => pure _
  | grouping =>
      exact (advance hP).bind fun _ => (ho _).bind fun _ => (expect hP _).bind fun _ => pure _

theorem continue_read {operand : Power → Parse Expr} (ho : ∀ power, Keeps P (operand power))
    (left : Expr) (power : Power) (rule : ContinueRule) :
    Keeps P (rule.read operand left power) := by
  cases rule with
  | binary => exact (advance hP).bind fun _ => (ho _).bind fun _ => pure _

theorem continued (r : Rules) {operand : Power → Parse Expr}
    (ho : ∀ power, Keeps P (operand power)) (power : Power) (n : Nat) (left : Expr) :
    Keeps P (r.continued operand power n left) := by
  induction n generalizing left with
  | zero => exact endless
  | succ n ih =>
      refine upcoming.bind fun next => ?_
      split
      · cases r.continuing next.kind with
        | none => exact pure _
        | some rule =>
            exact (advance hP).bind fun _ => current.bind fun _ =>
              (continue_read hP ho _ _ _).bind fun _ => ih _
      · exact pure _

theorem expression (r : Rules) (depth : Nat) (power : Power) :
    Keeps P (r.expression depth power) := by
  induction depth generalizing power with
  | zero => exact endless
  | succ depth ih =>
      refine current.bind fun first => ?_
      cases r.starting first.kind with
      | none => exact refuse _ _
      | some rule => exact (start_read hP ih rule).bind fun _ => continued hP r ih _ _ _

theorem terminated (r : Rules) (depth : Nat) : Keeps P (r.terminated depth) := by
  refine (expression hP r depth _).bind fun _ => upcoming.bind fun next => ?_
  split
  · exact (advance hP).bind fun _ => pure _
  · exact pure _

theorem expressionStatement (r : Rules) (depth : Nat) : Keeps P (r.expressionStatement depth) :=
  current.bind fun _ => (terminated hP r depth).bind fun _ => current.bind fun _ => pure _

theorem boundValue (r : Rules) (values : Values) (depth : Nat) :
    Keeps P (r.boundValue values depth) := by
  cases values with
  | parsed => exact (advance hP).bind fun _ => (terminated hP r depth).bind fun _ => pure _
  | skipped => exact (skipToSemicolon hP).bind fun _ => pure _

theorem returnedValue (r : Rules) (values : Values) (depth : Nat) :
    Keeps P (r.returnedValue values depth) := by
  cases values with
  | parsed =>
      refine current.bind fun first => ?_
      split
      · exact pure _
      · exact (terminated hP r depth).bind fun _ => pure _
  | skipped => exact (skipToSemicolon hP).bind fun _ => pure _

theorem statementBy (r : Rules) (values : Values) (depth : Nat) (rule : StatementRule) :
    Keeps P (r.statementBy values depth rule) := by
  cases rule with
  | binding =>
      exact current.bind fun _ => (expect hP _).bind fun _ => (expect hP _).bind fun _ =>
        (boundValue hP r values depth).bind fun _ => current.bind fun _ => pure _
  | returning =>
      exact (advance hP).bind fun _ => (returnedValue hP r values depth).bind fun _ =>
        current.bind fun _ => pure _
  | expression => exact expressionStatement hP r depth

theorem readStatement (r : Rules) (values : Values) (depth : Nat) :
    Keeps P (r.readStatement values depth) := by
  refine current.bind fun first => ?_
  cases r.statement first.kind with
  | none => exact expressionStatement hP r depth
  | some rule => exact statementBy hP r values depth rule

end

variable (hP : Stable P)
include hP

theorem item (r : Rules) (values : Values) (depth : Nat) : Keeps P (r.item values depth) := by
  intro w h
  have hw := readStatement hP.advance r values depth w h
  unfold Rules.item
  cases hr : r.readStatement values depth w with
  | ok s w' => rw [hr] at hw; exact hP.record _ _ hw
  | error e w' =>
      rw [hr] at hw
      cases e with
      | diagnostic d => exact skipToSemicolon hP.advance _ (hP.record _ _ hw)
      | endless => exact hw

theorem items (r : Rules) (values : Values) (depth n : Nat) :
    Keeps P (r.items values depth n) := by
  induction n with
  | zero => exact endless
  | succ n ih =>
      refine current.bind fun first => ?_
      split
      · exact pure _
      · exact (item hP r values depth).bind fun _ => (advance hP.advance).bind fun _ =>
          ih.bind fun _ => pure _

end Keeps

namespace Parser

variable {P : Window → Prop}

theorem run_keeps {α : Type} {x : Parse α} (hx : Keeps P x) (p : Parser) (h : P p.window) :
    P (p.run x).2.window := by
  have hw := hx p.window h
  rw [run]
  cases hr : x p.window with
  | ok a w => rw [hr] at hw; exact hw
  | error e w => rw [hr] at hw; exact hw

theorem program_keeps (hP : Stable P) (p : Parser) (h : P p.window) : P p.program.2.window := by
  have hw := run_keeps (Keeps.items hP p.rules p.values p.budget p.budget) p h
  rw [program]
  split
  · next hr => rw [hr] at hw; exact hw
  · next hr => rw [hr] at hw; exact hw

/-- A stable property of the window survives every action. -/
theorem perform_keeps (hP : Stable P) (p : Parser) (a : Action) (h : P p.window) :
    P (p.perform a).2.window := by
  have ha := hP.advance
  cases a with
  | advance => exact run_keeps ((Keeps.advance ha).bind fun _ => Keeps.pure _) p h
  | expect k => exact run_keeps ((Keeps.expect ha k).bind fun _ => Keeps.pure _) p h
  | expression power =>
      exact run_keeps ((Keeps.expression ha _ _ _).bind fun _ => Keeps.pure _) p h
  | start rule =>
      exact run_keeps ((Keeps.start_read ha (Keeps.expression ha _ _) rule).bind fun _ =>
        Keeps.pure _) p h
  | «continue» rule left power =>
      exact run_keeps ((Keeps.continue_read ha (Keeps.expression ha _ _) left power rule).bind
        fun _ => Keeps.pure _) p h
  | statement => exact run_keeps ((Keeps.readStatement ha _ _ _).bind fun _ => Keeps.pure _) p h
  | statementBy rule =>
      exact run_keeps ((Keeps.statementBy ha _ _ _ rule).bind fun _ => Keeps.pure _) p h
  | skipToSemicolon => exact run_keeps ((Keeps.skipToSemicolon ha).bind fun _ => Keeps.pure _) p h
  | program => exact program_keeps hP p h
  | setStarting | setContinuing | setStatement => exact h

inductive Reachable (text : String) (name : Option String) (values : Values) : Parser → Prop
  | start : Reachable text name values (.ofText text name values)
  | perform {p : Parser} (a : Action) :
      Reachable text name values p → Reachable text name values (p.perform a).2

theorem Reachable.keeps {text : String} {name : Option String} {values : Values} {p : Parser}
    (hp : p.Reachable text name values) (hP : Stable P)
    (h : P (Window.ofLexer (.ofText text name))) : P p.window := by
  induction hp with
  | start => exact h
  | perform a _ ih => exact perform_keeps hP _ a ih

theorem Reachable.exists_at {text : String} {name : Option String} {values : Values} {p : Parser}
    (hp : p.Reachable text name values) : ∃ i, p.window.At text name i := by
  have hP : Stable fun w => ∃ i, w.At text name i := by
    constructor
    · rintro w ⟨i, h⟩
      exact ⟨i + 1, by simpa [Window.At] using h.advance⟩
    · rintro w r ⟨i, h⟩
      exact ⟨i, h.record r⟩
  exact hp.keeps hP ⟨0, Window.shows_ofLexer (yields_source text name)⟩

end Parser

end FrontEnd
