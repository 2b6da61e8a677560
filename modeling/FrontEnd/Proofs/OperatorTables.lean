import FrontEnd.Proofs.ReadingOrder
import FrontEnd.Proofs.Termination

/-!
Trees and tables of powers. Whatever powers a table gives to whatever kinds of tokens, an operator
of a tree that was read without groups has operands that bind as it asks: the one on the right
tighter than the operator itself, the one on the left at least as tight. What carries the proof is
that the token behind a right operand does not bind tighter than the operator in front of it.
-/

namespace FrontEnd

def Expr.rootPower? (r : Rules) : Expr → Option Power
  | .binary _ operator _ _ => some (r.power operator.kind)
  | .identifier _ | .integer _ _ | .unary _ _ _ => none

def Expr.Respects (r : Rules) : Expr → Prop
  | .identifier _ | .integer _ _ => True
  | .unary _ right _ => ∀ root ∈ right.rootPower? r, .unary < root
  | .binary left operator right _ =>
      (∀ root ∈ left.rootPower? r, r.power operator.kind ≤ root) ∧
        ∀ root ∈ right.rootPower? r, r.power operator.kind < root

/-- The nodes respect the table, and what the tree is made of binds tighter than the power. -/
structure Expr.Binds (r : Rules) (power : Power) (x : Expr) : Prop where
  parts : ∀ y ∈ x.parts, y.Respects r
  root : ∀ root ∈ x.rootPower? r, power < root

/-- A token of the kind can take the tree for its left operand, if it goes on at all. -/
def Expr.Awaits (r : Rules) (power : Power) (k : Kind) (x : Expr) : Prop :=
  r.Continues power k → ∀ root ∈ x.rootPower? r, r.power k ≤ root

def Action.KeepsStarting : Action → Prop
  | .setStarting .. => False
  | _ => True

namespace Expr

variable {r : Rules} {power : Power} {k : Kind} {x y : Expr} {o : Token} {s : Span}

theorem binds_identifier (id : Identifier) : (identifier id).Binds r power :=
  ⟨List.forall_mem_singleton.mpr trivial, nofun⟩

theorem binds_integer (t : Token) (value : Int) : (integer t value).Binds r power :=
  ⟨List.forall_mem_singleton.mpr trivial, nofun⟩

theorem Binds.unary (h : x.Binds r .unary) : (Expr.unary o x s).Binds r power :=
  ⟨List.forall_mem_cons.mpr ⟨h.root, h.parts⟩, nofun⟩

theorem Binds.binary (hx : x.Binds r power) (hp : power < r.power o.kind)
    (hl : ∀ root ∈ x.rootPower? r, r.power o.kind ≤ root) (hy : y.Binds r (r.power o.kind)) :
    (Expr.binary x o y s).Binds r power := by
  refine ⟨List.forall_mem_cons.mpr ⟨⟨hl, hy.root⟩, ?_⟩, ?_⟩
  · exact List.forall_mem_append.mpr ⟨hx.parts, hy.parts⟩
  · intro root hroot
    cases hroot
    exact hp

theorem awaits_of_none (h : x.rootPower? r = none) : x.Awaits r power k := by
  intro _ root hroot
  rw [h] at hroot
  cases hroot

/-- What ends the right operand of an operator can take the operator for its left operand. -/
theorem awaits_binary (h : ¬ r.Continues (r.power o.kind) k) :
    (Expr.binary x o y s).Awaits r power k := by
  intro hk root hroot
  cases hroot
  exact Nat.le_of_not_lt fun hlt => h ⟨hk.1, hlt, hk.2.2⟩

end Expr

theorem Rules.not_continues_iff {r : Rules} {power : Power} {k : Kind} :
    ¬ r.Continues power k ↔ k = .semicolon ∨ r.power k ≤ power ∨ r.continuing k = none := by
  have hc : ¬ r.continuing k = some .binary ↔ r.continuing k = none := by
    rcases r.continuing k with _ | ⟨_⟩ <;> simp
  have hp : ¬ power < r.power k ↔ r.power k ≤ power := Nat.not_lt
  rw [Continues, not_and_or, not_and_or, not_not, hp, hc]

/-- Without groups, what is read binds as tight as it was asked to, and so does what it is made of.
It ends where the next token does not continue it. -/
theorem Reads.binds {r : Rules} {ending : Token} {task : Option Expr} {power : Power}
    {ts us : List Token} {x : Expr} (h : Reads r ending task power ts (.ok x) us)
    (hg : ∀ t ∈ ts, r.starting t.kind ≠ some .grouping)
    (hl : ∀ left ∈ task, left.Binds r power ∧ left.Awaits r power (front ending ts.tail).kind) :
    x.Binds r power ∧ ¬ r.Continues power (front ending us.tail).kind := by
  generalize ho : (Except.ok x : Except Diagnostic Expr) = o at h
  -- On the reading: an operand that is handed on is read, and awaits the token behind it.
  induction h generalizing x with
  | noStart | badInteger | unaryFails | groupOpen | groupFails | binaryFails => cases ho
  | identifier _ _ ih =>
      refine ih hg ?_ ho
      rintro left ⟨⟩
      exact ⟨Expr.binds_identifier _, Expr.awaits_of_none rfl⟩
  | integer _ _ _ ih =>
      refine ih hg ?_ ho
      rintro left ⟨⟩
      exact ⟨Expr.binds_integer _ _, Expr.awaits_of_none rfl⟩
  | unary _ hx _ ih ihc =>
      have hgt := (List.forall_mem_cons.mp hg).2
      obtain ⟨hbinds, -⟩ := ih hgt nofun rfl
      refine ihc (fun t ht => hgt t (hx.suffix.subset ht)) ?_ ho
      rintro left ⟨⟩
      exact ⟨hbinds.unary, Expr.awaits_of_none rfl⟩
  | group hs => exact absurd hs (hg _ (List.mem_cons_self ..))
  | finish hn =>
      cases ho
      exact ⟨(hl _ rfl).1, hn⟩
  | binary hb hx _ ih ihc =>
      have hgt := fun t ht => (List.forall_mem_cons.mp hg).2 t (List.mem_of_mem_tail ht)
      obtain ⟨hleft, hawaits⟩ := hl _ rfl
      obtain ⟨hright, hend⟩ := ih hgt nofun rfl
      refine ihc (fun t ht => hgt t (hx.suffix.subset ht)) ?_ ho
      rintro left ⟨⟩
      exact ⟨hleft.binary hb.2.1 (hawaits hb) hright, Expr.awaits_binary hend⟩

theorem Action.KeepsStarting.isProper {a : Action} (h : a.KeepsStarting) : a.IsProper := by
  cases a with
  | setStarting => cases h
  | _ => trivial

namespace Parser

theorem starting_perform (p : Parser) {a : Action} (ha : a.KeepsStarting) :
    (p.perform a).2.rules.starting = p.rules.starting := by
  cases a with
  | setStarting => cases ha
  | setContinuing | setStatement => rfl
  | _ => rw [(p.perform_frame _).rules id]

theorem starting_history {text : String} {name : Option String} {values : Values}
    {actions : List Action} (ha : ∀ a ∈ actions, a.KeepsStarting) :
    ∀ p ∈ (ofText text name values).history actions,
      p.rules.starting = Rules.standard.starting :=
  forall_mem_history rfl fun a hm p hs => (p.starting_perform (ha a hm)).trans hs

theorem exists_perform_of_run (p : Parser) {power : Power} {x : Expr}
    (h : (p.run (p.rules.expression p.budget power)).1.toOption = some x) :
    ∃ q, p.perform (.expression power) = (.ok (.expression x), q) := by
  change ∃ q, p.run (EStateM.map Answer.expression _) = (.ok (.expression x), q)
  rw [run] at h ⊢
  unfold EStateM.map
  generalize p.rules.expression p.budget power p.window = result at h ⊢
  cases result with
  | ok _ w =>
      cases h
      exact ⟨_, rfl⟩
  | error => cases h

/-- Whatever operators are registered, and at whatever powers, the expressions of a text without
parentheses respect the table. An expression binds tighter than it was asked to, and it ends only
where a semicolon, a token that binds no tighter or one without a rule comes next. -/
theorem history_respects (text : String) (name : Option String) (values : Values)
    {actions : List Action} (ha : ∀ a ∈ actions, a.KeepsStarting)
    (hg : ∀ t ∈ tokenize text name, t.kind ≠ .openParen) :
    ∀ p ∈ (ofText text name values).history actions, ∀ power x q,
      p.perform (.expression power) = (.ok (.expression x), q) →
        (∀ y ∈ x.parts, y.Respects p.rules) ∧ (∀ root ∈ x.rootPower? p.rules, power < root) ∧
          (q.window.upcoming.kind = .semicolon ∨ p.rules.power q.window.upcoming.kind ≤ power ∨
            p.rules.continuing q.window.upcoming.kind = none) := by
  intro p hp power x q hq
  obtain ⟨hr, i, hi⟩ := Settled.history (fun a hm => (ha a hm).isProper) p hp
  obtain ⟨us, hx, hu⟩ := reads_of_perform hr hi.toAt hq
  have hgroup : ∀ t ∈ (sourceTokens text name).drop i, p.rules.starting t.kind ≠ some .grouping := by
    intro t ht hs
    rw [starting_history ha p hp, Rules.standard_starting_grouping] at hs
    have hm : t ∈ tokenize text name := by
      rw [tokenize_eq]
      exact List.mem_append_left _ (List.mem_of_mem_drop ht)
    exact hg t hm hs
  obtain ⟨hbinds, hend⟩ := hx.binds hgroup nofun
  refine ⟨hbinds.parts, hbinds.root, ?_⟩
  rw [hu.upcoming]
  exact Rules.not_continues_iff.mp hend

/-- A product that is weaker than a sum is read as such. -/
theorem history_respects_weak_product :
    let p := ((ofText "a+b*c" none .parsed).perform (.setContinuing .star .equals .binary)).2
    (∀ a ∈ [Action.setContinuing .star .equals .binary], a.KeepsStarting) ∧
      (∀ t ∈ tokenize "a+b*c" none, t.kind ≠ .openParen) ∧
      ∃ x q, p.perform (.expression .lowest) = (.ok (.expression x), q) ∧
        x.text = "((a + b) * c)" ∧ ∀ y ∈ x.parts, y.Respects p.rules := by
  intro p
  have ha : ∀ a ∈ [Action.setContinuing .star .equals .binary], a.KeepsStarting :=
    List.forall_mem_singleton.mpr trivial
  have hg : ∀ t ∈ tokenize "a+b*c" none, t.kind ≠ .openParen := by decide +kernel
  have ht : (p.run (p.rules.expression p.budget .lowest)).1.toOption.map Expr.text =
      some "((a + b) * c)" := by decide +kernel
  obtain ⟨x, hx, ht⟩ := Option.map_eq_some_iff.mp ht
  obtain ⟨q, hq⟩ := p.exists_perform_of_run hx
  have hp : p ∈ (ofText "a+b*c" none .parsed).history [.setContinuing .star .equals .binary] :=
    List.mem_cons_of_mem _ (List.mem_cons_self ..)
  exact ⟨ha, hg, x, q, hq, ht, (history_respects "a+b*c" none .parsed ha hg p hp _ x q hq).1⟩

end Parser

end FrontEnd
