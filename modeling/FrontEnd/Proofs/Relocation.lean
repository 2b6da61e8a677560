import FrontEnd.Proofs.Adequacy

/-!
Reading does not look at positions. Whatever is done to the positions of the tokens, the same rules
apply, and the same is done to every position of the trees and diagnostics that come out. Two lists
of tokens that differ in their positions alone are therefore read as trees that differ in their
positions alone.
-/

namespace FrontEnd

def Span.relocate (f : Position → Position) (s : Span) : Span :=
  ⟨f s.start, f s.stop⟩

def Token.relocate (f : Position → Position) (t : Token) : Token :=
  { t with span := t.span.relocate f }

def Identifier.relocate (f : Position → Position) (id : Identifier) : Identifier :=
  { id with token := id.token.relocate f }

def Expr.relocate (f : Position → Position) : Expr → Expr
  | .identifier id => .identifier (id.relocate f)
  | .integer token value => .integer (token.relocate f) value
  | .unary operator right span =>
      .unary (operator.relocate f) (right.relocate f) (span.relocate f)
  | .binary left operator right span =>
      .binary (left.relocate f) (operator.relocate f) (right.relocate f) (span.relocate f)

def Stmt.relocate (f : Position → Position) : Stmt → Stmt
  | .binding token name value span =>
      .binding (token.relocate f) (name.relocate f) (value.map (Expr.relocate f)) (span.relocate f)
  | .returning token value span =>
      .returning (token.relocate f) (value.map (Expr.relocate f)) (span.relocate f)
  | .expression token x span => .expression (token.relocate f) (x.relocate f) (span.relocate f)

def Diagnostic.relocate (f : Position → Position) (d : Diagnostic) : Diagnostic :=
  { d with position := f d.position }

def Item.relocate (f : Position → Position) : Item → Item
  | .statement s => .statement (s.relocate f)
  | .diagnostic d => .diagnostic (d.relocate f)

def relocateOutcome {α : Type} (f : Position → Position) (g : α → α) :
    Except Diagnostic α → Except Diagnostic α
  | .ok a => .ok (g a)
  | .error d => .error (d.relocate f)

section

variable (f : Position → Position)

@[simp] theorem relocateOutcome_ok {α : Type} (g : α → α) (a : α) :
    relocateOutcome f g (.ok a) = .ok (g a) := rfl

@[simp] theorem relocateOutcome_error {α : Type} (g : α → α) (d : Diagnostic) :
    relocateOutcome f g (.error d) = .error (d.relocate f) := rfl

@[simp] theorem Token.relocate_kind (t : Token) : (t.relocate f).kind = t.kind := rfl

@[simp] theorem Token.relocate_literal (t : Token) : (t.relocate f).literal = t.literal := rfl

@[simp] theorem Token.relocate_span (t : Token) : (t.relocate f).span = t.span.relocate f := rfl

@[simp] theorem Span.relocate_start (s : Span) : (s.relocate f).start = f s.start := rfl

theorem Span.relocate_hull (s u : Span) :
    (s.hull u).relocate f = (s.relocate f).hull (u.relocate f) := rfl

@[simp] theorem Identifier.relocate_ofToken (t : Token) :
    (Identifier.ofToken t).relocate f = .ofToken (t.relocate f) := rfl

@[simp] theorem Expr.relocate_span (x : Expr) : (x.relocate f).span = x.span.relocate f := by
  cases x <;> rfl

theorem Expr.relocate_relocate (g : Position → Position) (x : Expr) :
    (x.relocate f).relocate g = x.relocate (g ∘ f) := by
  induction x with
  | identifier id => rfl
  | integer token value => rfl
  | unary operator right span ih => simp only [relocate, ih]; rfl
  | binary left operator right span ihl ihr => simp only [relocate, ihl, ihr]; rfl

theorem Stmt.relocate_relocate (g : Position → Position) (s : Stmt) :
    (s.relocate f).relocate g = s.relocate (g ∘ f) := by
  have hx : Expr.relocate g ∘ Expr.relocate f = Expr.relocate (g ∘ f) :=
    funext (Expr.relocate_relocate f g)
  cases s with
  | binding token name value span => simp only [relocate, Option.map_map, hx]; rfl
  | returning token value span => simp only [relocate, Option.map_map, hx]; rfl
  | expression token x span => simp only [relocate, x.relocate_relocate f g]; rfl

theorem Expr.relocate_id (x : Expr) : x.relocate id = x := by
  induction x with
  | identifier | integer => rfl
  | unary operator right span ih => rw [relocate, ih]; rfl
  | binary left operator right span ihl ihr => rw [relocate, ihl, ihr]; rfl

theorem Stmt.relocate_id (s : Stmt) : s.relocate id = s := by
  have hx : Expr.relocate id = id := funext Expr.relocate_id
  cases s with
  | binding token name value span | returning token value span =>
      rw [relocate, hx, Option.map_id]
      rfl
  | expression token x span =>
      rw [relocate, x.relocate_id]
      rfl

@[simp] theorem front_relocate (ending : Token) (ts : List Token) :
    front (ending.relocate f) (ts.map (Token.relocate f)) = (front ending ts).relocate f := by
  cases ts <;> rfl

theorem pastSemicolon_relocate (ts : List Token) :
    pastSemicolon (ts.map (Token.relocate f)) = (pastSemicolon ts).map (Token.relocate f) := by
  match ts with
  | [] | [_] => rfl
  | t :: s :: ts =>
      by_cases hs : s.kind = .semicolon <;> simp [pastSemicolon, hs]

theorem fromSemicolon_relocate (ts : List Token) :
    fromSemicolon (ts.map (Token.relocate f)) = (fromSemicolon ts).map (Token.relocate f) :=
  List.dropWhile_map ..

theorem filterMap_statement?_relocate (items : List Item) :
    (items.map (Item.relocate f)).filterMap Item.statement? =
      (items.filterMap Item.statement?).map (Stmt.relocate f) := by
  rw [List.filterMap_map, List.map_filterMap]
  congr 1
  funext item
  cases item <;> rfl

theorem filterMap_diagnostic?_relocate (items : List Item) :
    (items.map (Item.relocate f)).filterMap Item.diagnostic? =
      (items.filterMap Item.diagnostic?).map (Diagnostic.relocate f) := by
  rw [List.filterMap_map, List.map_filterMap]
  congr 1
  funext item
  cases item <;> rfl

end

variable {r : Rules} {ending : Token} {values : Values} {ts us : List Token}

theorem Reads.relocate {task : Option Expr} {power : Power} {o : Except Diagnostic Expr}
    (f : Position → Position) (h : Reads r ending task power ts o us) :
    Reads r (ending.relocate f) (task.map (Expr.relocate f)) power (ts.map (Token.relocate f))
      (relocateOutcome f (Expr.relocate f) o) (us.map (Token.relocate f)) := by
  induction h with
  | @noStart power ts hs =>
      change Reads r _ none power _ (.error ⟨.noStart ((front ending ts).relocate f).kind,
        ((front ending ts).relocate f).span.start⟩) _
      rw [← front_relocate]
      exact .noStart (by simpa using hs)
  | identifier hs _ ihc => exact .identifier hs ihc
  | integer hs hv _ ihc => exact .integer hs hv ihc
  | badInteger hs hv => exact .badInteger hs hv
  | unary hs _ _ ih ihc =>
      refine .unary hs ih ?_
      simpa [Expr.relocate, Span.relocate_hull] using ihc
  | unaryFails hs _ ih => exact .unaryFails hs ih
  | group hs _ hk _ ih ihc => exact .group hs ih hk ihc
  | @groupOpen power t x ts us hs _ hk ih =>
      change Reads r _ none power _ (.error ⟨.expectedToken .closeParen
        ((front ending us.tail).relocate f).kind, ((front ending us.tail).relocate f).span.start⟩) _
      rw [← front_relocate, List.map_tail]
      exact .groupOpen hs ih (by simpa [← List.map_tail] using hk)
  | groupFails hs _ ih => exact .groupFails hs ih
  | finish hn => exact .finish (by simpa using hn)
  | binary hb _ _ ih ihc =>
      refine .binary (by simpa using hb) (by simpa [← List.map_tail] using ih) ?_
      simpa [Expr.relocate, Span.relocate_hull] using ihc
  | binaryFails hb _ ih =>
      exact .binaryFails (by simpa using hb) (by simpa [← List.map_tail] using ih)

theorem ReadsBy.relocate {rule : StatementRule} {o : Except Diagnostic Stmt}
    (f : Position → Position) (h : ReadsBy r ending values rule ts o us) :
    ReadsBy r (ending.relocate f) values rule (ts.map (Token.relocate f))
      (relocateOutcome f (Stmt.relocate f) o) (us.map (Token.relocate f)) := by
  cases h with
  | expression h =>
      simp only [relocateOutcome_ok, Stmt.relocate, Span.relocate_hull, ← Token.relocate_span,
        ← front_relocate, ← pastSemicolon_relocate]
      exact .expression (h.relocate f)
  | expressionFails h => exact .expressionFails (h.relocate f)
  | unnamed hn =>
      change ReadsBy r _ values .binding _ (.error ⟨.expectedToken .identifier
        ((front ending ts.tail).relocate f).kind, ((front ending ts.tail).relocate f).span.start⟩) _
      rw [← front_relocate, List.map_tail]
      exact .unnamed (by simpa [← List.map_tail] using hn)
  | @unassigned _ t n ts hn ha =>
      change ReadsBy r _ values .binding (t.relocate f :: n.relocate f :: ts.map _)
        (.error ⟨.expectedToken .assignment ((front ending ts).relocate f).kind,
          ((front ending ts).relocate f).span.start⟩) _
      rw [← front_relocate]
      exact .unassigned hn (by simpa using ha)
  | binding hn ha h =>
      simp only [relocateOutcome_ok, Stmt.relocate, Span.relocate_hull, ← Token.relocate_span,
        ← front_relocate, ← pastSemicolon_relocate]
      exact .binding hn ha (h.relocate f)
  | bindingFails hn ha h => exact .bindingFails hn ha (h.relocate f)
  | bindingSkipped hn ha =>
      simp only [relocateOutcome_ok, Stmt.relocate, Span.relocate_hull, ← Token.relocate_span,
        ← front_relocate, ← fromSemicolon_relocate]
      exact .bindingSkipped hn ha
  | bare hs =>
      simp only [relocateOutcome_ok, Stmt.relocate, Span.relocate_hull, ← Token.relocate_span,
        ← front_relocate, List.map_tail]
      exact .bare (by simpa [← List.map_tail] using hs)
  | returning hs h =>
      simp only [relocateOutcome_ok, Stmt.relocate, Span.relocate_hull, ← Token.relocate_span,
        ← front_relocate, ← pastSemicolon_relocate]
      refine .returning (by simpa [← List.map_tail] using hs) ?_
      rw [← List.map_tail]
      exact h.relocate f
  | returningFails hs h =>
      refine .returningFails (by simpa [← List.map_tail] using hs) ?_
      rw [← List.map_tail]
      exact h.relocate f
  | returningSkipped =>
      simp only [relocateOutcome_ok, Stmt.relocate, Span.relocate_hull, ← Token.relocate_span,
        ← front_relocate, ← fromSemicolon_relocate, List.map_tail]
      exact .returningSkipped

theorem ReadsStatement.relocate {o : Except Diagnostic Stmt} (f : Position → Position)
    (h : ReadsStatement r ending values ts o us) :
    ReadsStatement r (ending.relocate f) values (ts.map (Token.relocate f))
      (relocateOutcome f (Stmt.relocate f) o) (us.map (Token.relocate f)) := by
  rw [ReadsStatement, front_relocate]
  exact ReadsBy.relocate f h

theorem ReadsItems.relocate {items : List Item} (f : Position → Position)
    (h : ReadsItems r ending values ts items) :
    ReadsItems r (ending.relocate f) values (ts.map (Token.relocate f))
      (items.map (Item.relocate f)) := by
  induction h with
  | done => exact .done
  | statement hs _ ih =>
      refine .statement (hs.relocate f) ?_
      rw [← List.map_tail]
      exact ih
  | diagnostic hs _ ih =>
      refine .diagnostic (hs.relocate f) ?_
      rw [fromSemicolon_relocate, ← List.map_tail]
      exact ih

end FrontEnd
