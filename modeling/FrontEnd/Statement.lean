import FrontEnd.Expression

/-!
Reading statements. A statement may end in a semicolon, which it then includes; its span runs from
its first token to its last. The values of bindings and returns are either read or skipped up to
the semicolon. Where no statement rule applies, a statement is an expression.
-/

namespace FrontEnd

/-- What becomes of the values of bindings and returns. -/
inductive Values
  | parsed | skipped
deriving DecidableEq

namespace Rules

open Parse

/-- An expression at the weakest power, and the semicolon after it if there is one. -/
def terminated (r : Rules) (depth : Nat) : Parse Expr := do
  let value ← r.expression depth .lowest
  let next ← upcoming
  if next.kind = .semicolon then
    let _ ← advance
    return value
  else
    return value

def expressionStatement (r : Rules) (depth : Nat) : Parse Stmt := do
  let first ← current
  let value ← r.terminated depth
  let last ← current
  return .expression first value (first.span.hull last.span)

/-- The value of a binding, from the assignment sign on. -/
def boundValue (r : Rules) (values : Values) (depth : Nat) : Parse (Option Expr) :=
  match values with
  | .parsed => do
      let _ ← advance
      let value ← r.terminated depth
      return some value
  | .skipped => do
      skipToSemicolon
      return none

def binding (r : Rules) (values : Values) (depth : Nat) : Parse Stmt := do
  let first ← current
  let name ← expect .identifier
  let _ ← expect .assignment
  let value ← r.boundValue values depth
  let last ← current
  return .binding first (.ofToken name) value (first.span.hull last.span)

/-- The value of a return, from its first token on. -/
def returnedValue (r : Rules) (values : Values) (depth : Nat) : Parse (Option Expr) :=
  match values with
  | .parsed => do
      let first ← current
      if first.kind = .semicolon then
        return none
      else
        let value ← r.terminated depth
        return some value
  | .skipped => do
      skipToSemicolon
      return none

def returning (r : Rules) (values : Values) (depth : Nat) : Parse Stmt := do
  let first ← advance
  let value ← r.returnedValue values depth
  let last ← current
  return .returning first value (first.span.hull last.span)

/-- Reads a statement by a rule, whatever its first token is. -/
def statementBy (r : Rules) (values : Values) (depth : Nat) : StatementRule → Parse Stmt
  | .binding => r.binding values depth
  | .returning => r.returning values depth
  | .expression => r.expressionStatement depth

/-- Reads a statement by the rule of its first token. -/
def readStatement (r : Rules) (values : Values) (depth : Nat) : Parse Stmt := do
  let first ← current
  match r.statement first.kind with
  | some rule => r.statementBy values depth rule
  | none => r.expressionStatement depth

end Rules

/-- What one stretch of a source comes to: a statement, or the diagnostic of a broken one. -/
inductive Item
  | statement (s : Stmt)
  | diagnostic (d : Diagnostic)
deriving DecidableEq

namespace Item

def statement? : Item → Option Stmt
  | .statement s => some s
  | .diagnostic _ => none

def diagnostic? : Item → Option Diagnostic
  | .statement _ => none
  | .diagnostic d => some d

end Item

namespace Rules

open Parse

/-- Reads a statement and records it. A broken one is recorded by its diagnostic and skipped up to
its semicolon. -/
def item (r : Rules) (values : Values) (depth : Nat) : Parse Item := fun w =>
  match r.readStatement values depth w with
  | .ok s w => .ok (.statement s) (w.record (.parsed s))
  | .error (.diagnostic d) w => .ok (.diagnostic d) (w.record (.failed d)).skipToSemicolon
  | .error .endless w => .error .endless w

/-- Reads items up to the end of the text. The depth bounds their number, too. -/
def items (r : Rules) (values : Values) (depth : Nat) : Nat → Parse (List Item)
  | 0 => endless
  | n + 1 => do
      let first ← current
      if first.kind = .eof then
        return []
      else
        let item ← r.item values depth
        let _ ← advance
        let rest ← r.items values depth n
        return item :: rest

end Rules

end FrontEnd
