import FrontEnd.Numeral
import FrontEnd.Parse
import FrontEnd.Rules

/-!
Reading expressions by precedence. An operand is read by the starting rule of its first token;
then, as long as the upcoming token binds tighter than the power asked for, its continuing rule
takes what has been read so far as its left operand. The right operand of a binary operator is
read at the operator's own power, so operators of equal power associate to the left.

Every reader begins with the first token of its construct current and ends with the last one
current. The depth given to a reader bounds both how deep expressions nest and how often one is
continued; the number of tokens before the end, and one, is enough unless an expression can start
at the end.
-/

namespace FrontEnd

namespace Expression

open Parse

/-- An identifier can be made of any token: the rule tables decide where one is asked for. -/
def identifier : Parse Expr := do
  let token ← current
  return .identifier (.ofToken token)

def integer : Parse Expr := do
  let token ← current
  match integerValue? token.literal.toList with
  | some value => return .integer token value
  | none => refuse (.badInteger token.literal) token

def unary (operand : Power → Parse Expr) : Parse Expr := do
  let operator ← advance
  let right ← operand .unary
  return .unary operator right (operator.span.hull right.span)

def grouping (operand : Power → Parse Expr) : Parse Expr := do
  let _ ← advance
  let inner ← operand .lowest
  let _ ← expect .closeParen
  return inner

def binary (operand : Power → Parse Expr) (left : Expr) (power : Power) : Parse Expr := do
  let operator ← advance
  let right ← operand power
  return .binary left operator right (left.span.hull right.span)

end Expression

/-- Reads an operand by a rule; `operand` reads the expressions inside it. -/
def StartRule.read (operand : Power → Parse Expr) : StartRule → Parse Expr
  | .identifier => Expression.identifier
  | .integer => Expression.integer
  | .unary => Expression.unary operand
  | .grouping => Expression.grouping operand

/-- Continues `left` by a rule, for an operator of the given power. -/
def ContinueRule.read (operand : Power → Parse Expr) (left : Expr) (power : Power) :
    ContinueRule → Parse Expr
  | .binary => Expression.binary operand left power

namespace Rules

open Parse

/-- Continues `left` while the upcoming token binds tighter than `power`. A semicolon never does,
and a token without a continuing rule ends the expression whatever its power. -/
def continued (r : Rules) (operand : Power → Parse Expr) (power : Power) : Nat → Expr → Parse Expr
  | 0, _ => endless
  | n + 1, left => do
      let next ← upcoming
      if next.kind ≠ .semicolon ∧ power < r.power next.kind then
        match r.continuing next.kind with
        | none => return left
        | some rule =>
            let _ ← advance
            let operator ← current
            let longer ← rule.read operand left (r.power operator.kind)
            r.continued operand power n longer
      else
        return left

/-- The longest expression at the current token whose operators bind tighter than `power`. -/
def expression (r : Rules) : Nat → Power → Parse Expr
  | 0, _ => endless
  | depth + 1, power => do
      let first ← current
      match r.starting first.kind with
      | none => refuse (.noStart first.kind) first
      | some rule =>
          let left ← rule.read (r.expression depth)
          r.continued (r.expression depth) power (depth + 1) left

end Rules

end FrontEnd
