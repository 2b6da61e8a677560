import FrontEnd.Token

/-!
The tables that steer the parser. Expressions are read by precedence: a token that starts an
operand has a starting rule; a token that continues an expression to its left has a continuing
rule and a binding power. A token may have both, like the dash. Statements that open with a word
of their own have a statement rule.
-/

namespace FrontEnd

/-- Binding powers, the weakest first. -/
inductive Power
  | lowest | equals | lessGreater | sum | product | unary | call
deriving DecidableEq

namespace Power

def all : List Power :=
  [.lowest, .equals, .lessGreater, .sum, .product, .unary, .call]

def rank : Power → Nat
  | .lowest => 0
  | .equals => 1
  | .lessGreater => 2
  | .sum => 3
  | .product => 4
  | .unary => 5
  | .call => 6

instance : LT Power := ⟨fun a b => a.rank < b.rank⟩

instance : LE Power := ⟨fun a b => a.rank ≤ b.rank⟩

instance (a b : Power) : Decidable (a < b) := inferInstanceAs (Decidable (a.rank < b.rank))

instance (a b : Power) : Decidable (a ≤ b) := inferInstanceAs (Decidable (a.rank ≤ b.rank))

end Power

/-- How an operand is read from its first token on. -/
inductive StartRule
  | identifier | integer | unary | grouping
deriving DecidableEq

/-- How an expression is continued from an operator on. -/
inductive ContinueRule
  | binary
deriving DecidableEq

/-- How a statement is read from its first token on. -/
inductive StatementRule
  | binding | returning | expression
deriving DecidableEq

structure Rules where
  starting : Kind → Option StartRule
  continuing : Kind → Option ContinueRule
  power : Kind → Power
  statement : Kind → Option StatementRule

namespace Rules

/-- The rules of the language. -/
def standard : Rules where
  starting
    | .identifier => some .identifier
    | .integer => some .integer
    | .not | .dash => some .unary
    | .openParen => some .grouping
    | _ => none
  continuing
    | .equals | .notEquals | .less | .greater | .plus | .dash | .star | .slash => some .binary
    | _ => none
  power
    | .equals | .notEquals => .equals
    | .less | .greater => .lessGreater
    | .plus | .dash => .sum
    | .star | .slash => .product
    | _ => .lowest
  statement
    | .letWord => some .binding
    | .returnWord => some .returning
    | _ => none

/-- A starting rule leaves the kind's power alone. -/
def setStarting (r : Rules) (kind : Kind) (rule : StartRule) : Rules :=
  { r with starting := fun k => if k = kind then some rule else r.starting k }

def setContinuing (r : Rules) (kind : Kind) (power : Power) (rule : ContinueRule) : Rules :=
  { r with
    continuing := fun k => if k = kind then some rule else r.continuing k
    power := fun k => if k = kind then power else r.power k }

def setStatement (r : Rules) (kind : Kind) (rule : StatementRule) : Rules :=
  { r with statement := fun k => if k = kind then some rule else r.statement k }

end Rules

end FrontEnd
