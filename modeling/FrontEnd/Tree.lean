import FrontEnd.Token

/-!
Syntax trees and their canonical text. Grouping parentheses leave no node: the canonical text puts
a pair around every operator instead, so that the shape of the tree can be read off it.
-/

namespace FrontEnd

/-- A name as it is used or bound, with the token it was read from. -/
structure Identifier where
  token : Token
  value : String
deriving DecidableEq

/-- The identifier that a token spells, whatever kind the token is of. -/
def Identifier.ofToken (t : Token) : Identifier :=
  ⟨t, t.literal⟩

inductive Expr
  | identifier (id : Identifier)
  | integer (token : Token) (value : Int)
  | unary (operator : Token) (right : Expr) (span : Span)
  | binary (left : Expr) (operator : Token) (right : Expr) (span : Span)
deriving DecidableEq

namespace Expr

/-- The token that stands for a node: an operand's own, or the operator. -/
def token : Expr → Token
  | .identifier id => id.token
  | .integer token _ => token
  | .unary operator _ _ | .binary _ operator _ _ => operator

def span : Expr → Span
  | .identifier id => id.token.span
  | .integer token _ => token.span
  | .unary _ _ span | .binary _ _ _ span => span

def text : Expr → String
  | .identifier id => id.value
  | .integer token _ => token.literal
  | .unary operator right _ => "(" ++ operator.literal ++ right.text ++ ")"
  | .binary left operator right _ =>
      "(" ++ left.text ++ " " ++ operator.literal ++ " " ++ right.text ++ ")"

end Expr

/-- Statements. The token is the first one that the statement was read from. A binding or a return
has no value when values are skipped, and a return also when it is written without one. -/
inductive Stmt
  | binding (token : Token) (name : Identifier) (value : Option Expr) (span : Span)
  | returning (token : Token) (value : Option Expr) (span : Span)
  | expression (token : Token) (expression : Expr) (span : Span)
deriving DecidableEq

namespace Stmt

def token : Stmt → Token
  | .binding token _ _ _ | .returning token _ _ | .expression token _ _ => token

def span : Stmt → Span
  | .binding _ _ _ span | .returning _ _ span | .expression _ _ span => span

def text : Stmt → String
  | .binding token name value _ =>
      token.literal ++ " " ++ name.value ++ " = " ++ (value.map Expr.text).getD "" ++ ";"
  | .returning token value _ => token.literal ++ " " ++ (value.map Expr.text).getD "" ++ ";"
  | .expression _ e _ => e.text

end Stmt

/-- The statements of a source, in source order. -/
structure Program where
  statements : List Stmt
deriving DecidableEq

namespace Program

/-- The texts of the statements with nothing between them. -/
def text (p : Program) : String :=
  String.join (p.statements.map Stmt.text)

/-- The literal of the first token, empty for a program without statements. -/
def literal (p : Program) : String :=
  (p.statements.head?.map (·.token.literal)).getD ""

end Program

end FrontEnd
