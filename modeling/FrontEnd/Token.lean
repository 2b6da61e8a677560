import FrontEnd.Source
import FrontEnd.Text.Quoted

/-!
Tokens and their kinds. The order of the kinds is part of the interface: `Kind.index` numbers
them.
-/

namespace FrontEnd

inductive Kind
  | illegal | eof | identifier | integer
  | assignment | plus | dash | not | star | slash | less | greater | equals | notEquals
  | comma | semicolon | openParen | closeParen | openCurly | closeCurly
  | fnWord | letWord | trueWord | falseWord | ifWord | elseWord | returnWord
deriving DecidableEq

namespace Kind

/-- Every kind, in index order. -/
def all : List Kind :=
  [.illegal, .eof, .identifier, .integer,
   .assignment, .plus, .dash, .not, .star, .slash, .less, .greater, .equals, .notEquals,
   .comma, .semicolon, .openParen, .closeParen, .openCurly, .closeCurly,
   .fnWord, .letWord, .trueWord, .falseWord, .ifWord, .elseWord, .returnWord]

def index (k : Kind) : Nat :=
  all.idxOf k

/-- The name under which messages and listings mention a kind. -/
def name : Kind → String
  | .illegal => "Illegal"
  | .eof => "EOF"
  | .identifier => "Identifier"
  | .integer => "Integer"
  | .assignment => "Assignment"
  | .plus => "Plus"
  | .dash => "Dash"
  | .not => "Not"
  | .star => "Star"
  | .slash => "Slash"
  | .less => "Less"
  | .greater => "Greater"
  | .equals => "Equals"
  | .notEquals => "NotEquals"
  | .comma => "Comma"
  | .semicolon => "Semicolon"
  | .openParen => "OpenParen"
  | .closeParen => "CloseParen"
  | .openCurly => "OpenCurly"
  | .closeCurly => "CloseCurly"
  | .fnWord => "Fn"
  | .letWord => "Let"
  | .trueWord => "True"
  | .falseWord => "False"
  | .ifWord => "If"
  | .elseWord => "Else"
  | .returnWord => "Return"

/-- The reserved words, in alphabetical order. -/
def reserved : List (String × Kind) :=
  [("else", .elseWord), ("false", .falseWord), ("fn", .fnWord), ("if", .ifWord),
   ("let", .letWord), ("return", .returnWord), ("true", .trueWord)]

/-- The kind of a word: a reserved word's own, and `identifier` for every other. -/
def ofWord (word : String) : Kind :=
  (reserved.lookup word).getD .identifier

/-- The kind of an operator or delimiter that is spelled with one character. -/
def ofSymbol? : Char → Option Kind
  | '=' => some .assignment
  | '!' => some .not
  | '+' => some .plus
  | '-' => some .dash
  | '*' => some .star
  | '/' => some .slash
  | '<' => some .less
  | '>' => some .greater
  | ';' => some .semicolon
  | ',' => some .comma
  | '(' => some .openParen
  | ')' => some .closeParen
  | '\x7b' => some .openCurly
  | '\x7d' => some .closeCurly
  | _ => none

end Kind

/-- A piece of a source with its kind. The literal is the exact text of the piece. -/
structure Token where
  kind : Kind
  literal : String
  span : Span
deriving DecidableEq

/-- How a token is listed. -/
def Token.text (t : Token) : String :=
  "Token \x7b kind: " ++ t.kind.name ++ ", literal: " ++ Text.quoted t.literal ++ " \x7d"

end FrontEnd
