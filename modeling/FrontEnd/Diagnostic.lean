import FrontEnd.Token

/-!
What can be wrong with a source: a cause, and the position it is reported at. Each cause has a
name, a message, and perhaps a tip that says what to do about it.
-/

namespace FrontEnd

inductive Cause
  /-- The token after the current one had to be of another kind. -/
  | expectedToken (expected got : Kind)
  /-- No expression starts with a token of this kind. -/
  | noStart (kind : Kind)
  /-- The literal has no value as an integer. -/
  | badInteger (literal : String)
deriving DecidableEq

namespace Cause

def name : Cause → String
  | .expectedToken _ _ => "ExpectedToken"
  | .noStart _ => "NoPrefixParseFn"
  | .badInteger _ => "IntegerParseError"

def message : Cause → String
  | .expectedToken expected got =>
      "expected next token to be " ++ expected.name ++ ", got " ++ got.name ++ " instead"
  | .noStart kind => "no prefix parse function for " ++ kind.name ++ " found"
  | .badInteger literal => "could not parse " ++ Text.quoted literal ++ " as integer"

/-- A literal with a zero in front of another character is taken for an octal one that has a digit
too large for it. -/
def tip? : Cause → Option String
  | .expectedToken _ _ => none
  | .noStart .illegal => some "this character is not part of the language"
  | .noStart .eof => some "the input ended in the middle of an expression"
  | .noStart _ => some "an expression cannot start with this token"
  | .badInteger literal =>
      match literal.toList with
      | '0' :: _ :: _ =>
          some "a leading 0 makes the literal octal, which only allows the digits 0 to 7"
      | _ => some "integers must fit in a signed 64-bit value"

end Cause

structure Diagnostic where
  cause : Cause
  position : Position
deriving DecidableEq

end FrontEnd
