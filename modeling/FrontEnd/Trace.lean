import FrontEnd.Diagnostic
import FrontEnd.Tree

/-!
The log: what happened, in order, as values. A record is put into words only when it is shown, and
it is shown at its own level and at every more talkative one.
-/

namespace FrontEnd

/-- How talkative a log is, from silent to complete. -/
inductive Level
  | off | warn | info | debug | trace
deriving DecidableEq

namespace Level

def rank : Level → Nat
  | .off => 0
  | .warn => 1
  | .info => 2
  | .debug => 3
  | .trace => 4

def name : Level → String
  | .off => "OFF"
  | .warn => "WARN"
  | .info => "INFO"
  | .debug => "DEBUG"
  | .trace => "TRACE"

end Level

/-- What the prompt answers a line with: its tokens, or the program it is read as. -/
inductive Mode
  | tokens | program
deriving DecidableEq

def Mode.name : Mode → String
  | .tokens => "Tokens"
  | .program => "Ast"

inductive Record
  | lexed (token : Token)
  | parsed (statement : Stmt)
  | failed (diagnostic : Diagnostic)
  | started (mode : Mode)
deriving DecidableEq

namespace Record

def level : Record → Level
  | .lexed _ => .trace
  | .parsed _ | .failed _ => .debug
  | .started _ => .info

def message : Record → String
  | .lexed token => "lexed " ++ token.text
  | .parsed statement =>
      "parsed statement `" ++ statement.text ++ "` at offset " ++
        toString statement.span.start.offset.toNat
  | .failed diagnostic =>
      "parse error at offset " ++ toString diagnostic.position.offset.toNat ++ ": " ++
        diagnostic.cause.message
  | .started mode => "starting REPL in " ++ mode.name ++ " mode"

/-- A record as a line of the log. -/
def text (r : Record) : String :=
  r.level.name ++ " " ++ r.message

/-- The records that lexing a token leaves: the end of the text goes unrecorded. -/
def ofToken (t : Token) : List Record :=
  if t.kind = .eof then [] else [.lexed t]

def ofTokens (ts : List Token) : List Record :=
  ts.flatMap ofToken

end Record

/-- The lines of a log that are shown at a level. -/
def Level.shown (l : Level) (log : List Record) : List String :=
  (log.filter fun r => r.level.rank ≤ l.rank).map Record.text

end FrontEnd
