import FrontEnd.Statement

/-!
Parsers as values: a window on a source, the rules in force, what is done with values, and the
diagnostics of the programs read so far. A parser changes by actions. Of these, only `program`
adds diagnostics; the others hand theirs back. The budget of an action is the size of the window,
so nothing but rules for the end of the text can make an action endless.
-/

namespace FrontEnd

structure Parser where
  window : Window
  rules : Rules
  values : Values
  /-- The diagnostics recorded so far, the earliest first. -/
  diagnostics : List Diagnostic

/-- One use of a parser. -/
inductive Action
  | advance
  | expect (kind : Kind)
  | expression (power : Power)
  | start (rule : StartRule)
  | continue (rule : ContinueRule) (left : Expr) (power : Power)
  | statement
  | statementBy (rule : StatementRule)
  | skipToSemicolon
  | program
  | setStarting (kind : Kind) (rule : StartRule)
  | setContinuing (kind : Kind) (power : Power) (rule : ContinueRule)
  | setStatement (kind : Kind) (rule : StatementRule)

/-- What an action returns. -/
inductive Answer
  | nothing
  | token (t : Token)
  | expression (e : Expr)
  | statement (s : Stmt)
  | program (p : Program)

namespace Parser

/-- A fresh parser at the start of a text, with the rules of the language. -/
def ofText (text : String) (name : Option String) (values : Values) : Parser :=
  ⟨.ofLexer (.ofText text name), .standard, values, []⟩

/-- All that was recorded so far, the earliest first. -/
def log (p : Parser) : List Record :=
  p.window.log.reverse

/-- How deep an action may read from here. -/
def budget (p : Parser) : Nat :=
  p.window.size + 1

/-- Runs a computation on the parser's window. -/
def run {α : Type} (p : Parser) (x : Parse α) : Except Stop α × Parser :=
  match x p.window with
  | .ok a w => (.ok a, { p with window := w })
  | .error e w => (.error e, { p with window := w })

/-- Reads statements up to the end of the text. The diagnostics of broken ones are recorded. -/
def program (p : Parser) : Except Stop Program × Parser :=
  match p.run (p.rules.items p.values p.budget p.budget) with
  | (.ok items, p) =>
      (.ok ⟨items.filterMap Item.statement?⟩,
        { p with diagnostics := p.diagnostics ++ items.filterMap Item.diagnostic? })
  | (.error e, p) => (.error e, p)

def perform (p : Parser) : Action → Except Stop Answer × Parser
  | .advance => p.run (Answer.token <$> Parse.advance)
  | .expect kind => p.run (Answer.token <$> Parse.expect kind)
  | .expression power => p.run (Answer.expression <$> p.rules.expression p.budget power)
  | .start rule => p.run (Answer.expression <$> rule.read (p.rules.expression p.budget))
  | .continue rule left power =>
      p.run (Answer.expression <$> rule.read (p.rules.expression p.budget) left power)
  | .statement => p.run (Answer.statement <$> p.rules.readStatement p.values p.budget)
  | .statementBy rule => p.run (Answer.statement <$> p.rules.statementBy p.values p.budget rule)
  | .skipToSemicolon => p.run ((fun _ => Answer.nothing) <$> Parse.skipToSemicolon)
  | .program =>
      let done := p.program
      (Answer.program <$> done.1, done.2)
  | .setStarting kind rule => (.ok .nothing, { p with rules := p.rules.setStarting kind rule })
  | .setContinuing kind power rule =>
      (.ok .nothing, { p with rules := p.rules.setContinuing kind power rule })
  | .setStatement kind rule => (.ok .nothing, { p with rules := p.rules.setStatement kind rule })

end Parser

/-- The program that a text is read as, and the parser that has read it. -/
def parse (text : String) (name : Option String) (values : Values) : Program × Parser :=
  match (Parser.ofText text name values).program with
  | (.ok program, p) => (program, p)
  | (.error _, p) => (⟨[]⟩, p)

end FrontEnd
