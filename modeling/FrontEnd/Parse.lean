import FrontEnd.Window

/-!
Computations that read tokens through a window. They touch it in three ways only: they look at the
current token, they look at the upcoming one, and they advance. A computation that stops leaves
the window where it stopped, so that reading can go on from there.
-/

namespace FrontEnd

/-- Why a computation stopped without a result. -/
inductive Stop
  | diagnostic (d : Diagnostic)
  /-- The budget ran out: only rules that start an expression at the end of the text bring this
  about. -/
  | endless
deriving DecidableEq

abbrev Parse := EStateM Stop Window

namespace Parse

def current : Parse Token := fun w => .ok w.current w

def upcoming : Parse Token := fun w => .ok w.upcoming w

/-- Shifts the window and returns the token that was current. -/
def advance : Parse Token := fun w => .ok w.current w.advance

/-- Reports a cause at the start of a token. -/
def refuse {α : Type} (cause : Cause) (t : Token) : Parse α :=
  throw (.diagnostic ⟨cause, t.span.start⟩)

def endless {α : Type} : Parse α :=
  throw .endless

/-- Advances to the upcoming token if it is of the given kind, and returns it. -/
def expect (kind : Kind) : Parse Token := do
  let next ← upcoming
  if next.kind = kind then
    let _ ← advance
    current
  else
    refuse (.expectedToken kind next.kind) next

def skipToSemicolon : Parse Unit := fun w => .ok () w.skipToSemicolon

end Parse

end FrontEnd
