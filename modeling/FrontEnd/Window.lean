import FrontEnd.Lexer
import FrontEnd.Trace

/-!
The parser's view of a source: the current token, the upcoming one, and the lexer that stands at
the end of the upcoming one. Advancing shifts the view by one token and lexes one more; at the end
of the text the view fills up with `eof`. Each advance from a token that is not `eof` lowers the
window's size, which bounds the number of tokens before the end.
-/

namespace FrontEnd

structure Window where
  current : Token
  upcoming : Token
  lexer : Lexer
  /-- What has been recorded so far, the latest first. -/
  log : List Record

namespace Window

/-- The first two tokens from a place on. -/
def ofLexer (l : Lexer) : Window :=
  let first := l.next
  let second := first.2.next
  ⟨first.1, second.1, second.2, Record.ofToken second.1 ++ Record.ofToken first.1⟩

def advance (w : Window) : Window :=
  let next := w.lexer.next
  ⟨w.upcoming, next.1, next.2, Record.ofToken next.1 ++ w.log⟩

def record (w : Window) (r : Record) : Window :=
  { w with log := r :: w.log }

/-- One for a token before the end of the text. -/
def weight (t : Token) : Nat :=
  if t.kind = .eof then 0 else 1

/-- At least the number of tokens from the current one up to the end. -/
def size (w : Window) : Nat :=
  w.lexer.rest.length + weight w.current + weight w.upcoming

theorem size_advance_le (w : Window) : w.advance.size + weight w.current ≤ w.size := by
  have hle := w.lexer.next_rest_length_le
  by_cases ht : w.lexer.next.1.kind = .eof
  · have hw : weight w.lexer.next.1 = 0 := if_pos ht
    simp only [size, advance]
    omega
  · have hw : weight w.lexer.next.1 = 1 := if_neg ht
    have hlt := Lexer.next_rest_length_lt ht
    simp only [size, advance]
    omega

theorem size_advance_lt {w : Window} (h : w.current.kind ≠ .eof) : w.advance.size < w.size := by
  have hle := w.size_advance_le
  simp only [weight, if_neg h] at hle
  omega

/-- Drops tokens until the current one is a semicolon or the end. -/
def skipToSemicolon (w : Window) : Window :=
  if w.current.kind = .semicolon ∨ w.current.kind = .eof then w else w.advance.skipToSemicolon
termination_by w.size
decreasing_by
  next h => exact size_advance_lt fun he => h (.inr he)

end Window

end FrontEnd
