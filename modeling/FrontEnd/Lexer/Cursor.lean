import FrontEnd.Lexer

/-!
A lexer that can be moved to any byte offset of its source. A token can be read wherever the
offset falls between two characters, and beyond the end, where there is only `eof`. Inside a
character nothing can be read, and the cursor stays as it is. Besides reading token by token, a
cursor can be drained: it then stops for good at the first `eof`.
-/

namespace FrontEnd

structure Cursor where
  text : List Char
  source : String
  /-- The offset in bytes, which is not reduced. -/
  pos : Nat
  /-- Whether draining has met the end. -/
  drained : Bool

namespace Cursor

def ofText (text : String) (name : Option String) : Cursor :=
  ⟨text.toList, name.getD shellName, 0, false⟩

def moveBy (c : Cursor) (n : Nat) : Cursor :=
  { c with pos := c.pos + n }

def atEnd (c : Cursor) : Bool :=
  Text.byteLength c.text ≤ c.pos

/-- The text from the cursor on, unless the cursor is inside a character or beyond the end. -/
def remainder? (c : Cursor) : Option (List Char) :=
  Text.dropBytes? c.pos c.text

/-- The lexer at the cursor, unless the cursor is inside a character. -/
def lexer? (c : Cursor) : Option Lexer :=
  if c.atEnd then some ⟨c.source, c.pos, []⟩ else c.remainder?.map (⟨c.source, c.pos, ·⟩)

/-- The cursor at the place where a lexer stands. -/
def follow (c : Cursor) (l : Lexer) : Cursor :=
  { c with pos := l.pos }

/-- The next token, as often as it is asked for. -/
def next? (c : Cursor) : Option (Token × Cursor) :=
  c.lexer?.map fun l => (l.next.1, c.follow l.next.2)

/-- The next token while draining: none from the first `eof` on. -/
def drainOne? (c : Cursor) : Option (Option Token × Cursor) :=
  if c.drained then some (none, c)
  else
    c.lexer?.map fun l =>
      if l.next.1.kind = .eof then (none, { c.follow l.next.2 with drained := true })
      else (some l.next.1, c.follow l.next.2)

/-- All tokens that are left while draining. -/
def drain? (c : Cursor) : Option (List Token × Cursor) :=
  if c.drained then some ([], c)
  else c.lexer?.map fun l => (l.drain.1, { c.follow l.drain.2 with drained := true })

/-- The span from a byte offset up to the cursor. -/
def spanFrom (c : Cursor) (start : Nat) : Span :=
  ⟨.ofOffset c.source start, .ofOffset c.source c.pos⟩

def position (c : Cursor) (offset : Nat) : Position :=
  .ofOffset c.source offset

end Cursor

end FrontEnd
