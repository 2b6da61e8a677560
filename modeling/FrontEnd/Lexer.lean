import FrontEnd.Text.Bytes
import FrontEnd.Token

/-!
Cutting text into tokens. A lexeme is read by the longest match at the first character that is not
a blank; a character that starts no lexeme is a lexeme of its own, of kind `illegal`. At the end
of the text every further token is an empty one of kind `eof`. Each other token takes at least one
character (`next_rest_length_lt`), so the tokens of a text are finitely many.
-/

namespace FrontEnd

/-- The four characters that only separate tokens. -/
def isBlank (c : Char) : Bool :=
  c = ' ' || c = '\t' || c = '\r' || c = '\n'

/-- Characters of identifiers and reserved words: the letters of ASCII and the underscore. -/
def isWordChar (c : Char) : Bool :=
  c.isAlpha || c = '_'

/-- A kind and the text that has it, before either is given a place in a source. -/
structure Lexeme where
  kind : Kind
  text : List Char

namespace Lexeme

/-- The lexeme that begins with the character `c`, and the text that follows it. -/
def read (c : Char) (cs : List Char) : Lexeme × List Char :=
  if isWordChar c then
    let word := c :: cs.takeWhile isWordChar
    (⟨.ofWord (String.ofList word), word⟩, cs.dropWhile isWordChar)
  else if c.isDigit then
    (⟨.integer, c :: cs.takeWhile Char.isDigit⟩, cs.dropWhile Char.isDigit)
  else
    match c, cs with
    | '=', '=' :: rest => (⟨.equals, ['=', '=']⟩, rest)
    | '!', '=' :: rest => (⟨.notEquals, ['!', '=']⟩, rest)
    | c, rest => (⟨(Kind.ofSymbol? c).getD .illegal, [c]⟩, rest)

/-- Nothing is lost between a lexeme and the text after it. -/
theorem read_text_append (c : Char) (cs : List Char) :
    (read c cs).1.text ++ (read c cs).2 = c :: cs := by
  unfold read
  split
  · simp
  · split
    · simp
    · split <;> rfl

theorem read_rest_length_le (c : Char) (cs : List Char) :
    (read c cs).2.length ≤ cs.length := by
  unfold read
  split
  · exact (List.dropWhile_suffix _).length_le
  · split
    · exact (List.dropWhile_suffix _).length_le
    · split <;> simp

end Lexeme

/-- A place in a source between two characters, with all the text from there on. The count of
bytes passed so far is not reduced. -/
structure Lexer where
  source : String
  pos : Nat
  rest : List Char

namespace Lexer

/-- At the start of a text, which is named after the shell when it has no name of its own. -/
def ofText (text : String) (name : Option String) : Lexer :=
  ⟨name.getD shellName, 0, text.toList⟩

/-- The span from a byte offset up to the present place. -/
def spanFrom (l : Lexer) (start : Nat) : Span :=
  ⟨.ofOffset l.source start, .ofOffset l.source l.pos⟩

def skipBlanks (l : Lexer) : Lexer :=
  { l with
    pos := l.pos + Text.byteLength (l.rest.takeWhile isBlank)
    rest := l.rest.dropWhile isBlank }

/-- The next token, and the place where it ends. -/
def next (l : Lexer) : Token × Lexer :=
  let l := l.skipBlanks
  match l.rest with
  | [] => (⟨.eof, "", l.spanFrom l.pos⟩, l)
  | c :: cs =>
      let lexeme := (Lexeme.read c cs).1
      let after : Lexer :=
        { l with pos := l.pos + Text.byteLength lexeme.text, rest := (Lexeme.read c cs).2 }
      (⟨lexeme.kind, String.ofList lexeme.text, after.spanFrom l.pos⟩, after)

theorem next_rest_length_lt {l : Lexer} (h : l.next.1.kind ≠ .eof) :
    l.next.2.rest.length < l.rest.length := by
  have hs : l.skipBlanks.rest.length ≤ l.rest.length := (List.dropWhile_suffix _).length_le
  unfold next at h ⊢
  simp only at h ⊢
  split at h
  · simp at h
  · next c cs hr =>
      rw [hr] at hs
      have := Lexeme.read_rest_length_le c cs
      simp only [List.length_cons] at hs ⊢
      omega

theorem next_rest_length_le (l : Lexer) : l.next.2.rest.length ≤ l.rest.length := by
  by_cases h : l.next.1.kind = .eof
  · have hs : l.skipBlanks.rest.length ≤ l.rest.length := (List.dropWhile_suffix _).length_le
    unfold next
    simp only
    split
    · exact hs
    · next c cs hr =>
        rw [hr] at hs
        have := Lexeme.read_rest_length_le c cs
        simp only [List.length_cons] at hs ⊢
        omega
  · exact Nat.le_of_lt (next_rest_length_lt h)

/-- All tokens before the end of the text, and the place where the end is met. -/
def drain (l : Lexer) : List Token × Lexer :=
  if l.next.1.kind = .eof then ([], l.next.2)
  else
    let later := l.next.2.drain
    (l.next.1 :: later.1, later.2)
termination_by l.rest.length
decreasing_by exact next_rest_length_lt (by assumption)

/-- All tokens of the text, the one `eof` included. -/
def tokens (l : Lexer) : List Token :=
  if l.next.1.kind = .eof then [l.next.1] else l.next.1 :: l.next.2.tokens
termination_by l.rest.length
decreasing_by exact next_rest_length_lt (by assumption)

end Lexer

/-- The tokens of a whole source. -/
def tokenize (text : String) (name : Option String) : List Token :=
  (Lexer.ofText text name).tokens

end FrontEnd
