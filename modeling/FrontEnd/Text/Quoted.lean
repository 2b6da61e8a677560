import FrontEnd.Text.DefaultIgnorable
import FrontEnd.Text.GraphemeExtend
import FrontEnd.Text.Unprintable

/-!
Quoted text: a string between double quotes in which every character that would not show up as
itself is escaped. A single quote needs no escape.
-/

namespace FrontEnd.Text

/-- The hexadecimal digits of a number, lower case and without padding. -/
def hexadecimal (n : Nat) : String :=
  String.ofList (Nat.toDigits 16 n)

/-- The two voicing marks of halfwidth Katakana. They extend a grapheme, but as letters with a width
of their own, so that they show up wherever they stand. -/
def isHalfwidthVoicing (c : Char) : Bool :=
  c = '\uff9e' || c = '\uff9f'

/-- Whether a character would not show up as itself: it attaches to the one before it, is ignored, or
has no shape. -/
def isHidden (c : Char) : Bool :=
  isGraphemeExtend c && !isHalfwidthVoicing c || isDefaultIgnorable c || isUnprintable c

/-- How one character is written between the quotes. -/
def quotedChar (c : Char) : String :=
  if c = '\x00' then "\\0"
  else if c = '\t' then "\\t"
  else if c = '\r' then "\\r"
  else if c = '\n' then "\\n"
  else if c = '"' then "\\\""
  else if c = '\\' then "\\\\"
  else if isHidden c then
    "\\u" ++ "\x7b" ++ hexadecimal c.toNat ++ "\x7d"
  else c.toString

def quoted (s : String) : String :=
  "\"" ++ String.join (s.toList.map quotedChar) ++ "\""

end FrontEnd.Text
