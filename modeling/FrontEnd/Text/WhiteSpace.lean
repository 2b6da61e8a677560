import FrontEnd.Text.Ranges

/-!
The Unicode property White_Space, which decides what is trimmed from the end of a quoted source
line. The lexer's own notion of a blank is narrower: see `isBlank`.
-/

namespace FrontEnd.Text

/-- Code points with the property. -/
def whiteSpaceRanges : Ranges := [
  (0x9, 0xd), (0x20, 0x20), (0x85, 0x85), (0xa0, 0xa0), (0x1680, 0x1680), (0x2000, 0x200a),
  (0x2028, 0x2029), (0x202f, 0x202f), (0x205f, 0x205f), (0x3000, 0x3000)]

def isWhiteSpace (c : Char) : Bool :=
  whiteSpaceRanges.holds c

end FrontEnd.Text
