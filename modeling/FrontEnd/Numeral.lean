/-!
The value of an integer literal. A literal of two or more digits that starts with a zero is octal
and its value is that of the digits after the zero; every other literal is decimal. A value has to
fit in a signed 64-bit word.
-/

namespace FrontEnd

/-- The greatest value of an integer literal, one below two to the power of 63. -/
def maxInteger : Nat := 9223372036854775807

def digitValue? (base : Nat) (c : Char) : Option Nat :=
  if c.isDigit && c.toNat - '0'.toNat < base then some (c.toNat - '0'.toNat) else none

/-- The number that the digits spell in a base, unless one of them is no digit of it. -/
def valueInBase? (base : Nat) (digits : List Char) : Option Nat :=
  digits.foldlM (fun n c => (digitValue? base c).map (n * base + ·)) 0

def integerValue? (literal : List Char) : Option Nat :=
  let value? := match literal with
    | [] => none
    | '0' :: d :: digits => valueInBase? 8 (d :: digits)
    | d :: digits => valueInBase? 10 (d :: digits)
  value?.filter (· ≤ maxInteger)

end FrontEnd
