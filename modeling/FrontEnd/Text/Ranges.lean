/-!
Sets of characters given as ranges of code points, both ends included.
-/

namespace FrontEnd.Text

abbrev Ranges := List (Nat × Nat)

def Ranges.holds (ranges : Ranges) (c : Char) : Bool :=
  ranges.any fun r => r.1 ≤ c.toNat && c.toNat ≤ r.2

end FrontEnd.Text
