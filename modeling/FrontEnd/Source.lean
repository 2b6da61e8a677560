/-!
Places in a source. A position is a byte offset into a named source. Offsets are kept in 32 bits,
so one that does not fit is reduced modulo 2^32; whoever needs the true offset has to count bytes
itself.
-/

namespace FrontEnd

/-- The name of a source that was typed at the prompt, or given without a name. -/
def shellName : String := "shell"

structure Position where
  offset : UInt32
  source : String
deriving DecidableEq

/-- The position of a byte offset of any size. -/
def Position.ofOffset (source : String) (offset : Nat) : Position :=
  ⟨UInt32.ofNat offset, source⟩

structure Span where
  start : Position
  stop : Position
deriving DecidableEq

/-- The span from the start of one span to the end of another. -/
def Span.hull (first last : Span) : Span :=
  ⟨first.start, last.stop⟩

end FrontEnd
