/-!
Reading bytes as text.
-/

namespace FrontEnd.Text

inductive ReadError
  /-- The bytes are no UTF-8. -/
  | notUtf8
deriving DecidableEq

def ReadError.message : ReadError → String
  | .notUtf8 => "stream did not contain valid UTF-8"

def decode (bytes : List UInt8) : Except ReadError String :=
  match String.fromUTF8? ⟨bytes.toArray⟩ with
  | some s => .ok s
  | none => .error .notUtf8

end FrontEnd.Text
