import FrontEnd.Text.Bytes

/-!
The line of a source that a byte offset falls into. A line includes the line feed that ends it; an
offset at the very end of the source belongs to the last line, which is an empty one of its own if
the source ends in a line feed. Beyond the end there is no line.
-/

namespace FrontEnd

/-- The first line of a text, and the text after it. -/
def firstLine (text : List Char) : List Char × List Char :=
  match text.dropWhile (· ≠ '\n') with
  | [] => (text, [])
  | feed :: rest => (text.takeWhile (· ≠ '\n') ++ [feed], rest)

theorem firstLine_rest_length_lt {text : List Char} (h : text ≠ []) :
    (firstLine text).2.length < text.length := by
  have hs : (text.dropWhile (· ≠ '\n')).length ≤ text.length := (List.dropWhile_suffix _).length_le
  unfold firstLine
  split
  · simpa using List.length_pos_iff.mpr h
  · next hd => rw [hd] at hs; exact hs

/-- A line with its number, counted from one, and a column in it, counted in bytes from zero. -/
structure Location where
  number : Nat
  text : List Char
  column : Nat

namespace Location

/-- The location of an offset into a text whose first line has the given number. -/
def seek (number : Nat) (text : List Char) (offset : Nat) : Location :=
  if text = [] then ⟨number, [], 0⟩
  else
    let line := (firstLine text).1
    let size := Text.byteLength line
    if offset < size ∨ offset = size ∧ line.getLast? ≠ some '\n' then ⟨number, line, offset⟩
    else seek (number + 1) (firstLine text).2 (offset - size)
termination_by text.length
decreasing_by exact firstLine_rest_length_lt (by assumption)

end Location

/-- The location of an offset into a source. -/
def locate? (source : String) (offset : UInt32) : Option Location :=
  if offset.toNat ≤ Text.byteLength source.toList then
    some (.seek 1 source.toList offset.toNat)
  else
    none

end FrontEnd
