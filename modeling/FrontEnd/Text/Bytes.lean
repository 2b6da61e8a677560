/-!
Text as a list of characters, measured in bytes of its UTF-8 form. A byte offset may fall inside a
character, so cutting a text at an offset can fail.
-/

namespace FrontEnd.Text

/-- How many bytes the text takes in UTF-8. -/
def byteLength (cs : List Char) : Nat :=
  cs.foldl (fun n c => n + c.utf8Size) 0

private theorem foldl_utf8Size (cs : List Char) (n : Nat) :
    cs.foldl (fun n c => n + c.utf8Size) n = n + byteLength cs := by
  induction cs generalizing n with
  | nil => rfl
  | cons c cs ih =>
      simp only [byteLength, List.foldl_cons]
      rw [ih, ih (0 + c.utf8Size)]
      omega

@[simp] theorem byteLength_nil : byteLength [] = 0 := rfl

@[simp] theorem byteLength_cons (c : Char) (cs : List Char) :
    byteLength (c :: cs) = c.utf8Size + byteLength cs := by
  simp only [byteLength, List.foldl_cons]
  rw [foldl_utf8Size]
  simp [byteLength]

@[simp] theorem byteLength_append (cs ds : List Char) :
    byteLength (cs ++ ds) = byteLength cs + byteLength ds := by
  induction cs with
  | nil => simp
  | cons c cs ih => simp [ih, Nat.add_assoc]

/-- What is left of the text after its first `n` bytes, unless `n` falls inside a character or
beyond the end. -/
def dropBytes? : Nat → List Char → Option (List Char)
  | 0, cs => some cs
  | _ + 1, [] => none
  | n + 1, c :: cs => if c.utf8Size ≤ n + 1 then dropBytes? (n + 1 - c.utf8Size) cs else none

theorem dropBytes?_byteLength (cs ds : List Char) :
    dropBytes? (byteLength cs) (cs ++ ds) = some ds := by
  induction cs with
  | nil => simp [dropBytes?]
  | cons c cs ih =>
      have hc := c.utf8Size_pos
      obtain ⟨n, hn⟩ : ∃ n, c.utf8Size + byteLength cs = n + 1 :=
        ⟨_, (Nat.sub_add_cancel (by omega)).symm⟩
      rw [byteLength_cons, hn, List.cons_append, dropBytes?, if_pos (by omega), ← hn,
        Nat.add_sub_cancel_left, ih]

theorem eq_append_of_dropBytes? {n : Nat} {cs ds : List Char} (h : dropBytes? n cs = some ds) :
    ∃ before, cs = before ++ ds ∧ byteLength before = n := by
  induction cs generalizing n with
  | nil =>
      cases n with
      | zero => exact ⟨[], by simpa [dropBytes?] using h, rfl⟩
      | succ n => simp [dropBytes?] at h
  | cons c cs ih =>
      cases n with
      | zero => exact ⟨[], by simpa [dropBytes?] using h, rfl⟩
      | succ n =>
          rw [dropBytes?] at h
          split at h
          · next hc =>
              obtain ⟨before, rfl, hb⟩ := ih h
              exact ⟨c :: before, rfl, by simp only [byteLength_cons]; omega⟩
          · simp at h

end FrontEnd.Text
