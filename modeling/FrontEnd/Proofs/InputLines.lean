import FrontEnd.Prompt
import FrontEnd.Proofs.Lines

/-!
The lines that are read at the prompt. They are split as bytes, before anything is known about their
characters. No byte of a longer character is a line feed or a carriage return, so that the lines of
an input in UTF-8 are the lines of its text in UTF-8.
-/

namespace FrontEnd

/-- The lines of a text without their ends. A line feed ends a line, and so does a carriage return
with a line feed. The last line may have no end unless it is empty. -/
inductive HasLines : String → List String → Prop
  | none : HasLines "" []
  | last {line : String} (hn : line ≠ "") (hf : '\n' ∉ line.toList) : HasLines line [line]
  | feed {line rest : String} {lines : List String} (hf : '\n' ∉ line.toList)
      (hr : line.toList.getLast? ≠ some '\r') (h : HasLines rest lines) :
      HasLines (line ++ "\n" ++ rest) (line :: lines)
  | returnFeed {line rest : String} {lines : List String} (hf : '\n' ∉ line.toList)
      (h : HasLines rest lines) : HasLines (line ++ "\r\n" ++ rest) (line :: lines)

namespace Text

variable {a : Char} {cs : List Char}

theorem mem_bytes (ha : a.val.toNat < 128) : a.toUInt8 ∈ bytes cs ↔ a ∈ cs := by
  simp [bytes, mem_utf8EncodeChar ha]

theorem utf8EncodeChar_of_lt (ha : a.val.toNat < 128) :
    String.utf8EncodeChar a = [a.toUInt8] := by
  rw [String.utf8EncodeChar, if_pos (Nat.le_of_lt_succ ha)]
  rfl

theorem bytes_singleton (c : Char) : bytes [c] = String.utf8EncodeChar c :=
  List.append_nil _

theorem getLast?_bytes (ha : a.val.toNat < 128) :
    (bytes cs).getLast? = some a.toUInt8 ↔ cs.getLast? = some a := by
  rcases List.eq_nil_or_concat cs with rfl | ⟨before, c, rfl⟩
  · simp [bytes]
  · have hn : String.utf8EncodeChar c ≠ [] := by
      rw [← List.length_pos_iff, String.length_utf8EncodeChar]
      exact c.utf8Size_pos
    rw [List.concat_eq_append, bytes_append, bytes_singleton, List.getLast?_append,
      List.getLast?_eq_some_getLast hn, Option.some_or, ← List.getLast?_eq_some_getLast hn,
      List.getLast?_concat]
    constructor
    · intro h
      rw [(mem_utf8EncodeChar ha).mp (List.mem_of_getLast? h)]
    · intro h
      obtain rfl : c = a := Option.some.inj h
      rw [utf8EncodeChar_of_lt ha]
      rfl

theorem fromUTF8?_eq_some_iff {b : ByteArray} {text : String} :
    String.fromUTF8? b = some text ↔ text.toUTF8 = b := by
  constructor
  · intro h
    rw [String.fromUTF8?] at h
    split at h
    · cases h
      rfl
    · contradiction
  · rintro rfl
    exact dif_pos text.isValidUTF8

/-- The input that is read as a text is the text in UTF-8. -/
theorem decode_eq_ok_iff {input : List UInt8} {text : String} :
    decode input = .ok text ↔ input = bytes text.toList := by
  have hd : decode input = .ok text ↔ String.fromUTF8? ⟨input.toArray⟩ = some text := by
    rw [decode]
    cases String.fromUTF8? ⟨input.toArray⟩ <;> simp
  rw [hd, fromUTF8?_eq_some_iff, ← toList_toUTF8]
  constructor
  · intro h
    rw [h]
  · rintro rfl
    rfl

theorem bytes_injective : Function.Injective fun text : String => bytes text.toList := by
  intro text other heq
  have ht := decode_eq_ok_iff.mpr (Eq.refl (bytes text.toList))
  exact Except.ok.inj (ht.symm.trans (decode_eq_ok_iff.mpr heq))

end Text

open Text

namespace Prompt

section

variable {body rest : List UInt8} {line : List Char}

theorem splitLine_feed (h : lineFeed ∉ body) :
    splitLine (body ++ lineFeed :: rest) = (dropReturn body, rest) := by
  rw [splitLine, dropWhile_ne_append h, takeWhile_ne_append h]

theorem splitLine_last (h : lineFeed ∉ body) : splitLine body = (body, []) := by
  rw [splitLine, dropWhile_ne_eq_nil h]

theorem lines_nil : lines [] = [] := by
  rw [lines, if_pos rfl]

theorem lines_feed (h : lineFeed ∉ body) :
    lines (body ++ lineFeed :: rest) = dropReturn body :: lines rest := by
  rw [lines, if_neg (by simp), splitLine_feed h]

theorem lines_last (hn : body ≠ []) (h : lineFeed ∉ body) : lines body = [body] := by
  rw [lines, if_neg hn, splitLine_last h, lines_nil]

theorem bytes_feed (cs ds : List Char) :
    bytes (cs ++ '\n' :: ds) = bytes cs ++ lineFeed :: bytes ds := by
  rw [bytes_append]
  rfl

theorem lineFeed_mem_bytes : lineFeed ∈ bytes line ↔ '\n' ∈ line :=
  mem_bytes (a := '\n') (by decide)

theorem dropReturn_bytes (h : line.getLast? ≠ some '\r') :
    dropReturn (bytes line) = bytes line :=
  if_neg (mt (getLast?_bytes (a := '\r') (by decide)).mp h)

theorem dropReturn_bytes_return (line : List Char) :
    dropReturn (bytes (line ++ ['\r'])) = bytes line := by
  have hr : bytes ['\r'] = [carriageReturn] := rfl
  rw [bytes_append, hr, dropReturn, if_pos List.getLast?_concat, List.dropLast_concat]

end

end Prompt

theorem HasLines.lines_bytes {text : String} {lines : List String} (h : HasLines text lines) :
    Prompt.lines (bytes text.toList) = lines.map fun line => bytes line.toList := by
  induction h with
  | none => exact Prompt.lines_nil
  | @last line hn hf =>
      have hb : bytes line.toList ≠ bytes "".toList := fun hb => hn (bytes_injective hb)
      exact Prompt.lines_last hb (mt Prompt.lineFeed_mem_bytes.mp hf)
  | @feed line rest lines hf hr _ ih =>
      have ht : (line ++ "\n" ++ rest).toList = line.toList ++ '\n' :: rest.toList := by simp
      rw [ht, Prompt.bytes_feed, Prompt.lines_feed (mt Prompt.lineFeed_mem_bytes.mp hf),
        Prompt.dropReturn_bytes hr, ih, List.map_cons]
  | @returnFeed line rest lines hf _ ih =>
      have ht : (line ++ "\r\n" ++ rest).toList =
          line.toList ++ ['\r'] ++ '\n' :: rest.toList := by
        simp
      have hf' : '\n' ∉ line.toList ++ ['\r'] := by simpa using hf
      rw [ht, Prompt.bytes_feed, Prompt.lines_feed (mt Prompt.lineFeed_mem_bytes.mp hf'),
        Prompt.dropReturn_bytes_return, ih, List.map_cons]

/-- No text has other lines. -/
theorem HasLines.unique {text : String} {lines others : List String} (h : HasLines text lines)
    (h' : HasLines text others) : lines = others :=
  (List.map_inj_right bytes_injective).mp (h.lines_bytes.symm.trans h'.lines_bytes)

/-- Every text has lines. -/
theorem exists_hasLines (text : String) : ∃ lines, HasLines text lines := by
  obtain ⟨cs, rfl⟩ : ∃ cs, text = String.ofList cs := ⟨text.toList, text.ofList_toList.symm⟩
  induction cs using cut_induction '\n' with
  | last cs hf =>
      cases cs with
      | nil => exact ⟨[], .none⟩
      | cons c cs => exact ⟨_, .last (by simp [← String.toList_inj]) (by simpa using hf)⟩
  | cut body rest hf ih =>
      obtain ⟨lines, h⟩ := ih
      by_cases hr : body.getLast? = some '\r'
      · obtain ⟨line, rfl⟩ := List.getLast?_eq_some_iff.mp hr
        have hl : '\n' ∉ (String.ofList line).toList := by simpa using hf
        have ht : String.ofList (line ++ ['\r'] ++ '\n' :: rest) =
            String.ofList line ++ "\r\n" ++ String.ofList rest := by
          simp [← String.toList_inj]
        rw [ht]
        exact ⟨_, .returnFeed hl h⟩
      · have hl : '\n' ∉ (String.ofList body).toList := by simpa using hf
        have ht : String.ofList (body ++ '\n' :: rest) =
            String.ofList body ++ "\n" ++ String.ofList rest := by
          simp [← String.toList_inj]
        rw [ht]
        exact ⟨_, .feed hl (by simpa using hr) h⟩

end FrontEnd
