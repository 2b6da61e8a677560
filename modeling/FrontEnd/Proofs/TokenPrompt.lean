import FrontEnd.Proofs.Scanning
import FrontEnd.Proofs.SemicolonOmission
import FrontEnd.Proofs.Sessions

/-!
The prompt that lists tokens. It reads a line at a time, and each is lexed as a source of its own.
A line ends in blanks, and no token goes on into blanks: so nothing is cut or joined at the end of a
line, and a session lists the tokens that the whole input has as one source.
-/

namespace FrontEnd

def listing (text : String) : List String :=
  (sourceTokens text none).map Token.text

section Listing

theorem map_text_sourceTokens (text : String) (name : Option String) :
    (sourceTokens text name).map Token.text = (lexemes text.toList).map Token.text := by
  have hl : _ = lexemes text.toList := (yields_source text name).lexemes
  rw [← hl, List.map_map]
  rfl

/-- Nothing goes on beyond a blank. -/
theorem lexemes_append_blank {d : Char} (cs ds : List Char) (hb : isBlank d = true) :
    lexemes (cs ++ d :: ds) = lexemes cs ++ lexemes ds := by
  obtain ⟨ts, e, ht⟩ := Lexer.exists_yields ⟨"", 0, cs⟩
  obtain ⟨us, e', hu⟩ := Lexer.exists_yields (Lexer.beyond ⟨"", 0, cs⟩ (d :: ds))
  have hf : ¬ Fuses ts cs (d :: ds) :=
    not_fuses_of_isBlank ts fun c hc => Option.some.inj hc ▸ hb
  have ha := (ht.append hu hf).lexemes
  rw [List.map_append, ht.lexemes, hu.lexemes] at ha
  exact ha.symm.trans (congrArg (lexemes cs ++ ·) (lexemes_of_blank ds hb))

theorem HasLines.flatMap_lexemes {text : String} {lines : List String} (h : HasLines text lines) :
    lines.flatMap (fun line => lexemes line.toList) = lexemes text.toList := by
  induction h with
  | none => exact lexemes_nil.symm
  | last => exact List.append_nil _
  | @feed line rest lines _ _ _ ih =>
      have ht : (line ++ "\n" ++ rest).toList = line.toList ++ '\n' :: rest.toList := by simp
      rw [List.flatMap_cons, ih, ht, lexemes_append_blank _ _ rfl]
  | @returnFeed line rest lines _ _ ih =>
      have ht : (line ++ "\r\n" ++ rest).toList = line.toList ++ '\r' :: '\n' :: rest.toList := by
        simp
      rw [List.flatMap_cons, ih, ht, lexemes_append_blank _ _ rfl, lexemes_of_blank _ rfl]

end Listing

section OneLine

theorem feed_not_mem_toDigits (n : Nat) : '\n' ∉ Nat.toDigits 16 n := by
  have hd : ∀ m < 16, '\n' ≠ m.digitChar := by decide
  induction n using Nat.strongRecOn with
  | ind n ih =>
      rw [Nat.toDigits_eq_if (by decide)]
      split
      · next hn => simp [hd n hn]
      · simp [ih (n / 16) (by omega), hd (n % 16) (Nat.mod_lt _ (by decide))]

/-- No character is quoted with a line feed. -/
theorem Text.feed_not_mem_quotedChar (c : Char) : '\n' ∉ (Text.quotedChar c).toList := by
  by_cases hn : c = '\n'
  · rw [hn]
    decide
  · rw [Text.quotedChar]
    repeat' split
    any_goals decide
    · simp [Text.hexadecimal, feed_not_mem_toDigits]
    · simpa using Ne.symm hn

theorem Text.feed_not_mem_quoted (s : String) : '\n' ∉ (Text.quoted s).toList := by
  simp [Text.quoted, String.toList_join, feed_not_mem_quotedChar]

/-- A token is listed on one line. -/
theorem Token.feed_not_mem_text (t : Token) : '\n' ∉ t.text.toList := by
  have hk : '\n' ∉ t.kind.name.toList := by cases t.kind <;> decide
  change '\n' ∉ ("Token \x7b kind: " ++ t.kind.name ++ ", literal: " ++ Text.quoted t.literal ++
    " \x7d").toList
  simp only [String.toList_append, List.mem_append, not_or]
  exact ⟨⟨⟨⟨by decide, hk⟩, by decide⟩, Text.feed_not_mem_quoted _⟩, by decide⟩

end OneLine

namespace Prompt

def listed (line : String) : String :=
  mark ++ String.join ((listing line).map (· ++ "\n"))

theorem answered_tokens (values : Values) (line : String) :
    answered .tokens values line = listed line := by
  have hd := (yields_source line none).drain
  rw [answered, answer, hd, listed, listing, List.map_map]
  rfl

theorem converse_tokens (values : Values) (lines : List String) :
    (converse .tokens values (lines.map fun line => Text.bytes line.toList)).failure = none ∧
    (converse .tokens values (lines.map fun line => Text.bytes line.toList)).output =
      String.join (lines.map listed) ++ mark := by
  induction lines with
  | nil => exact ⟨rfl, String.empty_append.symm⟩
  | cons line lines ih =>
      have ha : IsAnswered .tokens values line := nofun
      obtain ⟨ho, hf⟩ := converse_answered ha (lines.map fun line => Text.bytes line.toList)
      rw [answered_tokens, ih.2] at ho
      rw [List.map_cons, List.map_cons, String.join_cons, String.append_assoc]
      exact ⟨hf.trans ih.1, ho⟩

/-- At a prompt that lists tokens, an input in UTF-8 is answered to its end. For each line there is
the mark and a line for each token of it, and at the end there is the mark alone. The lines for the
tokens are together what the whole input is listed as. -/
theorem session_tokens {input : List UInt8} {text : String} (values : Values)
    (h : Text.decode input = .ok text) :
    ∃ lines, HasLines text lines ∧ (∀ others, HasLines text others → others = lines) ∧
      (session .tokens values input).failure = none ∧
      (session .tokens values input).output = String.join (lines.map listed) ++ mark ∧
      (∀ name, lines.flatMap listing = (sourceTokens text name).map Token.text) ∧
      ∀ line ∈ listing text, '\n' ∉ line.toList := by
  obtain rfl := Text.decode_eq_ok_iff.mp h
  obtain ⟨lines, hl⟩ := exists_hasLines text
  obtain ⟨hf, ho⟩ := converse_tokens values lines
  rw [← hl.lines_bytes] at hf ho
  refine ⟨lines, hl, fun others ho => ho.unique hl, hf, ho, fun name => ?_, ?_⟩
  · rw [map_text_sourceTokens, ← hl.flatMap_lexemes, List.map_flatMap]
    exact congrArg (lines.flatMap ·) (funext fun line => map_text_sourceTokens line none)
  · rintro _ hm
    obtain ⟨t, -, rfl⟩ := List.mem_map.mp hm
    exact t.feed_not_mem_text

/-- The return is dropped, the empty line has the mark alone, and the last line needs no end. -/
theorem session_tokens_three :
    Text.decode (Text.bytes "a\r\n\n=".toList) = .ok "a\r\n\n=" ∧
    (session .tokens .parsed (Text.bytes "a\r\n\n=".toList)).failure = none ∧
    (session .tokens .parsed (Text.bytes "a\r\n\n=".toList)).output =
      ">> Token \x7b kind: Identifier, literal: \"a\" \x7d\n>> " ++
        ">> Token \x7b kind: Assignment, literal: \"=\" \x7d\n>> " ∧
    ["a", "", "="].flatMap listing = listing "a\r\n\n=" := by
  have hd : Text.decode (Text.bytes "a\r\n\n=".toList) = .ok "a\r\n\n=" :=
    Text.decode_eq_ok_iff.mpr rfl
  have hl : HasLines "a\r\n\n=" ["a", "", "="] := by
    have hlast : HasLines "=" ["="] := .last (by decide) (by decide)
    have hempty : HasLines ("" ++ "\n" ++ "=") ["", "="] := .feed (by decide) nofun hlast
    exact HasLines.returnFeed (by decide : '\n' ∉ "a".toList) hempty
  obtain ⟨lines, -, hu, hf, ho, ht, -⟩ := session_tokens .parsed hd
  obtain rfl := hu _ hl
  exact ⟨hd, hf, ho.trans (by decide +kernel), ht none⟩

end Prompt

end FrontEnd
