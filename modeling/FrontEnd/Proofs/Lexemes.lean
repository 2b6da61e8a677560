import FrontEnd.Proofs.Lexing

/-!
Tokens without positions. The kinds and literals of a text depend on the text alone, not on where it
stands or what its source is called, and they decide what a program is read as up to positions.
-/

namespace FrontEnd

def unplace (_ : Position) : Position :=
  ⟨0, ""⟩

def Lexeme.token (x : Lexeme) : Token :=
  ⟨x.kind, String.ofList x.text, ⟨⟨0, ""⟩, ⟨0, ""⟩⟩⟩

def lexemes (cs : List Char) : List Token :=
  (Lexer.tokens ⟨"", 0, cs⟩).dropLast.map (Token.relocate unplace)

namespace Lexer

variable {l l' : Lexer} {ts us : List Token} {ending ending' : Token}

theorem next_unplaced (h : l.skipBlanks.rest = l'.skipBlanks.rest) :
    l.next.1.relocate unplace = l'.next.1.relocate unplace ∧ l.next.2.rest = l'.next.2.rest := by
  cases hr : l.skipBlanks.rest with
  | nil =>
      rw [next_of_rest_nil hr, next_of_rest_nil (h.symm.trans hr)]
      exact ⟨rfl, h⟩
  | cons c cs =>
      rw [next_of_rest_cons hr, next_of_rest_cons (h.symm.trans hr)]
      exact ⟨rfl, rfl⟩

theorem Yields.eq_nil_iff (h : l.Yields ts ending) : l.next.1.kind = .eof ↔ ts = [] := by
  rw [h.next_fst]
  cases ts with
  | nil => simpa using h.ends
  | cons t ts => simpa using h.proper t (List.mem_cons_self ..)

/-- Lexers on the same text yield the same tokens but for their positions. -/
theorem Yields.map_unplaced (h : l.Yields ts ending) (h' : l'.Yields us ending')
    (hr : l.skipBlanks.rest = l'.skipBlanks.rest) :
    ts.map (Token.relocate unplace) = us.map (Token.relocate unplace) := by
  induction ts generalizing l l' us with
  | nil =>
      have hk := congrArg Token.kind (next_unplaced hr).1
      have hn := h.eq_nil_iff.mpr rfl
      obtain rfl := h'.eq_nil_iff.mp (hk.symm.trans hn)
      rfl
  | cons t ts ih =>
      obtain ⟨ht, hs⟩ := next_unplaced hr
      have hk := congrArg Token.kind ht
      have hn := mt h.eq_nil_iff.mp (List.cons_ne_nil t ts)
      have hu : us ≠ [] := fun he => hn (hk.trans (h'.eq_nil_iff.mpr he))
      obtain ⟨u, us, rfl⟩ := List.exists_cons_of_ne_nil hu
      rw [h.next_fst, h'.next_fst] at ht
      have hi := ih h.next_snd h'.next_snd (congrArg (List.dropWhile isBlank) hs)
      exact List.cons_eq_cons.mpr ⟨ht, hi⟩

theorem Yields.lexemes (h : l.Yields ts ending) :
    ts.map (Token.relocate unplace) = FrontEnd.lexemes l.rest := by
  obtain ⟨us, e, hu⟩ := exists_yields ⟨"", 0, l.rest⟩
  have hm := h.map_unplaced hu rfl
  rw [FrontEnd.lexemes, hu.tokens, List.dropLast_concat]
  exact hm

end Lexer

theorem lexemes_nil : lexemes [] = [] :=
  (Lexer.Yields.nil (l := ⟨"", 0, []⟩) rfl rfl).lexemes.symm

theorem lexemes_of_blank {c : Char} (cs : List Char) (hb : isBlank c = true) :
    lexemes (c :: cs) = lexemes cs := by
  obtain ⟨ts, e, ht⟩ := Lexer.exists_yields ⟨"", 0, c :: cs⟩
  obtain ⟨us, e', hu⟩ := Lexer.exists_yields ⟨"", 0, cs⟩
  have hr : (Lexer.skipBlanks ⟨"", 0, c :: cs⟩).rest = (Lexer.skipBlanks ⟨"", 0, cs⟩).rest :=
    List.dropWhile_cons_of_pos hb
  exact ht.lexemes.symm.trans ((ht.map_unplaced hu hr).trans hu.lexemes)

theorem lexemes_cons {c : Char} (cs : List Char) (hb : isBlank c = false) :
    lexemes (c :: cs) = (Lexeme.read c cs).1.token :: lexemes (Lexeme.read c cs).2 := by
  obtain ⟨ts, e, ht⟩ := Lexer.exists_yields ⟨"", 0, c :: cs⟩
  have hr : (Lexer.skipBlanks ⟨"", 0, c :: cs⟩).rest = c :: cs :=
    List.dropWhile_cons_of_neg (Bool.eq_false_iff.mp hb)
  have hn := Lexer.next_of_rest_cons hr
  have hk : (Lexer.next ⟨"", 0, c :: cs⟩).1.kind ≠ .eof := by
    rw [hn]
    exact Lexeme.read_kind_ne_eof c cs
  obtain ⟨t, ts, rfl⟩ := List.exists_cons_of_ne_nil (mt ht.eq_nil_iff.mpr hk)
  have hs := ht.next_snd.lexemes
  have hf : (Lexer.next ⟨"", 0, c :: cs⟩).1 = t := ht.next_fst
  rw [hn] at hs hf
  rw [← ht.lexemes, List.map_cons, ← hf]
  exact List.cons_eq_cons.mpr ⟨rfl, hs⟩

/-- A program is read from the tokens of its text without their positions, up to positions. -/
theorem exists_readsItems_lexemes (text : String) (name : Option String) (values : Values) :
    ∃ ending items, ending.kind = .eof ∧
      ReadsItems .standard ending values (lexemes text.toList) items ∧
      items.filterMap Item.statement? =
        (parse text name values).1.statements.map (Stmt.relocate unplace) ∧
      items.filterMap Item.diagnostic? =
        (parse text name values).2.diagnostics.map (Diagnostic.relocate unplace) := by
  have hy := yields_source text name
  obtain ⟨items, hi⟩ := exists_readsItems (r := .standard) hy.ends rfl values _
  obtain ⟨hs, hd⟩ := parse_of_readsItems hy hi
  have hl : (sourceTokens text name).map (Token.relocate unplace) = lexemes text.toList :=
    hy.lexemes
  have hu := hi.relocate unplace
  rw [hl] at hu
  refine ⟨(sourceEnd text name).relocate unplace, _, hy.ends, hu, ?_, ?_⟩
  · rw [filterMap_statement?_relocate, hs]
  · rw [filterMap_diagnostic?_relocate, hd]

end FrontEnd
