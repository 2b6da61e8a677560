import FrontEnd.Proofs.Blocks
import FrontEnd.Proofs.Concatenation
import FrontEnd.Proofs.History
import FrontEnd.Proofs.StatementEnds

/-!
A statement stands on its own. The piece of a source that a statement spans has the tokens that the
statement was read from, and from these it is read again, whatever stands before and behind it in
the source. Only its positions count from the beginning of the piece.
-/

namespace FrontEnd

def Position.back (offset : UInt32) (p : Position) : Position :=
  { p with offset := p.offset - offset }

theorem Position.toNat_ofOffset {n : Nat} (source : String) (h : n < UInt32.size) :
    (ofOffset source n).offset.toNat = n :=
  UInt32.toNat_ofNat.trans (Nat.mod_eq_of_lt h)

theorem Stmt.relocate_back_shift (n : Nat) (s : Stmt) :
    (s.relocate (.shift n)).relocate (.back (UInt32.ofNat n)) = s := by
  have hid : Position.back (UInt32.ofNat n) ∘ Position.shift n = id := by
    funext p
    simp [Position.back, Position.shift]
  rw [Stmt.relocate_relocate, hid, Stmt.relocate_id]

section

variable {r : Rules} {ending : Token} {values : Values} {ts us : List Token} {s : Stmt}

theorem ReadsItems.exists_of_mem {items : List Item} (h : ReadsItems r ending values ts items)
    (hs : s ∈ items.filterMap Item.statement?) :
    ∃ us vs, us <:+ ts ∧ us ≠ [] ∧ ReadsStatement r ending values us (.ok s) vs := by
  induction h with
  | done => cases hs
  | @statement t s' ts us items hst _ ih =>
      rcases List.mem_cons.mp hs with rfl | hs
      · exact ⟨_, us, List.suffix_rfl, List.cons_ne_nil t ts, hst⟩
      · obtain ⟨us', vs, hsuf, h⟩ := ih hs
        exact ⟨us', vs, hsuf.trans (ReadsItem.statement hst).tail_suffix, h⟩
  | @diagnostic t d ts us items hst _ ih =>
      obtain ⟨us', vs, hsuf, h⟩ := ih hs
      exact ⟨us', vs, hsuf.trans (ReadsItem.diagnostic hst).tail_suffix, h⟩

/-- A statement is read from its own tokens alone. -/
theorem ReadsStatement.alone {ending' u : Token} {rest ws : List Token} (he : ending.kind = .eof)
    (he' : ending'.kind = .eof)
    (h : ReadsStatement .standard ending values (ws ++ u :: rest) (.ok s) (u :: rest)) :
    ReadsItems .standard ending' values (ws ++ [u]) [.statement s] := by
  have hs : ReadsStatement .standard ending' values (ws ++ [u]) (.ok s) [u] :=
    h.replace_rest he he' (.inr he')
  have hn := List.append_ne_nil_of_right_ne_nil ws (List.cons_ne_nil u [])
  exact .statement_of_ne_nil hn hs .done

end

namespace Lexer

variable {l : Lexer} {cs : List Char} {ts us ws rest : List Token} {ending ending' : Token}

def on (l : Lexer) (cs : List Char) : Lexer :=
  { l with rest := cs }

theorem Yields.unique (h : l.Yields ts ending) (h' : l.Yields us ending') :
    ts = us ∧ ending = ending' := by
  obtain ⟨hts, he⟩ := List.append_inj' (h.tokens.symm.trans h'.tokens) rfl
  exact ⟨hts, List.singleton_inj.mp he⟩

/-- A token is read from the text up to the end of any later one, as it is from all of the text. -/
theorem exists_next_on {piece after : List Char} (hk : l.next.1.kind ≠ .eof)
    (hr : l.next.2.rest = piece ++ after) :
    ∃ before, l.rest = before ++ l.next.2.rest ∧ l.next.2.pos = l.pos + Text.byteLength before ∧
      (l.on (before ++ piece)).next = (l.next.1, l.next.2.on piece) := by
  obtain ⟨blanks, hblank, hrest, hpos⟩ := exists_blanks_of_next hk
  have hj := joins_next hk
  have hj' : ∀ d ∈ piece.head?, joins l.next.1.literal.toList d = false := by
    intro d hd
    refine hj d ?_
    rw [hr, List.head?_append, hd]
    rfl
  have hn := next_of_admits hrest hblank (next_admits hk) hj
  have hn' := next_of_admits (l := l.on (blanks ++ (l.next.1.literal.toList ++ piece))) rfl hblank
    (next_admits hk) hj'
  refine ⟨blanks ++ l.next.1.literal.toList, ?_, ?_, ?_⟩
  · rw [List.append_assoc]
    exact hrest
  · rw [hpos, Text.byteLength_append, Nat.add_assoc]
  · rw [List.append_assoc, hn']
    exact Prod.ext (congrArg Prod.fst hn).symm (congrArg (fun p => p.2.on piece) hn).symm

/-- The first tokens of a text are all the tokens of a piece of it. -/
theorem Yields.exists_cut (h : l.Yields (ws ++ rest) ending) :
    ∃ piece e, l.rest = piece ++ (l.after ws.length).rest ∧
      (l.after ws.length).pos = l.pos + Text.byteLength piece ∧ (l.on piece).Yields ws e := by
  induction ws generalizing l with
  | nil => exact ⟨[], _, rfl, rfl, .nil rfl rfl⟩
  | cons t ws ih =>
      have ht : l.next.1 = t := h.next_fst
      have hk : t.kind ≠ .eof := h.proper t (List.mem_cons_self ..)
      obtain ⟨piece, e, hr, hp, hy⟩ := ih h.next_snd
      obtain ⟨before, hb, hpos, hn⟩ := exists_next_on (ht ▸ hk) hr
      rw [after_next] at hr hp
      refine ⟨before ++ piece, e, ?_, ?_, .cons ?_ hk ?_⟩
      · rw [hb, hr, List.append_assoc]
        rfl
      · rw [List.length_cons, hp, hpos, Text.byteLength_append, Nat.add_assoc]
      · rw [hn]
        exact ht
      · rw [hn]
        exact hy

/-- The positions of the first token, and of any text up to the end of a token. -/
theorem Yields.span_last {u : Token} (h : l.Yields (ws ++ u :: rest) ending) :
    u.span.stop = .ofOffset l.source (l.after (ws.length + 1)).pos := by
  have hy := h.after ws.length
  rw [List.drop_left] at hy
  have hu : (l.after ws.length).next.1 = u := hy.next_fst
  obtain ⟨-, -, -, hs⟩ := next_cut (hu ▸ hy.proper u (List.mem_cons_self ..))
  rw [← hu, hs, after_source]
  rfl

theorem Yields.span_first (h : l.Yields ts ending) (hn : ts ≠ []) :
    (front ending ts).span.start = .ofOffset l.source l.skipBlanks.pos := by
  have hk := mt h.eq_nil_iff.mp hn
  obtain ⟨-, -, -, hs⟩ := next_cut hk
  rw [← h.next_fst, hs]

end Lexer

/-- A statement spans a piece of its text, and it is read from the tokens of that piece alone. -/
theorem ReadsStatement.exists_piece {values : Values} {ending : Token} {ts us : List Token}
    {s : Stmt} {l : Lexer} {cs : List Char}
    (h : ReadsStatement .standard ending values ts (.ok s) us) (hn : ts ≠ [])
    (hy : l.Yields ts ending) (hl : l.StandsIn cs) (hskip : l.skipBlanks = l) :
    ∃ piece after ws e, l.rest = piece ++ after ∧
      s.span = ⟨.ofOffset l.source l.pos,
        .ofOffset l.source (l.pos + Text.byteLength piece)⟩ ∧
      (l.on piece).Yields ws e ∧ ReadsItems .standard e values ws [.statement s] := by
  have hspan := ReadsBy.span_eq h
  have hstart := hy.span_first hn
  rw [hskip] at hstart
  cases us with
  | nil =>
      obtain ⟨before, rfl, hp⟩ := hl
      have he := (hy.tiles ⟨before, rfl, hp⟩).2
      refine ⟨l.rest, [], ts, ending, (List.append_nil _).symm, ?_, hy, ?_⟩
      · rw [hspan, Span.hull, hstart, front_nil, he, hp, ← Text.byteLength_append]
        rfl
      · exact .statement_of_ne_nil hn h .done
  | cons u rest =>
      obtain ⟨ws, rfl⟩ := ReadsBy.suffix h
      have hu := hy.span_last
      rw [List.append_cons] at hy
      obtain ⟨piece, e, hr, hp, hpiece⟩ := hy.exists_cut
      refine ⟨piece, _, ws ++ [u], e, hr, ?_, hpiece, h.alone hy.ends hpiece.ends⟩
      rw [List.length_append] at hp
      rw [hspan, Span.hull, hstart, front_cons, hu, ← hp]
      rfl

/-- A piece of a text is read as a text of its own, but for its positions. -/
theorem parse_piece {values : Values} {name : Option String} {ws : List Token} {e : Token}
    {s : Stmt} {l : Lexer} {piece : List Char} (hsource : l.source = name.getD shellName)
    (hy : (l.on piece).Yields ws e) (h : ReadsItems .standard e values ws [.statement s]) :
    let p := parse (String.ofList piece) name values
    p.2.diagnostics = [] ∧ p.1.statements = [s.relocate (.back (UInt32.ofNat l.pos))] := by
  intro p
  have hfresh := yields_source (String.ofList piece) name
  have hon : (Lexer.ofText (String.ofList piece) name).shift l.pos = l.on piece := by
    simp only [Lexer.ofText, Lexer.shift, Lexer.on, String.toList_ofList, ← hsource, Nat.zero_add]
  have hshift := hfresh.shift l.pos
  rw [hon] at hshift
  obtain ⟨hws, he⟩ := hshift.unique hy
  obtain ⟨items, hi⟩ := exists_readsItems (r := .standard) hfresh.ends rfl values _
  obtain ⟨hstmts, hdiags⟩ := parse_of_readsItems hfresh hi
  have hi' := hi.relocate (.shift l.pos)
  rw [hws, he] at hi'
  have hone := hi'.unique h
  rw [hstmts, hdiags]
  obtain ⟨item, rfl, hitem⟩ := List.map_eq_singleton_iff.mp hone
  cases item with
  | diagnostic => cases hitem
  | statement s' =>
      obtain rfl : s'.relocate (.shift l.pos) = s := Item.statement.inj hitem
      rw [Stmt.relocate_back_shift]
      exact ⟨rfl, rfl⟩

/-- A statement is what its own piece of the source is read as, without a diagnostic and with
nothing else, but for positions that count from where the statement starts. -/
theorem parse_slice {text : String} {name : Option String} {values : Values} {s : Stmt}
    (hc : Text.byteLength text.toList < UInt32.size)
    (hs : s ∈ (parse text name values).1.statements) :
    ∃ piece, Text.IsPiece text.toList s.span.start.offset.toNat s.span.stop.offset.toNat piece ∧
      let p := parse (String.ofList piece) name values
      p.2.diagnostics = [] ∧
        p.1.statements = [s.relocate (.back s.span.start.offset)] := by
  have hy := yields_source text name
  obtain ⟨items, hi⟩ := exists_readsItems (r := .standard) hy.ends rfl values _
  rw [(parse_of_readsItems hy hi).1] at hs
  obtain ⟨ts, us, hsuf, hn, hst⟩ := hi.exists_of_mem hs
  -- The lexer in front of the first token of the statement.
  generalize hl : ((Lexer.ofText text name).after (place text name ts)).skipBlanks = l
  have hskip : l.skipBlanks = l := hl ▸ Lexer.skipBlanks_skipBlanks _
  have hsource : l.source = name.getD shellName := hl ▸ Lexer.after_source ..
  have hstands : l.StandsIn text.toList :=
    hl ▸ ((Lexer.standsIn_ofText text name).after _).skipBlanks
  have hts : l.Yields ts (sourceEnd text name) := by
    have ha := hy.after (place text name ts)
    rw [drop_place hsuf] at ha
    exact ha.congr (Lexer.next_congr (hl ▸ Lexer.skipBlanks_skipBlanks _))
  obtain ⟨piece, after, ws, e, hrest, hspan, hpiece, hone⟩ := hst.exists_piece hn hts hstands hskip
  obtain ⟨before, htext, hpos⟩ := hstands
  rw [hrest, ← List.append_assoc] at htext
  have hlen : Text.byteLength before + Text.byteLength piece < UInt32.size := by
    rw [htext, Text.byteLength_append, Text.byteLength_append] at hc
    omega
  have hstart := Position.toNat_ofOffset l.source (n := l.pos) (by omega)
  have hstop :=
    Position.toNat_ofOffset l.source (n := l.pos + Text.byteLength piece) (by omega)
  refine ⟨piece, ?_, ?_⟩
  · rw [hspan, hstart, hstop, hpos]
    exact Text.isPiece htext
  · have hp := parse_piece hsource hpiece hone
    rw [hspan]
    exact hp

/-- In the text `let = 1; return a b ` the first statement is broken, and the skipped value of the
second one takes the blank at the end. -/
theorem parse_slice_runsOut :
    let text := "let = 1; return a b "
    let spanned (start stop : UInt32) : Span := ⟨⟨start, shellName⟩, ⟨stop, shellName⟩⟩
    let s : Stmt := .returning ⟨.returnWord, "return", spanned 9 15⟩ none (spanned 9 20)
    Text.byteLength text.toList < UInt32.size ∧ s ∈ (parse text none .skipped).1.statements ∧
      ∃ piece, Text.IsPiece text.toList 9 20 piece ∧
        let p := parse (String.ofList piece) none .skipped
        p.2.diagnostics = [] ∧ p.1.statements = [s.relocate (.back 9)] := by
  intro text spanned s
  have hc : Text.byteLength text.toList < UInt32.size := by decide +kernel
  have hs : s ∈ (parse text none .skipped).1.statements := by decide +kernel
  exact ⟨hc, hs, parse_slice hc hs⟩

end FrontEnd
