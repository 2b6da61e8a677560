import FrontEnd.Proofs.LongestMatch

/-!
Lexing two texts put together. The tokens are those of the one text and those of the other, moved
on, exactly where the last token of the first text does not go on into the second. So wherever a
text is cut, one character tells whether lexing can be cut there, too.
-/

namespace FrontEnd

def Kind.Joins (k : Kind) (d : Char) : Prop :=
  match k with
  | .identifier | .fnWord | .letWord | .trueWord | .falseWord | .ifWord | .elseWord
  | .returnWord => isWordChar d = true
  | .integer => d.isDigit = true
  | .assignment | .not => d = '='
  | _ => False

/-- The last token of the text ends where the text does, and it would take in the character that the
other text begins with. -/
def GoesOn (text rest : String) (name : Option String) : Prop :=
  ∃ ts t places place, sourceTokens text name = ts ++ [t] ∧
    Tiles text.toList 0 (ts ++ [t]) (places ++ [place]) ∧
    place.2 = Text.byteLength text.toList ∧ ∃ d ∈ rest.toList.head?, t.kind.Joins d

namespace Kind.Admits

variable {k : Kind} {s : String}

/-- The kind of a token tells what its literal goes on into. -/
theorem joins_iff (h : k.Admits s) (d : Char) : joins s.toList d = true ↔ k.Joins d := by
  cases h with
  | spelled h => cases k <;> cases h <;> simp [joins, Kind.Joins, isWordChar]
  | name h =>
      obtain ⟨c, w, hs⟩ := List.exists_cons_of_ne_nil h.ne_nil
      have hc := (List.forall_mem_cons.mp (hs ▸ h.word)).1
      simp [hs, joins, hc, Kind.Joins]
  | numeral h =>
      obtain ⟨c, w, hs⟩ := List.exists_cons_of_ne_nil h.ne_nil
      have hc := (List.forall_mem_cons.mp (hs ▸ h.digit)).1
      simp [hs, joins, isWordChar_eq_false_of_isDigit hc, hc, Kind.Joins]
  | @illegal c _ hw hd hn =>
      have hc : c ≠ '=' ∧ c ≠ '!' := by
        constructor
        · rintro rfl
          exact hn .assignment rfl
        · rintro rfl
          exact hn .not rfl
      simp [joins, hw, hd, hc, Kind.Joins]

theorem isBlank_eq_false (h : k.Admits s) : ∀ d ∈ s.toList, isBlank d = false := by
  obtain ⟨c, cs, hs, hb, hr⟩ := h.exists_read
  have hm := Lexeme.isBlank_of_mem_read cs hb
  rw [hr] at hm
  rw [hs]
  exact hm

theorem ne_nil (h : k.Admits s) : s.toList ≠ [] := by
  obtain ⟨c, cs, hs, -⟩ := h.exists_read
  rw [hs]
  exact List.cons_ne_nil c cs

end Kind.Admits

/-- A literal that a text ends in has no blanks behind it. -/
theorem eq_nil_of_suffix_append {k : Kind} {s : String} {cs blanks : List Char} (hk : k.Admits s)
    (hb : ∀ c ∈ blanks, isBlank c = true) (h : s.toList <:+ cs ++ blanks) : blanks = [] := by
  by_contra hn
  have hl := h.getLast hk.ne_nil
  rw [List.getLast_append_of_ne_nil _ hn] at hl
  have hlit := hk.isBlank_eq_false _ (List.getLast_mem hk.ne_nil)
  rw [hl, hb _ (List.getLast_mem hn)] at hlit
  contradiction

namespace Lexer

variable {l : Lexer} {ts us : List Token} {ending ending' : Token} {ds : List Char}

/-- In front of the literal of a token there are blanks alone. -/
theorem exists_blanks_of_next (hk : l.next.1.kind ≠ .eof) :
    ∃ blanks, (∀ c ∈ blanks, isBlank c = true) ∧
      l.rest = blanks ++ (l.next.1.literal.toList ++ l.next.2.rest) ∧
      l.next.2.pos =
        l.pos + Text.byteLength blanks + Text.byteLength l.next.1.literal.toList := by
  obtain ⟨-, hcut, hpos, -⟩ := next_cut hk
  refine ⟨l.rest.takeWhile isBlank, fun c => List.mem_takeWhile_imp, ?_, hpos⟩
  rw [← hcut]
  exact List.takeWhile_append_dropWhile.symm

theorem Yields.isBlank_of_nil (h : l.Yields [] ending) : ∀ c ∈ l.rest, isBlank c = true := by
  have hr := skipBlanks_rest_nil_of_eof (h.eq_nil_iff.mpr rfl)
  simpa [skipBlanks, List.dropWhile_eq_nil_iff] using hr

theorem Yields.admits (h : l.Yields ts ending) : ∀ t ∈ ts, t.kind.Admits t.literal := by
  induction ts generalizing l with
  | nil => exact List.forall_mem_nil _
  | cons t ts ih =>
      have ht : l.next.1 = t := h.next_fst
      have hk : l.next.1.kind ≠ .eof := ht ▸ h.proper t (List.mem_cons_self ..)
      exact List.forall_mem_cons.mpr ⟨ht ▸ next_admits hk, ih h.next_snd⟩

theorem Yields.literal_infix (h : l.Yields ts ending) : ∀ t ∈ ts, t.literal.toList <:+: l.rest := by
  induction ts generalizing l with
  | nil => exact List.forall_mem_nil _
  | cons t ts ih =>
      have ht : l.next.1 = t := h.next_fst
      have hs := next_literal_append_suffix (ht ▸ h.proper t (List.mem_cons_self ..))
      rw [ht] at hs
      refine List.forall_mem_cons.mpr ⟨?_, fun u hu => ?_⟩
      · exact (List.prefix_append _ _).isInfix.trans hs.isInfix
      · have hrest := (List.suffix_append _ _).trans hs
        exact (ih h.next_snd u hu).trans hrest.isInfix

/-- A token at the end of its text that stays what it is when more text follows does not go on into
that. -/
theorem joins_of_next_append (hk : l.next.1.kind ≠ .eof) (hr : l.next.2.rest = [])
    (hn : (l.append ds).next.1 = l.next.1) :
    ∀ d ∈ ds.head?, joins l.next.1.literal.toList d = false := by
  have hcut := (next_cut hk).2.1
  have hs : l.skipBlanks.rest ≠ [] := by
    rw [hcut]
    exact List.append_ne_nil_of_left_ne_nil (next_cut hk).1 _
  have hka : (l.append ds).next.1.kind ≠ .eof := hn ▸ hk
  have hcut' := (next_cut hka).2.1
  rw [skipBlanks_append hs, append, hn, hcut, hr, List.append_nil] at hcut'
  have hj := joins_next hka
  rwa [hn, ← List.append_cancel_left hcut'] at hj

/-- Where the tokens of a text stay what they are when more text follows, nothing fuses. -/
theorem Yields.not_fuses (h : l.Yields ts ending) (h' : (l.append ds).Yields (ts ++ us) ending') :
    ¬ Fuses ts l.rest ds := by
  induction ts generalizing l with
  | nil =>
      rintro ⟨t, ht, -⟩
      contradiction
  | cons t ts ih =>
      have ht : l.next.1 = t := h.next_fst
      have hk : l.next.1.kind ≠ .eof := ht ▸ h.proper t (List.mem_cons_self ..)
      have hta : (l.append ds).next.1 = l.next.1 := h'.next_fst.trans ht.symm
      have hs := next_literal_append_suffix hk
      rintro ⟨u, hu, hsuf, d, hd, hj⟩
      cases ts with
      | nil =>
          obtain rfl : t = u := by simpa using hu
          -- The literal is all that is left of the text behind the blanks.
          have hr : l.next.2.rest = [] := by
            obtain ⟨before, hb⟩ := hs
            rw [← hb, ← List.append_assoc] at hsuf
            exact eq_nil_of_suffix_append (ht ▸ next_admits hk) h.next_snd.isBlank_of_nil hsuf
          have hn := joins_of_next_append hk hr hta d hd
          rw [ht, hj] at hn
          contradiction
      | cons v ts =>
          have hm : u ∈ v :: ts := List.mem_of_getLast? (by simpa using hu)
          have hrest : l.next.2.rest ≠ [] := by
            intro hr
            have hl := h.next_snd.length_le
            rw [hr] at hl
            exact absurd hl (Nat.not_succ_le_zero _)
          have hna : (l.append ds).next = (l.next.1, l.next.2.append ds) :=
            next_append hk fun hr => absurd hr hrest
          have hsa := h'.next_snd
          rw [hna] at hsa
          refine ih h.next_snd hsa ⟨u, by simpa using hu, ?_, d, hd, hj⟩
          have hle := (h.next_snd.literal_infix u hm).length_le
          exact List.suffix_of_suffix_length_le hsuf ((List.suffix_append _ _).trans hs) hle

end Lexer

theorem mem_gaps_last (start stop : Nat) (places : List (Nat × Nat)) (place : Nat × Nat) :
    (place.2, stop) ∈ gaps start stop (places ++ [place]) := by
  induction places generalizing start with
  | nil => exact List.mem_cons_of_mem _ (List.mem_singleton_self _)
  | cons p places ih => exact List.mem_cons_of_mem _ (ih p.2)

theorem Text.IsPiece.exists_eq_append {cs piece : List Char} {start : Nat}
    (h : IsPiece cs start (byteLength cs) piece) :
    ∃ before, cs = before ++ piece ∧ byteLength before = start := by
  obtain ⟨before, after, rfl, hstart, hstop⟩ := h
  have ha : after = [] := by
    by_contra hn
    have hpos := byteLength_pos hn
    rw [byteLength_append (before ++ piece)] at hstop
    omega
  exact ⟨before, by rw [ha, List.append_nil], hstart⟩

/-- The last token ends where the text does if and only if the text ends in its literal. -/
theorem Tiles.stop_eq_iff {cs : List Char} {ts : List Token} {t : Token}
    {places : List (Nat × Nat)} {place : Nat × Nat}
    (h : Tiles cs 0 (ts ++ [t]) (places ++ [place])) (ht : t.kind.Admits t.literal) :
    place.2 = Text.byteLength cs ↔ t.literal.toList <:+ cs := by
  have hlies : t.LiesAt cs place := by
    have hr := List.forall₂_reverse_iff.mpr h.tokens
    rw [List.reverse_append, List.reverse_append] at hr
    cases hr with
    | cons ht _ => exact ht
  constructor
  · intro hp
    obtain ⟨before, rfl, -⟩ := (hp ▸ hlies.literal).exists_eq_append
    exact List.suffix_append _ _
  · intro hs
    obtain ⟨-, blanks, hpiece, hb⟩ := h.gaps _ (mem_gaps_last 0 _ places place)
    obtain ⟨before, rfl, hstart⟩ := hpiece.exists_eq_append
    rw [eq_nil_of_suffix_append ht hb hs, List.append_nil, hstart]

/-- What goes on into the next text is what fuses with it. -/
theorem fuses_iff_goesOn (text rest : String) (name : Option String) :
    Fuses (sourceTokens text name) text.toList rest.toList ↔ GoesOn text rest name := by
  have hy := yields_source text name
  constructor
  · rintro ⟨t, ht, hs, d, hd, hj⟩
    obtain ⟨ts, hts⟩ := List.getLast?_eq_some_iff.mp ht
    have htiles := (hy.tiles (Lexer.standsIn_ofText text name)).1
    have hk := hy.admits t (List.mem_of_getLast? ht)
    generalize (Lexer.ofText text name).places = ps at htiles
    rw [hts] at htiles
    obtain ⟨places, place, rfl⟩ : ∃ places place, ps = places ++ [place] := by
      have hl := htiles.tokens.length_eq
      have hn : ps ≠ [] := by
        rintro rfl
        simp at hl
      exact ⟨_, _, (List.dropLast_append_getLast hn).symm⟩
    exact ⟨ts, t, places, place, hts, htiles, (htiles.stop_eq_iff hk).mpr hs, d, hd,
      (hk.joins_iff d).mp hj⟩
  · rintro ⟨ts, t, places, place, hts, htiles, hp, d, hd, hj⟩
    have ht : t ∈ (sourceTokens text name).getLast? := by simp [hts]
    have hk := hy.admits t (List.mem_of_getLast? ht)
    exact ⟨t, ht, (htiles.stop_eq_iff hk).mp hp, d, hd, (hk.joins_iff d).mpr hj⟩

/-- The text that is put behind another is lexed as it stands there. -/
theorem Lexer.beyond_ofText (text rest : String) (name : Option String) :
    (ofText text name).beyond rest.toList =
      (ofText rest name).shift (Text.byteLength text.toList) := by
  simp [beyond, shift, ofText]

theorem Lexer.append_ofText (text rest : String) (name : Option String) :
    (ofText text name).append rest.toList = ofText (text ++ rest) name := by
  simp [append, ofText]

/-- Two texts can be lexed one by one if and only if the last token of the first one does not go on
into the second. -/
theorem tokenize_append_iff (text rest : String) (name : Option String) :
    tokenize (text ++ rest) name =
        (tokenize text name).dropLast ++
          (tokenize rest name).map (Token.relocate (.shift (Text.byteLength text.toList))) ↔
      ¬ GoesOn text rest name := by
  have hy := yields_source text name
  have hr := (yields_source rest name).shift (Text.byteLength text.toList)
  rw [← Lexer.beyond_ofText] at hr
  rw [← fuses_iff_goesOn, ← sourceTokens, tokenize_eq rest, List.map_append, ← List.append_assoc]
  constructor
  · intro heq
    rw [tokenize, ← Lexer.append_ofText] at heq
    exact hy.not_fuses ⟨heq, hr.ends, List.forall_mem_append.mpr ⟨hy.proper, hr.proper⟩⟩
  · intro hf
    have ha := hy.append hr hf
    rw [Lexer.append_ofText] at ha
    exact ha.tokens

end FrontEnd
