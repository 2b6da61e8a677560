import FrontEnd.Proofs.Printing
import FrontEnd.Proofs.Tiling

/-!
Lexing is the longest match. The literal of a token decides its kind, and no token could take in the
character behind it. There is one way only to tile a text with such tokens, so that nothing depends
on the order in which a lexeme is tried against the kinds.
-/

namespace FrontEnd

inductive Kind.Admits : Kind → String → Prop
  | spelled {k : Kind} {s : String} : k.spelling? = some s → Admits k s
  | name {s : String} : IsName s → Admits .identifier s
  | numeral {s : String} : IsNumeral s → Admits .integer s
  | illegal {c : Char} : isBlank c = false → isWordChar c = false → c.isDigit = false →
      (∀ k : Kind, k.spelling? ≠ some (String.ofList [c])) → Admits .illegal (String.ofList [c])

/-- The token is what the text has at a place, and as much of it as there can be. -/
structure Token.Fits (t : Token) (source : String) (cs : List Char) (place : Nat × Nat) : Prop where
  lies : t.LiesAt cs place
  source : t.span.start.source = source ∧ t.span.stop.source = source
  admitted : t.kind.Admits t.literal
  maximal : ∀ before after, cs = before ++ after → Text.byteLength before = place.2 →
    ∀ d ∈ after.head?, joins t.literal.toList d = false

structure LongestMatch (source : String) (cs : List Char) (start : Nat) (ts : List Token)
    (places : List (Nat × Nat)) : Prop where
  tokens : List.Forall₂ (fun t place => t.Fits source cs place) ts places
  gaps : ∀ place ∈ gaps start (Text.byteLength cs) places, Text.IsGap cs place

namespace Kind

theorem exists_read_of_spelling? {k : Kind} {s : String} (h : k.spelling? = some s) :
    ∃ c cs, s.toList = c :: cs ∧ isBlank c = false ∧
      Lexeme.read c cs = (⟨k, c :: cs⟩, []) := by
  cases k <;> cases h <;> exact ⟨_, _, rfl, rfl, rfl⟩

/-- A literal of a kind is read as a lexeme of the kind. -/
theorem Admits.exists_read {k : Kind} {s : String} (h : k.Admits s) :
    ∃ c cs, s.toList = c :: cs ∧ isBlank c = false ∧
      Lexeme.read c cs = (⟨k, c :: cs⟩, []) := by
  cases h with
  | spelled h => exact exists_read_of_spelling? h
  | name h =>
      obtain ⟨c, w, hs⟩ := List.exists_cons_of_ne_nil h.ne_nil
      obtain ⟨hc, hw⟩ := List.forall_mem_cons.mp (hs ▸ h.word)
      have hk : ofWord (String.ofList (c :: w)) = .identifier := by
        rw [← hs, String.ofList_toList, ofWord, h.free]
        rfl
      refine ⟨c, w, hs, isBlank_eq_false_of_isWordChar hc, ?_⟩
      rw [Lexeme.read_of_word w hc, List.takeWhile_eq_self_iff.mpr hw,
        List.dropWhile_eq_nil_iff.mpr hw, hk]
  | numeral h =>
      obtain ⟨c, w, hs⟩ := List.exists_cons_of_ne_nil h.ne_nil
      obtain ⟨hc, hw⟩ := List.forall_mem_cons.mp (hs ▸ h.digit)
      refine ⟨c, w, hs, isBlank_eq_false_of_isDigit hc, ?_⟩
      rw [Lexeme.read_of_digit w (isWordChar_eq_false_of_isDigit hc) hc,
        List.takeWhile_eq_self_iff.mpr hw, List.dropWhile_eq_nil_iff.mpr hw]
  | @illegal c hb hw hd hn =>
      have hk : ofSymbol? c = none := Option.eq_none_iff_forall_ne_some.mpr fun k hk =>
        hn k (spelling?_of_ofSymbol? hk)
      refine ⟨c, [], String.toList_ofList, hb, ?_⟩
      rw [Lexeme.read_of_sign hw hd (by simp), hk]
      rfl

theorem Admits.ne_eof {k : Kind} {s : String} (h : k.Admits s) : k ≠ .eof := by
  cases h with
  | spelled h =>
      rintro rfl
      contradiction
  | name | numeral | illegal => decide

/-- A literal belongs to one kind. -/
theorem Admits.unique {k k' : Kind} {s : String} (h : k.Admits s) (h' : k'.Admits s) : k = k' := by
  obtain ⟨c, cs, hs, -, hr⟩ := h.exists_read
  obtain ⟨c', cs', hs', -, hr'⟩ := h'.exists_read
  cases hs.symm.trans hs'
  cases hr.symm.trans hr'
  rfl

end Kind

theorem Token.Spelled.admits {t : Token} (h : t.Spelled) (he : t.kind ≠ .eof)
    (hi : t.kind ≠ .illegal) : t.kind.Admits t.literal := by
  cases hs : t.kind.spelling? with
  | some s => exact .spelled (hs.trans (congrArg some (h.sign s hs).symm))
  | none =>
      cases hk : t.kind with
      | illegal => contradiction
      | eof => contradiction
      | identifier => exact .name (h.name hk)
      | integer => exact .numeral (h.numeral hk)
      | _ => simp [hk, Kind.spelling?] at hs

namespace Lexeme

variable {c : Char} {cs : List Char}

/-- Only what is no word, no number and no sign is illegal. -/
theorem read_of_illegal (h : (read c cs).1.kind = .illegal) :
    isWordChar c = false ∧ c.isDigit = false ∧ Kind.ofSymbol? c = none ∧
      (read c cs).1.text = [c] := by
  rw [read.eq_def] at h ⊢
  split at h
  · next hw =>
      have hn : ∀ k ∈ Kind.identifier :: Kind.reserved.map Prod.snd, k ≠ .illegal := by decide
      exact absurd h (hn _ (Kind.ofWord_mem _))
  · next hw =>
      split at h
      · contradiction
      · next hd =>
          rw [if_neg hw, if_neg hd]
          split at h
          · contradiction
          · contradiction
          · refine ⟨Bool.eq_false_iff.mpr hw, Bool.eq_false_iff.mpr hd, ?_, rfl⟩
            cases hk : Kind.ofSymbol? c with
            | none => rfl
            | some k =>
                have hs := Kind.spelling?_of_ofSymbol? hk
                simp only [hk, Option.getD_some] at h
                rw [h] at hs
                contradiction

/-- The kind of a lexeme has its text among its literals. -/
theorem read_admits (hb : isBlank c = false) :
    (read c cs).1.kind.Admits (String.ofList (read c cs).1.text) := by
  by_cases hi : (read c cs).1.kind = .illegal
  · obtain ⟨hw, hd, hk, ht⟩ := read_of_illegal hi
    rw [hi, ht]
    refine .illegal hb hw hd fun k hs => ?_
    -- The character alone would be read as a sign of the kind.
    obtain ⟨c', cs', hc, -, hr⟩ := Kind.exists_read_of_spelling? hs
    rw [String.toList_ofList] at hc
    cases hc
    rw [read_of_sign hw hd (by simp), hk] at hr
    cases hr
    contradiction
  · exact (read_spelled c cs).admits (read_kind_ne_eof c cs) hi

/-- A lexeme does not go on into the character behind it. -/
theorem joins_read : ∀ d ∈ (read c cs).2.head?, joins (read c cs).1.text d = false := by
  intro d hd
  cases hw : isWordChar c with
  | true =>
      rw [read_of_word cs hw] at hd ⊢
      have hn := List.head?_dropWhile_not isWordChar cs
      rw [show (cs.dropWhile isWordChar).head? = some d from hd] at hn
      simpa [joins, hw] using hn
  | false =>
      cases hc : c.isDigit with
      | true =>
          rw [read_of_digit cs hw hc] at hd ⊢
          have hn := List.head?_dropWhile_not Char.isDigit cs
          rw [show (cs.dropWhile Char.isDigit).head? = some d from hd] at hn
          simpa [joins, hw, hc] using hn
      | false =>
          by_cases hp : (c = '=' ∨ c = '!') ∧ cs.head? = some '='
          · obtain ⟨rfl | rfl, he⟩ := hp
            · obtain ⟨cs, rfl⟩ := List.head?_eq_some_iff.mp he
              rfl
            · obtain ⟨cs, rfl⟩ := List.head?_eq_some_iff.mp he
              rfl
          · have hs : c = '=' ∨ c = '!' → cs.head? ≠ some '=' := fun hc he => hp ⟨hc, he⟩
            rw [read_of_sign hw hc hs] at hd ⊢
            simp only [joins, hw, hc, List.isEmpty_nil, Bool.true_and]
            apply Bool.eq_false_iff.mpr
            intro hj
            obtain ⟨hc, rfl⟩ : (c = '=' ∨ c = '!') ∧ d = '=' := by simpa using hj
            exact hs hc hd

end Lexeme

/-- An offset cuts a text in one way. -/
theorem Text.append_inj_of_byteLength {before before' after after' : List Char}
    (h : before ++ after = before' ++ after') (hl : byteLength before = byteLength before') :
    before = before' ∧ after = after' := by
  have ha : dropBytes? (byteLength before) (before ++ after) = some after' := by
    rw [h, hl, dropBytes?_byteLength]
  rw [dropBytes?_byteLength] at ha
  cases ha
  exact ⟨List.append_cancel_right h, rfl⟩

theorem Text.IsPiece.exists_append {before rest piece : List Char} {stop : Nat}
    (h : IsPiece (before ++ rest) (byteLength before) stop piece) :
    ∃ after, rest = piece ++ after ∧ stop = byteLength (before ++ piece) := by
  obtain ⟨before', after, hcs, hstart, hstop⟩ := h
  rw [List.append_assoc] at hcs
  obtain ⟨rfl, rfl⟩ := append_inj_of_byteLength hcs hstart.symm
  exact ⟨after, rfl, hstop.symm⟩

theorem Span.Marks.eq {s : Span} {source : String} {start stop : Nat} (h : s.Marks start stop)
    (hs : s.start.source = source ∧ s.stop.source = source) :
    s = ⟨.ofOffset source start, .ofOffset source stop⟩ := by
  have ho : s.start.offset = UInt32.ofNat start :=
    UInt32.toNat_inj.mp (h.1.trans UInt32.toNat_ofNat.symm)
  have ho' : s.stop.offset = UInt32.ofNat stop :=
    UInt32.toNat_inj.mp (h.2.trans UInt32.toNat_ofNat.symm)
  rw [Position.ofOffset, Position.ofOffset, ← ho, ← ho']
  obtain ⟨⟨o, a⟩, ⟨o', b⟩⟩ := s
  obtain ⟨rfl, rfl⟩ : a = source ∧ b = source := hs
  rfl

/-- A token fits where the text behind it does not make it longer. -/
theorem Token.LiesAt.fits {t : Token} {source : String} {cs : List Char} {place : Nat × Nat}
    (h : t.LiesAt cs place) (hs : t.span.start.source = source ∧ t.span.stop.source = source)
    (ha : t.kind.Admits t.literal) (before after : List Char) (hcs : cs = before ++ after)
    (hl : Text.byteLength before = place.2)
    (hj : ∀ d ∈ after.head?, joins t.literal.toList d = false) : t.Fits source cs place := by
  refine ⟨h, hs, ha, fun before' after' hcs' hl' => ?_⟩
  obtain ⟨-, rfl⟩ := Text.append_inj_of_byteLength (hcs.symm.trans hcs') (hl.trans hl'.symm)
  exact hj

namespace Lexer

variable {l : Lexer} {cs : List Char} {ts : List Token} {ending : Token}

theorem next_admits (hk : l.next.1.kind ≠ .eof) : l.next.1.kind.Admits l.next.1.literal := by
  cases hr : l.skipBlanks.rest with
  | nil =>
      rw [next_of_rest_nil hr] at hk
      contradiction
  | cons c cs =>
      rw [next_of_rest_cons hr]
      exact Lexeme.read_admits (isBlank_eq_false_of_skipBlanks hr)

theorem joins_next (hk : l.next.1.kind ≠ .eof) :
    ∀ d ∈ l.next.2.rest.head?, joins l.next.1.literal.toList d = false := by
  cases hr : l.skipBlanks.rest with
  | nil =>
      rw [next_of_rest_nil hr] at hk
      contradiction
  | cons c cs =>
      rw [next_of_rest_cons hr]
      simp only [String.toList_ofList]
      exact Lexeme.joins_read

theorem StandsIn.fits (h : l.StandsIn cs) (hk : l.next.1.kind ≠ .eof) :
    l.next.1.Fits l.source cs (l.skipBlanks.pos, l.next.2.pos) := by
  obtain ⟨before, hcs, hp⟩ := h.next
  obtain ⟨-, -, -, hs⟩ := next_cut hk
  exact (h.liesAt hk).fits (by rw [hs]; exact ⟨rfl, rfl⟩) (next_admits hk) before _ hcs hp.symm
    (joins_next hk)

/-- Where there are only blanks left, the text ends. -/
theorem StandsIn.kind_of_gap (h : l.StandsIn cs)
    (hg : Text.IsGap cs (l.pos, Text.byteLength cs)) : l.next.1.kind = .eof := by
  obtain ⟨before, rfl, hp⟩ := h
  obtain ⟨blanks, hpiece, hb⟩ := hg.blank
  rw [hp] at hpiece
  obtain ⟨after, hr, hlen⟩ := hpiece.exists_append
  have ha : after = [] := by
    by_contra hn
    have hpos := Text.byteLength_pos hn
    simp only [hr, Text.byteLength_append] at hlen
    omega
  have hd : l.skipBlanks.rest = [] := by
    rw [ha, List.append_nil] at hr
    exact List.dropWhile_eq_nil_iff.mpr (hr ▸ hb)
  rw [next_of_rest_nil hd]

/-- What a lexer yields is a longest match of the text that is left. -/
theorem Yields.longestMatch (h : l.Yields ts ending) (hl : l.StandsIn cs) :
    LongestMatch l.source cs l.pos ts l.places := by
  refine ⟨?_, (h.tiles hl).1.gaps⟩
  induction ts generalizing l with
  | nil =>
      rw [places_of_eof (h.next_fst ▸ h.ends)]
      exact .nil
  | cons t ts ih =>
      have ht : l.next.1 = t := h.next_fst
      have hk : l.next.1.kind ≠ .eof := ht ▸ h.proper t (List.mem_cons_self ..)
      rw [places_of_ne_eof hk, ← ht]
      exact .cons (hl.fits hk) (l.next_source ▸ ih h.next_snd hl.next)

/-- In front of a literal that does not go on, a token with that literal is read. -/
theorem next_of_admits {blanks after : List Char} {k : Kind} {s : String}
    (hr : l.rest = blanks ++ (s.toList ++ after)) (hb : ∀ c ∈ blanks, isBlank c = true)
    (hk : k.Admits s) (hj : ∀ d ∈ after.head?, joins s.toList d = false) :
    let start := l.pos + Text.byteLength blanks
    let stop := start + Text.byteLength s.toList
    l.next = (⟨k, s, ⟨.ofOffset l.source start, .ofOffset l.source stop⟩⟩,
      ⟨l.source, stop, after⟩) := by
  intro start stop
  obtain ⟨c, cs, hs, hc, hread⟩ := hk.exists_read
  rw [hs, List.cons_append] at hr
  have hn : ∀ d ∈ (c :: (cs ++ after)).head?, isBlank d = false := by simpa using hc
  obtain ⟨ht, hd⟩ := span_eq hb hn
  have hskip : l.skipBlanks = ⟨l.source, start, c :: (cs ++ after)⟩ := by
    simp only [skipBlanks, hr, ht, hd]
    rfl
  have happ : Lexeme.read c (cs ++ after) = (⟨k, c :: cs⟩, after) := by
    rw [Lexeme.read_append (by rw [hread, ← hs]; exact fun _ => hj), hread]
    rfl
  rw [next_of_rest_cons (by rw [hskip]), hskip, happ]
  simp only [← hs, String.ofList_toList]
  rfl

end Lexer

/-- The first token of a longest match is the next one. -/
theorem Token.Fits.next_eq {l : Lexer} {t : Token} {cs : List Char} {place : Nat × Nat}
    (h : t.Fits l.source cs place) (hg : Text.IsGap cs (l.pos, place.1)) (hl : l.StandsIn cs) :
    l.next.1 = t ∧ l.next.2.pos = place.2 := by
  obtain ⟨before, rfl, hp⟩ := hl
  obtain ⟨blanks, hgap, hb⟩ := hg.blank
  simp only [hp] at hgap
  obtain ⟨rest, hrest, hstart⟩ := hgap.exists_append
  have hlit := h.lies.literal
  rw [hstart, hrest, ← List.append_assoc] at hlit
  obtain ⟨after, rfl, hstop⟩ := hlit.exists_append
  have hj := h.maximal (before ++ blanks ++ t.literal.toList) after
    (by rw [hrest]; simp only [List.append_assoc]) hstop.symm
  have hn := Lexer.next_of_admits hrest hb h.admitted hj
  rw [Text.byteLength_append, ← hstart] at hstop
  rw [Text.byteLength_append, ← hp] at hstart
  rw [hn, ← hstart, ← hstop]
  refine ⟨?_, rfl⟩
  rw [← h.lies.span.eq h.source]

/-- A longest match is what the lexer yields. -/
theorem LongestMatch.yields {l : Lexer} {cs : List Char} {ts : List Token}
    {places : List (Nat × Nat)} (h : LongestMatch l.source cs l.pos ts places)
    (hl : l.StandsIn cs) : l.Yields ts (.last l.source cs) := by
  induction ts generalizing l places with
  | nil =>
      obtain ⟨ht, hg⟩ := h
      cases ht
      have hk := hl.kind_of_gap (hg _ (List.mem_singleton_self _))
      exact .nil (hl.next_of_eof hk) rfl
  | cons t ts ih =>
      obtain ⟨ht, hg⟩ := h
      cases ht with
      | cons ht hts =>
          obtain ⟨hfirst, hrest⟩ := List.forall_mem_cons.mp hg
          obtain ⟨hn, hp⟩ := ht.next_eq hfirst hl
          rw [← hp] at hrest
          have hi := ih ⟨l.next_source.symm ▸ hts, hrest⟩ hl.next
          rw [l.next_source] at hi
          exact .cons hn ht.admitted.ne_eof hi

/-- Tokens are the longest matches of their text. The kind of each one is settled by its literal,
none goes on into the character behind it, and no other list of such tokens tiles the text. -/
theorem tokenize_longest_match (text : String) (name : Option String) :
    let source := name.getD shellName
    let cs := text.toList
    (∀ t ∈ tokenize text name, t.kind ≠ .eof → ∀ k, t.kind = k ↔ k.Admits t.literal) ∧
      (∃ ts places, tokenize text name = ts ++ [.last source cs] ∧
        LongestMatch source cs 0 ts places) ∧
      ∀ ts places, LongestMatch source cs 0 ts places →
        tokenize text name = ts ++ [.last source cs] := by
  intro source cs
  have hy := yields_source text name
  have hl := Lexer.standsIn_ofText text name
  have hm : LongestMatch source cs 0 (sourceTokens text name) _ := hy.longestMatch hl
  have he : sourceEnd text name = .last source cs := (hy.tiles hl).2
  refine ⟨fun t ht hk k => ?_, ⟨_, _, he ▸ hy.tokens, hm⟩, fun ts places h => ?_⟩
  · have hmem : t ∈ sourceTokens text name := by
      rw [tokenize_eq] at ht
      rcases List.mem_append.mp ht with ht | ht
      · exact ht
      · exact absurd (List.mem_singleton.mp ht ▸ hy.ends) hk
    obtain ⟨i, hi, rfl⟩ := List.getElem_of_mem hmem
    have ha := (hm.tokens.get hi (hm.tokens.length_eq ▸ hi)).admitted
    exact ⟨fun h => h ▸ ha, fun h => ha.unique h⟩
  · exact (LongestMatch.yields (l := .ofText text name) h hl).tokens

/-- Of three equals signs in a row the first two are one token. -/
theorem tokenize_equals_assignment :
    let spanned (start stop : UInt32) : Span := ⟨⟨start, "shell"⟩, ⟨stop, "shell"⟩⟩
    let ts : List Token :=
      [⟨.equals, "==", spanned 0 2⟩, ⟨.assignment, "=", spanned 2 3⟩,
        ⟨.identifier, "a", spanned 4 5⟩]
    LongestMatch "shell" "=== a".toList 0 ts [(0, 2), (2, 3), (4, 5)] ∧
      tokenize "=== a" none = ts ++ [.last "shell" "=== a".toList] := by
  intro spanned ts
  have hm : LongestMatch "shell" "=== a".toList 0 ts [(0, 2), (2, 3), (4, 5)] := by
    refine ⟨.cons ?_ (.cons ?_ (.cons ?_ .nil)), ?_⟩
    · refine Token.LiesAt.fits ⟨by decide, ?_, rfl, rfl⟩ ⟨rfl, rfl⟩ (.spelled rfl)
        ['=', '='] ['=', ' ', 'a'] rfl rfl (fun d hd => by cases hd; decide)
      exact ⟨[], ['=', ' ', 'a'], by decide⟩
    · refine Token.LiesAt.fits ⟨by decide, ?_, rfl, rfl⟩ ⟨rfl, rfl⟩ (.spelled rfl)
        ['=', '=', '='] [' ', 'a'] rfl rfl (fun d hd => by cases hd; decide)
      exact ⟨['=', '='], [' ', 'a'], by decide⟩
    · refine Token.LiesAt.fits ⟨by decide, ?_, rfl, rfl⟩ ⟨rfl, rfl⟩
        (.name ⟨by decide, by simp [isWordChar], rfl⟩) ['=', '=', '=', ' ', 'a'] [] rfl rfl nofun
      exact ⟨['=', '=', '=', ' '], [], by decide⟩
    · intro place hp
      simp only [gaps, List.mem_cons, List.mem_nil_iff, or_false] at hp
      rcases hp with rfl | rfl | rfl | rfl
      · exact ⟨by decide, [], ⟨[], ['=', '=', '=', ' ', 'a'], by decide⟩, nofun⟩
      · exact ⟨by decide, [], ⟨['=', '='], ['=', ' ', 'a'], by decide⟩, nofun⟩
      · exact ⟨by decide, [' '], ⟨['=', '=', '='], ['a'], by decide⟩, by simp [isBlank]⟩
      · exact ⟨by decide, [], ⟨['=', '=', '=', ' ', 'a'], [], by decide⟩, nofun⟩
  exact ⟨hm, (tokenize_longest_match "=== a" none).2.2 ts _ hm⟩

end FrontEnd
