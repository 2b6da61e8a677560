import FrontEnd.Parser

/-!
Windows seen as lists of tokens. A window shows the tokens from the current one up to the end of
the text, and after them the token that ends the text, as often as it is asked for. Advancing drops
the first token of the list. Whatever else a window holds, the parser never looks at.
-/

namespace FrontEnd

theorem Kind.ofWord_mem (word : String) : ofWord word ∈ .identifier :: reserved.map Prod.snd := by
  rw [ofWord]
  cases h : reserved.lookup word with
  | none => simp
  | some k =>
      obtain ⟨l₁, l₂, hl, -⟩ := List.lookup_eq_some_iff.mp h
      simp [hl]

theorem Kind.ofWord_ne_eof (word : String) : ofWord word ≠ .eof := by
  have hn : ∀ k ∈ identifier :: reserved.map Prod.snd, k ≠ .eof := by decide
  exact hn _ (ofWord_mem word)

theorem Kind.ofSymbol?_ne_eof (c : Char) : (Kind.ofSymbol? c).getD .illegal ≠ .eof := by
  rw [Kind.ofSymbol?.eq_def]
  split <;> simp

theorem Lexeme.read_kind_ne_eof (c : Char) (cs : List Char) : (read c cs).1.kind ≠ .eof := by
  rw [read.eq_def]
  split
  · exact Kind.ofWord_ne_eof _
  · split
    · simp
    · split
      · simp
      · simp
      · exact Kind.ofSymbol?_ne_eof _

/-- The first token of a list, or the one that ends the text if there is none. -/
def front (ending : Token) : List Token → Token
  | [] => ending
  | t :: _ => t

@[simp] theorem front_nil (ending : Token) : front ending [] = ending := rfl

@[simp] theorem front_cons (ending t : Token) (ts : List Token) : front ending (t :: ts) = t := rfl

namespace Lexer

/-- The lexer yields the tokens of a list, and the text ends with the last token. -/
structure Yields (l : Lexer) (ts : List Token) (ending : Token) : Prop where
  tokens : l.tokens = ts ++ [ending]
  ends : ending.kind = .eof
  proper : ∀ t ∈ ts, t.kind ≠ .eof

theorem tokens_of_eof {l : Lexer} (h : l.next.1.kind = .eof) : l.tokens = [l.next.1] := by
  rw [tokens, if_pos h]

theorem tokens_of_ne_eof {l : Lexer} (h : l.next.1.kind ≠ .eof) :
    l.tokens = l.next.1 :: l.next.2.tokens := by
  rw [tokens, if_neg h]

theorem exists_yields (l : Lexer) : ∃ ts ending, l.Yields ts ending := by
  induction l using Lexer.tokens.induct with
  | case1 l h => exact ⟨[], _, by simp [tokens_of_eof h], h, by simp⟩
  | case2 l h ih =>
      obtain ⟨ts, ending, ht, he, hp⟩ := ih
      refine ⟨l.next.1 :: ts, ending, by simp [tokens_of_ne_eof h, ht], he, ?_⟩
      simpa using ⟨h, hp⟩

theorem skipBlanks_rest_nil_of_eof {l : Lexer} (h : l.next.1.kind = .eof) :
    l.skipBlanks.rest = [] := by
  simp only [next] at h
  split at h
  · assumption
  · exact absurd h (Lexeme.read_kind_ne_eof _ _)

theorem skipBlanks_of_rest_nil {l : Lexer} (h : l.rest = []) : l.skipBlanks = l := by
  cases l
  cases h
  rfl

theorem next_of_rest_nil {l : Lexer} (h : l.skipBlanks.rest = []) :
    l.next = (⟨.eof, "", l.skipBlanks.spanFrom l.skipBlanks.pos⟩, l.skipBlanks) := by
  simp only [next]
  split
  · rfl
  · simp_all

/-- At the end of the text every token is the same. -/
theorem next_next_of_eof {l : Lexer} (h : l.next.1.kind = .eof) : l.next.2.next = l.next := by
  have hr := skipBlanks_rest_nil_of_eof h
  have hs := skipBlanks_of_rest_nil hr
  rw [next_of_rest_nil hr]
  simp only
  rw [next_of_rest_nil (by rw [hs, hr]), hs]

namespace Yields

variable {l : Lexer} {ts : List Token} {ending : Token}

theorem next_fst (h : l.Yields ts ending) : l.next.1 = front ending ts := by
  have ht := h.tokens
  by_cases hk : l.next.1.kind = .eof
  · rw [tokens_of_eof hk] at ht
    cases ts with
    | nil => simpa using ht
    | cons t ts => simp at ht
  · rw [tokens_of_ne_eof hk] at ht
    cases ts with
    | nil =>
        rw [List.nil_append, List.cons.injEq] at ht
        exact absurd (ht.1 ▸ h.ends) hk
    | cons t ts =>
        rw [List.cons_append, List.cons.injEq] at ht
        exact ht.1

theorem next_snd (h : l.Yields ts ending) : l.next.2.Yields ts.tail ending := by
  have ht := h.tokens
  have hn := h.next_fst
  refine ⟨?_, h.ends, fun t hm => h.proper t (List.mem_of_mem_tail hm)⟩
  cases ts with
  | nil =>
      have hk : l.next.1.kind = .eof := by rw [hn]; exact h.ends
      have hk' : l.next.2.next.1.kind = .eof := by rw [next_next_of_eof hk]; exact hk
      rw [tokens_of_eof hk', next_next_of_eof hk, hn]
      rfl
  | cons t ts =>
      have hk : l.next.1.kind ≠ .eof := by rw [hn]; exact h.proper t (by simp)
      rw [tokens_of_ne_eof hk, List.cons_append, List.cons.injEq] at ht
      exact ht.2

theorem length_le (h : l.Yields ts ending) : ts.length ≤ l.rest.length := by
  induction ts generalizing l with
  | nil => exact Nat.zero_le _
  | cons t ts ih =>
      have hk : l.next.1.kind ≠ .eof := by rw [h.next_fst]; exact h.proper t (by simp)
      exact Nat.lt_of_le_of_lt (ih h.next_snd) (next_rest_length_lt hk)

end Yields

end Lexer

def fromSemicolon (ts : List Token) : List Token :=
  ts.dropWhile (·.kind ≠ .semicolon)

theorem fromSemicolon_cons_of_eq {t : Token} (ts : List Token) (h : t.kind = .semicolon) :
    fromSemicolon (t :: ts) = t :: ts := by
  simp [fromSemicolon, h]

theorem fromSemicolon_cons_of_ne {t : Token} (ts : List Token) (h : t.kind ≠ .semicolon) :
    fromSemicolon (t :: ts) = fromSemicolon ts := by
  simp [fromSemicolon, h]

theorem kind_of_fromSemicolon {ts us : List Token} {u : Token} (h : fromSemicolon ts = u :: us) :
    u.kind = .semicolon := by
  have hu := List.head?_dropWhile_not (fun t : Token => t.kind ≠ .semicolon) ts
  rw [show ts.dropWhile _ = u :: us from h] at hu
  simpa using hu

namespace Window

/-- The window shows the tokens of a list, and then the token that ends the text. -/
structure Shows (w : Window) (ts : List Token) (ending : Token) : Prop where
  current : w.current = front ending ts
  upcoming : w.upcoming = front ending ts.tail
  later : w.lexer.Yields ts.tail.tail ending
  proper : ∀ t ∈ ts, t.kind ≠ .eof

theorem shows_ofLexer {l : Lexer} {ts : List Token} {ending : Token} (h : l.Yields ts ending) :
    (ofLexer l).Shows ts ending :=
  ⟨h.next_fst, h.next_snd.next_fst, h.next_snd.next_snd, h.proper⟩

namespace Shows

variable {w : Window} {ts : List Token} {ending : Token}

theorem ends (h : w.Shows ts ending) : ending.kind = .eof :=
  h.later.ends

theorem advance (h : w.Shows ts ending) : w.advance.Shows ts.tail ending :=
  ⟨h.upcoming, h.later.next_fst, h.later.next_snd, fun t hm => h.proper t (List.mem_of_mem_tail hm)⟩

theorem record (h : w.Shows ts ending) (r : Record) : (w.record r).Shows ts ending :=
  ⟨h.current, h.upcoming, h.later, h.proper⟩

/-- A window shows one list of tokens. -/
theorem unique {us : List Token} (h : w.Shows ts ending) (h' : w.Shows us ending) : ts = us := by
  have ht := List.append_cancel_right (h.later.tokens.symm.trans h'.later.tokens)
  have hc := h.current.symm.trans h'.current
  have hu := h.upcoming.symm.trans h'.upcoming
  have he := h.ends
  match ts, us with
  | [], [] => rfl
  | [], u :: us =>
      cases (show ending = u from hc)
      exact absurd he (h'.proper _ (by simp))
  | t :: ts, [] =>
      cases (show t = ending from hc)
      exact absurd he (h.proper _ (by simp))
  | [t], [u] => rw [show t = u from hc]
  | [t], u :: v :: us =>
      cases (show ending = v from hu)
      exact absurd he (h'.proper _ (by simp))
  | t :: s :: ts, [u] =>
      cases (show s = ending from hu)
      exact absurd he (h.proper _ (by simp))
  | t :: s :: ts, u :: v :: us =>
      rw [show t = u from hc, show s = v from hu, show ts = us from ht]

theorem current_kind_eof_iff (h : w.Shows ts ending) : w.current.kind = .eof ↔ ts = [] := by
  rw [h.current]
  cases ts with
  | nil => simpa using h.ends
  | cons t ts => simpa using h.proper t (by simp)

theorem weight_front (ending : Token) (h : ∀ t ∈ ts, t.kind ≠ .eof) :
    min ts.length 1 ≤ weight (front ending ts) := by
  cases ts with
  | nil => exact Nat.zero_le _
  | cons t ts => simp [weight, h t (by simp)]

/-- The size of a window bounds the number of tokens that it shows. -/
theorem length_le_size (h : w.Shows ts ending) : ts.length ≤ w.size := by
  have hl := h.later.length_le
  have hc := weight_front ending h.proper
  have hu := weight_front ending fun t hm => h.proper t (List.mem_of_mem_tail hm)
  rw [← h.current] at hc
  rw [← h.upcoming] at hu
  simp only [List.length_tail] at hl hu
  simp only [size]
  omega

theorem skipToSemicolon (h : w.Shows ts ending) :
    w.skipToSemicolon.Shows (fromSemicolon ts) ending := by
  induction ts generalizing w with
  | nil =>
      rw [Window.skipToSemicolon, if_pos (.inr (h.current_kind_eof_iff.mpr rfl))]
      exact h
  | cons t ts ih =>
      have hc : w.current = t := h.current
      rw [Window.skipToSemicolon, hc]
      by_cases ht : t.kind = .semicolon
      · rw [if_pos (.inl ht), fromSemicolon_cons_of_eq ts ht]
        exact h
      · rw [if_neg (by simpa [ht] using h.proper t (by simp)), fromSemicolon_cons_of_ne ts ht]
        exact ih h.advance

end Shows

end Window

theorem tokenize_ne_nil (text : String) (name : Option String) : tokenize text name ≠ [] := by
  obtain ⟨ts, ending, h⟩ := (Lexer.ofText text name).exists_yields
  simp [tokenize, h.tokens]

def sourceTokens (text : String) (name : Option String) : List Token :=
  (tokenize text name).dropLast

def sourceEnd (text : String) (name : Option String) : Token :=
  (tokenize text name).getLast (tokenize_ne_nil text name)

theorem yields_source (text : String) (name : Option String) :
    (Lexer.ofText text name).Yields (sourceTokens text name) (sourceEnd text name) := by
  obtain ⟨ts, ending, h⟩ := (Lexer.ofText text name).exists_yields
  have hs : sourceTokens text name = ts := by simp [sourceTokens, tokenize, h.tokens]
  have he : sourceEnd text name = ending := by simp [sourceEnd, tokenize, h.tokens]
  rw [hs, he]
  exact h

theorem tokenize_eq (text : String) (name : Option String) :
    tokenize text name = sourceTokens text name ++ [sourceEnd text name] :=
  (yields_source text name).tokens

/-- The token at an index of a source. Beyond the others there is always the last one. -/
def tokenAt (text : String) (name : Option String) (i : Nat) : Token :=
  front (sourceEnd text name) ((sourceTokens text name).drop i)

def tokensBetween (text : String) (name : Option String) (i j : Nat) : List Token :=
  (List.range' i (j + 1 - i)).map (tokenAt text name)

/-- The window stands at an index of a source: it shows the tokens of the source from there on. -/
def Window.At (w : Window) (text : String) (name : Option String) (i : Nat) : Prop :=
  w.Shows ((sourceTokens text name).drop i) (sourceEnd text name)

theorem tokenAt_succ_of_drop_eq_cons {text : String} {name : Option String} {j : Nat} {t : Token}
    {rest : List Token} (h : (sourceTokens text name).drop j = t :: rest) :
    tokenAt text name (j + 1) = front (sourceEnd text name) rest := by
  rw [tokenAt, ← List.tail_drop, h, List.tail_cons]

/-- Only the last token ends a source. -/
theorem lt_length_of_tokenAt_ne_eof {text : String} {name : Option String} {j : Nat}
    (h : (tokenAt text name j).kind ≠ .eof) : j < (sourceTokens text name).length := by
  apply Nat.lt_of_not_le
  intro hj
  rw [tokenAt, List.drop_eq_nil_of_le hj] at h
  exact h (yields_source text name).ends

/-- An index before the end cuts off the tokens before it. -/
theorem exists_drop_eq {text : String} {name : Option String} {i j : Nat} (hij : i ≤ j)
    (hj : j < (sourceTokens text name).length) :
    ∃ vs t rest, (sourceTokens text name).drop i = vs ++ t :: rest ∧
      (sourceTokens text name).drop j = t :: rest := by
  have hd : (sourceTokens text name).drop j = ((sourceTokens text name).drop i).drop (j - i) := by
    rw [List.drop_drop, Nat.add_sub_cancel' hij]
  refine ⟨((sourceTokens text name).drop i).take (j - i), _, _, ?_, List.drop_eq_getElem_cons hj⟩
  rw [← List.drop_eq_getElem_cons hj, hd, List.take_append_drop]

theorem tokenAt_mem_tokensBetween (text : String) (name : Option String) {i j : Nat}
    (hij : i ≤ j) : tokenAt text name j ∈ tokensBetween text name i j :=
  List.mem_map_of_mem (List.mem_range'_1.mpr ⟨hij, by omega⟩)

/-- The tokens between two indices are those that the second one cuts off. -/
theorem tokensBetween_eq {text : String} {name : Option String} {i j : Nat} {vs rest : List Token}
    {t : Token} (hi : (sourceTokens text name).drop i = vs ++ t :: rest)
    (hj : (sourceTokens text name).drop j = t :: rest) :
    i + vs.length = j ∧ tokensBetween text name i j = vs ++ [t] := by
  induction vs generalizing i with
  | nil =>
      have hli := congrArg List.length hi
      have hlj := congrArg List.length hj
      simp only [List.nil_append, List.length_drop, List.length_cons] at hli hlj
      obtain rfl : i = j := by omega
      exact ⟨rfl, by simp [tokensBetween, tokenAt, hi]⟩
  | cons v vs ih =>
      have hi' : (sourceTokens text name).drop (i + 1) = vs ++ t :: rest := by
        rw [← List.tail_drop, hi, List.cons_append, List.tail_cons]
      obtain ⟨hl, hb⟩ := ih hi'
      have hs : j + 1 - i = (j + 1 - (i + 1)) + 1 := by omega
      refine ⟨by rw [List.length_cons]; omega, ?_⟩
      rw [tokensBetween, hs, List.range'_succ, List.map_cons]
      change tokenAt text name i :: tokensBetween text name (i + 1) j = v :: vs ++ [t]
      rw [hb, tokenAt, hi]
      rfl

end FrontEnd
