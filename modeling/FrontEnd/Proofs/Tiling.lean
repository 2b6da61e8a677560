import Mathlib.Data.List.Forall2
import FrontEnd.Proofs.Lexemes

/-!
Tokens tile their text. Each one is the piece of the text between two byte offsets, the pieces
follow each other in the order of the tokens, and there is nothing but blanks between them. Spans
keep the offsets modulo 2^32, so the true ones stand beside the tokens here.
-/

namespace FrontEnd

/-- The piece takes the bytes of the text from one offset up to another. Both offsets fall between
two characters. -/
def Text.IsPiece (cs : List Char) (start stop : Nat) (piece : List Char) : Prop :=
  ∃ before after, cs = before ++ piece ++ after ∧ byteLength before = start ∧
    byteLength (before ++ piece) = stop

/-- The span keeps two offsets of any size. -/
def Span.Marks (s : Span) (start stop : Nat) : Prop :=
  s.start.offset.toNat = start % UInt32.size ∧ s.stop.offset.toNat = stop % UInt32.size

structure Token.LiesAt (t : Token) (cs : List Char) (place : Nat × Nat) : Prop where
  lt : place.1 < place.2
  literal : Text.IsPiece cs place.1 place.2 t.literal.toList
  span : t.span.Marks place.1 place.2

structure Text.IsGap (cs : List Char) (place : Nat × Nat) : Prop where
  le : place.1 ≤ place.2
  blank : ∃ piece, IsPiece cs place.1 place.2 piece ∧ ∀ c ∈ piece, isBlank c = true

/-- What lies before, between and behind places, from one offset up to another. -/
def gaps (start stop : Nat) : List (Nat × Nat) → List (Nat × Nat)
  | [] => [(start, stop)]
  | place :: places => (start, place.1) :: gaps place.2 stop places

/-- From an offset on, the text is the tokens at their places and the gaps between them. -/
structure Tiles (cs : List Char) (start : Nat) (ts : List Token) (places : List (Nat × Nat)) :
    Prop where
  tokens : List.Forall₂ (fun t place => t.LiesAt cs place) ts places
  gaps : ∀ place ∈ gaps start (Text.byteLength cs) places, Text.IsGap cs place

theorem Lexeme.read_text_ne_nil (c : Char) (cs : List Char) : (read c cs).1.text ≠ [] := by
  intro hn
  have ht := congrArg List.length (read_text_append c cs)
  have hl := read_rest_length_le c cs
  rw [hn, List.nil_append, List.length_cons] at ht
  omega

theorem Text.byteLength_pos {cs : List Char} (h : cs ≠ []) : 0 < byteLength cs := by
  obtain ⟨c, cs, rfl⟩ := List.exists_cons_of_ne_nil h
  rw [byteLength_cons]
  have hc := c.utf8Size_pos
  omega

theorem Text.isPiece {cs before piece after : List Char} (h : cs = before ++ piece ++ after) :
    IsPiece cs (byteLength before) (byteLength before + byteLength piece) piece :=
  ⟨before, after, h, rfl, byteLength_append ..⟩

theorem Text.isGap {cs before blanks after : List Char} (h : cs = before ++ blanks ++ after)
    (hb : ∀ c ∈ blanks, isBlank c = true) :
    IsGap cs (byteLength before, byteLength before + byteLength blanks) :=
  ⟨Nat.le_add_right .., blanks, isPiece h, hb⟩

theorem Tiles.cons {cs : List Char} {start : Nat} {t : Token} {ts : List Token} {place : Nat × Nat}
    {places : List (Nat × Nat)} (ht : t.LiesAt cs place) (hg : Text.IsGap cs (start, place.1))
    (h : Tiles cs place.2 ts places) : Tiles cs start (t :: ts) (place :: places) :=
  ⟨.cons ht h.tokens, List.forall_mem_cons.mpr ⟨hg, h.gaps⟩⟩

theorem Span.marks_ofOffset (source : String) (start stop : Nat) :
    Span.Marks ⟨.ofOffset source start, .ofOffset source stop⟩ start stop :=
  ⟨UInt32.toNat_ofNat, UInt32.toNat_ofNat⟩

def Token.last (source : String) (cs : List Char) : Token :=
  let stop := Position.ofOffset source (Text.byteLength cs)
  ⟨.eof, "", ⟨stop, stop⟩⟩

namespace Lexer

variable {l : Lexer} {cs : List Char} {ts : List Token} {ending : Token}

/-- The lexer stands in a text, behind what it has passed and in front of what is left. -/
def StandsIn (l : Lexer) (cs : List Char) : Prop :=
  ∃ before, cs = before ++ l.rest ∧ l.pos = Text.byteLength before

def places (l : Lexer) : List (Nat × Nat) :=
  if l.next.1.kind = .eof then [] else (l.skipBlanks.pos, l.next.2.pos) :: l.next.2.places
termination_by l.rest.length
decreasing_by exact next_rest_length_lt (by assumption)

theorem places_of_eof (h : l.next.1.kind = .eof) : l.places = [] := by
  rw [places, if_pos h]

theorem places_of_ne_eof (h : l.next.1.kind ≠ .eof) :
    l.places = (l.skipBlanks.pos, l.next.2.pos) :: l.next.2.places := by
  rw [places, if_neg h]

theorem isBlank_eq_false_of_skipBlanks {c : Char} {rest : List Char}
    (h : l.skipBlanks.rest = c :: rest) : isBlank c = false := by
  have hb := List.head?_dropWhile_not isBlank l.rest
  rw [show l.rest.dropWhile isBlank = c :: rest from h] at hb
  simpa using hb

theorem next_source (l : Lexer) : l.next.2.source = l.source := by
  unfold next
  simp only
  split <;> rfl

/-- A token is cut off behind the blanks in front of it. -/
theorem next_cut (hk : l.next.1.kind ≠ .eof) :
    l.next.1.literal.toList ≠ [] ∧
      l.skipBlanks.rest = l.next.1.literal.toList ++ l.next.2.rest ∧
      l.next.2.pos = l.skipBlanks.pos + Text.byteLength l.next.1.literal.toList ∧
      l.next.1.span = ⟨.ofOffset l.source l.skipBlanks.pos, .ofOffset l.source l.next.2.pos⟩ := by
  cases hr : l.skipBlanks.rest with
  | nil =>
      rw [next_of_rest_nil hr] at hk
      contradiction
  | cons c cs =>
      rw [next_of_rest_cons hr]
      refine ⟨?_, ?_, ?_, rfl⟩
      · rw [String.toList_ofList]
        exact Lexeme.read_text_ne_nil c cs
      · rw [String.toList_ofList, Lexeme.read_text_append]
      · rw [String.toList_ofList]

theorem standsIn_ofText (text : String) (name : Option String) :
    (ofText text name).StandsIn text.toList :=
  ⟨[], rfl, rfl⟩

namespace StandsIn

/-- Only blanks are skipped. -/
theorem gap (h : l.StandsIn cs) : Text.IsGap cs (l.pos, l.skipBlanks.pos) := by
  obtain ⟨before, rfl, hp⟩ := h
  have hcs : before ++ l.rest =
      before ++ l.rest.takeWhile isBlank ++ l.rest.dropWhile isBlank := by
    rw [List.append_assoc, List.takeWhile_append_dropWhile]
  have hg := Text.isGap hcs fun c => List.mem_takeWhile_imp
  rw [← hp] at hg
  exact hg

theorem skipBlanks (h : l.StandsIn cs) : l.skipBlanks.StandsIn cs := by
  obtain ⟨before, rfl, hp⟩ := h
  refine ⟨before ++ l.rest.takeWhile isBlank, ?_, ?_⟩
  · rw [List.append_assoc]
    exact congrArg (before ++ ·) List.takeWhile_append_dropWhile.symm
  · rw [Text.byteLength_append, ← hp]
    rfl

theorem pos_of_rest_nil (h : l.StandsIn cs) (hr : l.rest = []) : l.pos = Text.byteLength cs := by
  obtain ⟨before, rfl, hp⟩ := h
  rw [hr, List.append_nil]
  exact hp

theorem next (h : l.StandsIn cs) : l.next.2.StandsIn cs := by
  by_cases hk : l.next.1.kind = .eof
  · rw [next_of_rest_nil (skipBlanks_rest_nil_of_eof hk)]
    exact h.skipBlanks
  · obtain ⟨before, hcs, hp⟩ := h.skipBlanks
    obtain ⟨-, hr, hpos, -⟩ := next_cut hk
    refine ⟨before ++ l.next.1.literal.toList, ?_, ?_⟩
    · rw [hcs, hr, List.append_assoc]
    · rw [hpos, hp, Text.byteLength_append]

theorem liesAt (h : l.StandsIn cs) (hk : l.next.1.kind ≠ .eof) :
    l.next.1.LiesAt cs (l.skipBlanks.pos, l.next.2.pos) := by
  obtain ⟨before, hcs, hp⟩ := h.skipBlanks
  obtain ⟨hn, hr, hpos, hs⟩ := next_cut hk
  rw [hr, ← List.append_assoc] at hcs
  refine ⟨?_, ?_, hs ▸ Span.marks_ofOffset ..⟩
  · rw [hpos]
    exact Nat.lt_add_of_pos_right (Text.byteLength_pos hn)
  · rw [hpos, hp]
    exact Text.isPiece hcs

theorem next_of_eof (h : l.StandsIn cs) (hk : l.next.1.kind = .eof) :
    l.next.1 = .last l.source cs := by
  have hr := skipBlanks_rest_nil_of_eof hk
  have hp := h.skipBlanks.pos_of_rest_nil hr
  rw [next_of_rest_nil hr]
  simp only [spanFrom, hp]
  rfl

end StandsIn

/-- The tokens that are left tile the text that is left. -/
theorem Yields.tiles (h : l.Yields ts ending) (hl : l.StandsIn cs) :
    Tiles cs l.pos ts l.places ∧ ending = .last l.source cs := by
  induction ts generalizing l with
  | nil =>
      have hn : l.next.1 = ending := h.next_fst
      have hk : l.next.1.kind = .eof := hn ▸ h.ends
      have hp := hl.skipBlanks.pos_of_rest_nil (skipBlanks_rest_nil_of_eof hk)
      rw [places_of_eof hk, ← hn, ← hl.next_of_eof hk]
      refine ⟨⟨.nil, ?_⟩, rfl⟩
      intro place hm
      obtain rfl := List.mem_singleton.mp hm
      rw [← hp]
      exact hl.gap
  | cons t ts ih =>
      have ht : l.next.1 = t := h.next_fst
      have hk : l.next.1.kind ≠ .eof := ht ▸ h.proper t (List.mem_cons_self ..)
      obtain ⟨htiles, he⟩ := ih h.next_snd hl.next
      rw [places_of_ne_eof hk, ← l.next_source, ← ht]
      exact ⟨.cons (hl.liesAt hk) hl.gap htiles, he⟩

/-- Behind any text that was passed, the tokens tile the rest. -/
theorem Yields.exists_tiles (h : l.Yields ts ending) (before : List Char)
    (hp : l.pos = Text.byteLength before) :
    (∃ places, Tiles (before ++ l.rest) l.pos ts places) ∧ ending.literal = "" ∧
      ending.span.Marks (Text.byteLength (before ++ l.rest))
        (Text.byteLength (before ++ l.rest)) := by
  obtain ⟨ht, rfl⟩ := h.tiles ⟨before, rfl, hp⟩
  exact ⟨⟨l.places, ht⟩, rfl, Span.marks_ofOffset ..⟩

end Lexer

/-- No lexeme has a blank in it. -/
theorem Lexeme.isBlank_of_mem_read {c : Char} (cs : List Char) (hb : isBlank c = false) :
    ∀ d ∈ (read c cs).1.text, isBlank d = false := by
  rw [read.eq_def]
  split
  · refine List.forall_mem_cons.mpr ⟨hb, fun d hd => ?_⟩
    exact isBlank_eq_false_of_isWordChar (List.mem_takeWhile_imp hd)
  · split
    · refine List.forall_mem_cons.mpr ⟨hb, fun d hd => ?_⟩
      exact isBlank_eq_false_of_isDigit (List.mem_takeWhile_imp hd)
    · split
      · change ∀ d ∈ ['=', '='], isBlank d = false
        simp [isBlank]
      · change ∀ d ∈ ['!', '='], isBlank d = false
        simp [isBlank]
      · simpa using hb

/-- The literals in a row are the text without its blanks. -/
theorem flatMap_lexemes (cs : List Char) :
    (lexemes cs).flatMap (·.literal.toList) = cs.filter (!isBlank ·) := by
  induction hn : cs.length using Nat.strongRecOn generalizing cs with
  | ind n ih =>
      cases cs with
      | nil => rw [lexemes_nil, List.flatMap_nil, List.filter_nil]
      | cons c cs =>
          rw [List.length_cons] at hn
          cases hb : isBlank c with
          | true =>
              rw [lexemes_of_blank cs hb, ih cs.length (by omega) cs rfl,
                List.filter_cons_of_neg (by simp [hb])]
          | false =>
              have hl := Lexeme.read_rest_length_le c cs
              have hf : (Lexeme.read c cs).1.text.filter (!isBlank ·) =
                  (Lexeme.read c cs).1.text :=
                List.filter_eq_self.mpr fun d hd => by
                  simp [Lexeme.isBlank_of_mem_read cs hb d hd]
              rw [lexemes_cons cs hb, List.flatMap_cons, ih _ (by omega) _ rfl,
                ← Lexeme.read_text_append c cs, List.filter_append, hf]
              exact congrArg (· ++ _) String.toList_ofList

/-- Tokens tile their text without loss. The last token, and only that, ends the text: it has an
empty literal and stands behind all the bytes. The others lie one behind the other, each at the
place of its literal and with nothing but blanks around it, so all literals in a row are the text
without its blanks. -/
theorem tokenize_tiles (text : String) (name : Option String) :
    ∃ ts ending places, tokenize text name = ts ++ [ending] ∧
      (∀ t ∈ ts, t.kind ≠ .eof) ∧ ending.kind = .eof ∧ ending.literal = "" ∧
      ending.span.Marks (Text.byteLength text.toList) (Text.byteLength text.toList) ∧
      Tiles text.toList 0 ts places ∧
      (tokenize text name).flatMap (·.literal.toList) = text.toList.filter (!isBlank ·) := by
  have hy := yields_source text name
  obtain ⟨⟨places, ht⟩, hl, hs⟩ := hy.exists_tiles [] rfl
  refine ⟨_, _, places, hy.tokens, hy.proper, hy.ends, hl, hs, ht, ?_⟩
  have hm : ((sourceTokens text name).map (Token.relocate unplace)).flatMap (·.literal.toList) =
      (sourceTokens text name).flatMap (·.literal.toList) := by
    rw [List.flatMap_map]
    rfl
  have hts : tokenize text name = sourceTokens text name ++ [sourceEnd text name] := hy.tokens
  rw [hts, List.flatMap_append, ← hm, hy.lexemes, flatMap_lexemes]
  simp [hl, Lexer.ofText]

end FrontEnd
