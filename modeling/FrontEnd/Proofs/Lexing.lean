import Mathlib.Data.List.TakeWhile
import FrontEnd.Proofs.Relocation

/-!
Lexing a text that is put together of two. The tokens are those of the first text and those of the
second one, moved by the length of the first, unless the last token of the first text reaches up to
its end and would go on into the second text. Only words, integers and the signs that an equals sign
makes longer can go on like this.
-/

namespace FrontEnd

def joins (text : List Char) (d : Char) : Bool :=
  match text with
  | [] => false
  | c :: cs =>
      if isWordChar c then isWordChar d
      else if c.isDigit then d.isDigit
      else cs.isEmpty && (c = '=' || c = '!') && d = '='

/-- Letters come after the digits. -/
theorem le_toNat_of_isAlpha {d : Char} (h : d.isAlpha = true) : 'A'.toNat ≤ d.toNat := by
  cases Bool.or_eq_true_iff.mp h with
  | inl hu => exact (of_decide_eq_true hu).1
  | inr hl =>
      have hd : 'a'.toNat ≤ d.toNat := of_decide_eq_true (Bool.and_eq_true_iff.mp hl).1
      exact Nat.le_trans (by decide) hd

theorem isDigit_eq_false_of_isWordChar {d : Char} (h : isWordChar d = true) :
    d.isDigit = false := by
  apply Bool.eq_false_iff.mpr
  intro hd
  have hn : d.toNat ≤ '9'.toNat := (Char.isDigit_iff_toNat.mp hd).2
  cases Bool.or_eq_true_iff.mp h with
  | inl ha => exact absurd (Nat.le_trans (le_toNat_of_isAlpha ha) hn) (by decide)
  | inr hu => exact absurd (of_decide_eq_true hu ▸ hn) (by decide)

theorem isWordChar_eq_false_of_isDigit {d : Char} (h : d.isDigit = true) :
    isWordChar d = false := by
  apply Bool.eq_false_iff.mpr
  intro hw
  rw [isDigit_eq_false_of_isWordChar hw] at h
  contradiction

theorem isBlank_iff {d : Char} : isBlank d = true ↔ d = ' ' ∨ d = '\t' ∨ d = '\r' ∨ d = '\n' := by
  simp [isBlank, or_assoc]

theorem isBlank_eq_false_of_isWordChar {d : Char} (h : isWordChar d = true) :
    isBlank d = false := by
  apply Bool.eq_false_iff.mpr
  intro hb
  rcases isBlank_iff.mp hb with rfl | rfl | rfl | rfl <;> revert h <;> decide

theorem isBlank_eq_false_of_isDigit {d : Char} (h : d.isDigit = true) : isBlank d = false := by
  apply Bool.eq_false_iff.mpr
  intro hb
  rcases isBlank_iff.mp hb with rfl | rfl | rfl | rfl <;> revert h <;> decide

/-- Nothing is taken from a second text if it does not begin in the way the first one goes on. -/
theorem span_append {p : Char → Bool} (cs ds : List Char)
    (h : cs.dropWhile p = [] → ∀ d ∈ ds.head?, p d = false) :
    (cs ++ ds).takeWhile p = cs.takeWhile p ∧ (cs ++ ds).dropWhile p = cs.dropWhile p ++ ds := by
  induction cs with
  | nil =>
      cases ds with
      | nil => exact ⟨rfl, rfl⟩
      | cons d ds =>
          have hd := h rfl d rfl
          simp [hd]
  | cons c cs ih =>
      by_cases hc : p c = true
      · have hi := ih fun hn => h (by rw [List.dropWhile_cons_of_pos hc]; exact hn)
        simpa [hc] using hi
      · simp [hc]

namespace Lexeme

theorem read_of_word {c : Char} (cs : List Char) (hw : isWordChar c = true) :
    read c cs = (⟨.ofWord (String.ofList (c :: cs.takeWhile isWordChar)),
      c :: cs.takeWhile isWordChar⟩, cs.dropWhile isWordChar) := by
  rw [read.eq_def, if_pos hw]

theorem read_of_digit {c : Char} (cs : List Char) (hw : isWordChar c = false)
    (hd : c.isDigit = true) :
    read c cs = (⟨.integer, c :: cs.takeWhile Char.isDigit⟩, cs.dropWhile Char.isDigit) := by
  rw [read.eq_def, if_neg (Bool.eq_false_iff.mp hw), if_pos hd]

/-- Only an equals sign makes a sign longer, and only two signs. -/
theorem read_of_sign {c : Char} {cs : List Char} (hw : isWordChar c = false)
    (hd : c.isDigit = false) (h : c = '=' ∨ c = '!' → cs.head? ≠ some '=') :
    read c cs = (⟨(Kind.ofSymbol? c).getD .illegal, [c]⟩, cs) := by
  rw [read.eq_def, if_neg (Bool.eq_false_iff.mp hw), if_neg (Bool.eq_false_iff.mp hd)]
  split
  · exact absurd rfl (h (.inl rfl))
  · exact absurd rfl (h (.inr rfl))
  · rfl

/-- A lexeme is read in the same way when more text follows, unless it goes on into that. -/
theorem read_append {c : Char} {cs ds : List Char}
    (h : (read c cs).2 = [] → ∀ d ∈ ds.head?, joins (read c cs).1.text d = false) :
    read c (cs ++ ds) = ((read c cs).1, (read c cs).2 ++ ds) := by
  cases hw : isWordChar c with
  | true =>
      rw [read_of_word cs hw] at h ⊢
      obtain ⟨ht, hd⟩ := span_append (p := isWordChar) cs ds (by simpa [joins, hw] using h)
      rw [read_of_word _ hw, ht, hd]
  | false =>
      cases hc : c.isDigit with
      | true =>
          rw [read_of_digit cs hw hc] at h ⊢
          obtain ⟨ht, hd⟩ := span_append (p := Char.isDigit) cs ds
            (by simpa [joins, hw, hc] using h)
          rw [read_of_digit _ hw hc, ht, hd]
      | false =>
          by_cases hp : (c = '=' ∨ c = '!') ∧ cs.head? = some '='
          · obtain ⟨rfl | rfl, he⟩ := hp
            · obtain ⟨cs, rfl⟩ := List.head?_eq_some_iff.mp he
              rfl
            · obtain ⟨cs, rfl⟩ := List.head?_eq_some_iff.mp he
              rfl
          · have hs : c = '=' ∨ c = '!' → cs.head? ≠ some '=' := fun hc he => hp ⟨hc, he⟩
            rw [read_of_sign hw hc hs] at h ⊢
            refine read_of_sign hw hc fun he => ?_
            cases cs with
            | nil =>
                intro hd
                have hj := h rfl '=' hd
                rcases he with rfl | rfl <;> contradiction
            | cons e cs => exact hs he

end Lexeme

/-- The last of the tokens reaches up to the end of its text and goes on into the next one. -/
def Fuses (ts : List Token) (cs ds : List Char) : Prop :=
  ∃ t ∈ ts.getLast?, t.literal.toList <:+ cs ∧ ∃ d ∈ ds.head?, joins t.literal.toList d = true

namespace Lexer

def append (l : Lexer) (ds : List Char) : Lexer :=
  { l with rest := l.rest ++ ds }

def beyond (l : Lexer) (ds : List Char) : Lexer :=
  ⟨l.source, l.pos + Text.byteLength l.rest, ds⟩

variable {l : Lexer} {ts us : List Token} {ending ending' t : Token}

theorem tokens_congr {l' : Lexer} (h : l.next = l'.next) : l.tokens = l'.tokens := by
  rw [tokens.eq_def, h, ← tokens.eq_def]

theorem Yields.congr {l' : Lexer} (h : l.Yields ts ending) (hn : l'.next = l.next) :
    l'.Yields ts ending :=
  ⟨(tokens_congr hn).trans h.tokens, h.ends, h.proper⟩

theorem Yields.nil (h : l.next.1 = ending) (he : ending.kind = .eof) : l.Yields [] ending := by
  subst h
  exact ⟨tokens_of_eof he, he, by simp⟩

theorem Yields.cons (ht : l.next.1 = t) (hk : t.kind ≠ .eof) (h : l.next.2.Yields ts ending) :
    l.Yields (t :: ts) ending := by
  subst ht
  refine ⟨by rw [tokens_of_ne_eof hk, h.tokens, List.cons_append], h.ends, ?_⟩
  simpa using ⟨hk, h.proper⟩

theorem skipBlanks_append {ds : List Char} (h : l.skipBlanks.rest ≠ []) :
    (l.append ds).skipBlanks = l.skipBlanks.append ds := by
  obtain ⟨ht, hd⟩ := span_append (p := isBlank) l.rest ds fun hn => absurd hn h
  simp only [skipBlanks, append]
  rw [ht, hd]

theorem skipBlanks_append_of_rest_nil (ds : List Char) (h : l.skipBlanks.rest = []) :
    (l.append ds).skipBlanks = (l.beyond ds).skipBlanks := by
  have ha : ∀ c ∈ l.rest, isBlank c = true := by
    simpa [skipBlanks, List.dropWhile_eq_nil_iff] using h
  simp only [skipBlanks, append, beyond]
  rw [List.takeWhile_append_of_pos ha, List.dropWhile_append_of_pos ha, Text.byteLength_append,
    Nat.add_assoc]

theorem next_of_rest_cons {c : Char} {cs : List Char} (h : l.skipBlanks.rest = c :: cs) :
    l.next =
      let lexeme := (Lexeme.read c cs).1
      let after : Lexer := ⟨l.source, l.skipBlanks.pos + Text.byteLength lexeme.text,
        (Lexeme.read c cs).2⟩
      (⟨lexeme.kind, String.ofList lexeme.text, after.spanFrom l.skipBlanks.pos⟩, after) := by
  simp only [next]
  split
  · simp_all
  · next hr =>
      cases hr.symm.trans h
      rfl

theorem next_congr {l' : Lexer} (h : l'.skipBlanks = l.skipBlanks) : l'.next = l.next := by
  rw [next, next, h]

/-- A token is read in the same way when more text follows, unless it goes on into that. -/
theorem next_append {ds : List Char} (hk : l.next.1.kind ≠ .eof)
    (hf : l.next.2.rest = [] → ∀ d ∈ ds.head?, joins l.next.1.literal.toList d = false) :
    (l.append ds).next = (l.next.1, l.next.2.append ds) := by
  cases hr : l.skipBlanks.rest with
  | nil =>
      rw [next_of_rest_nil hr] at hk
      contradiction
  | cons c cs =>
      have hs : (l.append ds).skipBlanks = l.skipBlanks.append ds :=
        skipBlanks_append (by rw [hr]; exact List.cons_ne_nil _ _)
      have hra : (l.append ds).skipBlanks.rest = c :: (cs ++ ds) := by
        rw [hs, append, hr, List.cons_append]
      rw [next_of_rest_cons hr] at hf ⊢
      rw [next_of_rest_cons hra, Lexeme.read_append (by simpa using hf), hs]
      rfl

/-- A token is cut off from the text. -/
theorem next_literal_append_suffix (hk : l.next.1.kind ≠ .eof) :
    l.next.1.literal.toList ++ l.next.2.rest <:+ l.rest := by
  cases hr : l.skipBlanks.rest with
  | nil =>
      rw [next_of_rest_nil hr] at hk
      contradiction
  | cons c cs =>
      rw [next_of_rest_cons hr]
      simp only [String.toList_ofList, Lexeme.read_text_append]
      rw [← hr]
      exact List.dropWhile_suffix _

theorem next_beyond (hk : l.next.1.kind ≠ .eof) (ds : List Char) :
    l.next.2.beyond ds = l.beyond ds := by
  cases hr : l.skipBlanks.rest with
  | nil =>
      rw [next_of_rest_nil hr] at hk
      contradiction
  | cons c cs =>
      have hb := List.takeWhile_append_dropWhile (p := isBlank) (l := l.rest)
      have ht := congrArg Text.byteLength (Lexeme.read_text_append c cs)
      rw [← hr, Text.byteLength_append] at ht
      have hl := congrArg Text.byteLength hb
      rw [Text.byteLength_append] at hl
      rw [next_of_rest_cons hr]
      simp only [beyond, Lexer.mk.injEq, true_and, and_true, skipBlanks] at ht ⊢
      omega

/-- Lexing a text of two parts, where nothing fuses. -/
theorem Yields.append {ds : List Char} (h : l.Yields ts ending)
    (h' : (l.beyond ds).Yields us ending') (hf : ¬ Fuses ts l.rest ds) :
    (l.append ds).Yields (ts ++ us) ending' := by
  induction ts generalizing l with
  | nil =>
      have hk : l.next.1.kind = .eof := by
        rw [h.next_fst]
        exact h.ends
      exact h'.congr (next_congr (skipBlanks_append_of_rest_nil ds (skipBlanks_rest_nil_of_eof hk)))
  | cons t ts ih =>
      have ht : l.next.1 = t := h.next_fst
      have hk : t.kind ≠ .eof := h.proper t (List.mem_cons_self ..)
      have hs := next_literal_append_suffix (ht ▸ hk)
      rw [ht] at hs
      have hj : l.next.2.rest = [] → ∀ d ∈ ds.head?, joins l.next.1.literal.toList d = false := by
        intro hr d hd
        apply Bool.eq_false_iff.mpr
        intro hj
        cases ts with
        | nil =>
            rw [ht] at hj
            rw [hr, List.append_nil] at hs
            exact hf ⟨t, rfl, hs, d, hd, hj⟩
        | cons u ts =>
            have hl := h.next_snd.length_le
            rw [hr] at hl
            exact absurd hl (Nat.not_succ_le_zero _)
      have hn := next_append (ht ▸ hk) hj
      have hi := ih h.next_snd (by rw [next_beyond (ht ▸ hk)]; exact h') fun ⟨u, hu, hs', hd⟩ =>
        hf ⟨u, by cases ts <;> simp_all, hs'.trans ((List.suffix_append _ _).trans hs), hd⟩
      refine Yields.cons (by rw [hn]; exact ht) hk ?_
      rw [hn]
      exact hi

def shift (n : Nat) (l : Lexer) : Lexer :=
  { l with pos := l.pos + n }

end Lexer

def Position.shift (n : Nat) (p : Position) : Position :=
  { p with offset := p.offset + UInt32.ofNat n }

namespace Lexer

variable {l : Lexer} {ts : List Token} {ending : Token}

theorem spanFrom_shift (l : Lexer) (start n : Nat) :
    (l.shift n).spanFrom (start + n) = (l.spanFrom start).relocate (.shift n) := by
  simp only [spanFrom, shift, Position.ofOffset, Span.relocate, Position.shift, UInt32.ofNat_add]

theorem skipBlanks_shift (l : Lexer) (n : Nat) : (l.shift n).skipBlanks = l.skipBlanks.shift n := by
  simp only [skipBlanks, shift, Lexer.mk.injEq, true_and, and_true]
  omega

theorem next_shift (l : Lexer) (n : Nat) :
    (l.shift n).next = (l.next.1.relocate (.shift n), l.next.2.shift n) := by
  have hs := skipBlanks_shift l n
  cases hr : l.skipBlanks.rest with
  | nil =>
      rw [next_of_rest_nil hr, next_of_rest_nil (by rw [hs]; exact hr), hs]
      simp only [Token.relocate, ← spanFrom_shift]
      rfl
  | cons c cs =>
      have hp := Nat.add_right_comm l.skipBlanks.pos (Text.byteLength (Lexeme.read c cs).1.text) n
      rw [next_of_rest_cons hr, next_of_rest_cons (by rw [hs]; exact hr), hs]
      simp only [Token.relocate, ← spanFrom_shift]
      simp only [shift, hp]

/-- Where a text stands in its source only moves its tokens. -/
theorem Yields.shift (h : l.Yields ts ending) (n : Nat) :
    (l.shift n).Yields (ts.map (Token.relocate (.shift n))) (ending.relocate (.shift n)) := by
  induction ts generalizing l with
  | nil =>
      refine .nil ?_ h.ends
      rw [next_shift]
      exact congrArg (Token.relocate (.shift n)) h.next_fst
  | cons t ts ih =>
      have ht : l.next.1 = t := h.next_fst
      refine .cons (by rw [next_shift, ht]) (h.proper t (List.mem_cons_self ..)) ?_
      rw [next_shift]
      exact ih h.next_snd

end Lexer

end FrontEnd
