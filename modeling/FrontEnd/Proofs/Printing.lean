import FrontEnd.Proofs.WellFormed

/-!
The tokens of canonical texts. A tree is printed with parentheses around every operator and blanks
around the binary ones, so its text has the tokens of the tree and no others, unless it is a name or
a number that goes on into the text behind it. Those tokens derive the tree as one operand.
-/

namespace FrontEnd

def noSpan : Span :=
  ⟨⟨0, ""⟩, ⟨0, ""⟩⟩

def Token.sign (k : Kind) : Token :=
  ⟨k, k.spelling?.getD "", noSpan⟩

theorem span_eq {p : Char → Bool} {w cs : List Char} (hw : ∀ c ∈ w, p c = true)
    (h : ∀ d ∈ cs.head?, p d = false) :
    (w ++ cs).takeWhile p = w ∧ (w ++ cs).dropWhile p = cs := by
  rw [List.takeWhile_append_of_pos hw, List.dropWhile_append_of_pos hw]
  cases cs with
  | nil => simp
  | cons d cs => simp [h d rfl]

theorem lexemes_word {w cs : List Char} (hn : w ≠ []) (hw : ∀ c ∈ w, isWordChar c = true)
    (h : ∀ d ∈ cs.head?, isWordChar d = false) :
    lexemes (w ++ cs) = ⟨.ofWord (String.ofList w), String.ofList w, noSpan⟩ :: lexemes cs := by
  obtain ⟨c, w, rfl⟩ := List.exists_cons_of_ne_nil hn
  have hc := hw c (List.mem_cons_self ..)
  obtain ⟨ht, hd⟩ := span_eq (p := isWordChar) (fun c hm => hw c (List.mem_cons_of_mem _ hm)) h
  rw [List.cons_append, lexemes_cons _ (isBlank_eq_false_of_isWordChar hc),
    Lexeme.read_of_word _ hc, ht, hd]
  rfl

theorem lexemes_name {s : String} {cs : List Char} (hs : IsName s)
    (h : ∀ d ∈ cs.head?, isWordChar d = false) :
    lexemes (s.toList ++ cs) = ⟨.identifier, s, noSpan⟩ :: lexemes cs := by
  have hk : Kind.ofWord s = .identifier := by
    rw [Kind.ofWord, hs.free]
    rfl
  rw [lexemes_word hs.ne_nil hs.word h, String.ofList_toList, hk]

theorem lexemes_numeral {s : String} {cs : List Char} (hs : IsNumeral s)
    (h : ∀ d ∈ cs.head?, d.isDigit = false) :
    lexemes (s.toList ++ cs) = ⟨.integer, s, noSpan⟩ :: lexemes cs := by
  obtain ⟨c, w, hw⟩ := List.exists_cons_of_ne_nil hs.ne_nil
  have hd := hs.digit
  rw [hw] at hd
  have hc := hd c (List.mem_cons_self ..)
  have hn := isWordChar_eq_false_of_isDigit hc
  obtain ⟨ht, hd⟩ := span_eq (p := Char.isDigit) (fun c hm => hd c (List.mem_cons_of_mem _ hm)) h
  rw [hw, List.cons_append, lexemes_cons _ (isBlank_eq_false_of_isDigit hc),
    Lexeme.read_of_digit _ hn hc, ht, hd, ← hw]
  exact congrArg (⟨.integer, ·, noSpan⟩ :: lexemes cs) String.ofList_toList

theorem lexemes_of_read {c : Char} {cs rest : List Char} {x : Lexeme} (hb : isBlank c = false)
    (h : Lexeme.read c cs = (x, rest)) : lexemes (c :: cs) = x.token :: lexemes rest := by
  rw [lexemes_cons cs hb, h]

theorem Kind.ofSymbol?_char {c : Char} {k : Kind} (h : ofSymbol? c = some k) :
    isBlank c = false ∧ isWordChar c = false ∧ c.isDigit = false := by
  unfold ofSymbol? at h
  split at h <;> first | decide | contradiction

theorem lexemes_sign {c : Char} {cs : List Char} {k : Kind} (hk : Kind.ofSymbol? c = some k)
    (h : c = '=' ∨ c = '!' → cs.head? ≠ some '=') :
    lexemes (c :: cs) = .sign k :: lexemes cs := by
  obtain ⟨hb, hw, hd⟩ := Kind.ofSymbol?_char hk
  rw [lexemes_of_read hb (Lexeme.read_of_sign hw hd h), hk, Token.sign,
    Kind.spelling?_of_ofSymbol? hk]
  rfl

theorem Kind.exists_spelling {k : Kind} {l : Layer} (h : Layer.ofOperator? k = some l) :
    ∃ c cs, k.spelling? = some (String.ofList (c :: cs)) ∧ isBlank c = false ∧
      ∀ rest, Lexeme.read c (cs ++ ' ' :: rest) = (⟨k, c :: cs⟩, ' ' :: rest) := by
  cases k with
  | plus => exact ⟨'+', [], rfl, rfl, fun _ => rfl⟩
  | dash => exact ⟨'-', [], rfl, rfl, fun _ => rfl⟩
  | star => exact ⟨'*', [], rfl, rfl, fun _ => rfl⟩
  | slash => exact ⟨'/', [], rfl, rfl, fun _ => rfl⟩
  | less => exact ⟨'<', [], rfl, rfl, fun _ => rfl⟩
  | greater => exact ⟨'>', [], rfl, rfl, fun _ => rfl⟩
  | equals => exact ⟨'=', ['='], rfl, rfl, fun _ => rfl⟩
  | notEquals => exact ⟨'!', ['='], rfl, rfl, fun _ => rfl⟩
  | _ => contradiction

/-- The signs that never become longer. -/
theorem lexemes_sign_of_not {c : Char} {k : Kind} (cs : List Char) (hk : Kind.ofSymbol? c = some k)
    (h : ¬ (c = '=' ∨ c = '!')) : lexemes (c :: cs) = .sign k :: lexemes cs :=
  lexemes_sign hk fun hc => absurd hc h

theorem lexemes_openParen (cs : List Char) :
    lexemes ('(' :: cs) = .sign .openParen :: lexemes cs :=
  lexemes_sign_of_not cs rfl (by decide)

theorem lexemes_closeParen (cs : List Char) :
    lexemes (')' :: cs) = .sign .closeParen :: lexemes cs :=
  lexemes_sign_of_not cs rfl (by decide)

theorem lexemes_semicolon (cs : List Char) :
    lexemes (';' :: cs) = .sign .semicolon :: lexemes cs :=
  lexemes_sign_of_not cs rfl (by decide)

/-- An operator in front of a blank is a token of its own. -/
theorem lexemes_operator {o : Token} (rest : List Char)
    (ho : ∃ l, Layer.ofOperator? o.kind = some l) (hs : o.kind.spelling? = some o.literal) :
    lexemes (o.literal.toList ++ ' ' :: rest) = o.relocate unplace :: lexemes rest := by
  obtain ⟨l, ho⟩ := ho
  obtain ⟨c, cs, hk, hb, hr⟩ := Kind.exists_spelling ho
  have hl : o.literal = String.ofList (c :: cs) := Option.some.inj (hs.symm.trans hk)
  have hx := lexemes_of_read hb (hr rest)
  rw [lexemes_of_blank rest rfl] at hx
  rw [hl, String.toList_ofList, List.cons_append, hx, Token.relocate, hl]
  rfl

namespace Expr

def lexemes : Expr → List Token
  | .identifier id => [id.token.relocate unplace]
  | .integer token _ => [token.relocate unplace]
  | .unary operator right _ =>
      .sign .openParen :: (operator.relocate unplace :: right.lexemes ++ [.sign .closeParen])
  | .binary left operator right _ =>
      .sign .openParen ::
        (left.lexemes ++ operator.relocate unplace :: right.lexemes ++ [.sign .closeParen])

/-- The text of the tree does not go on into the text behind it. -/
def EndsBefore : Expr → List Char → Prop
  | .identifier _, rest => ∀ d ∈ rest.head?, isWordChar d = false
  | .integer _ _, rest => ∀ d ∈ rest.head?, d.isDigit = false
  | _, _ => True

theorem endsBefore_cons (x : Expr) {d : Char} (rest : List Char) (hw : isWordChar d = false)
    (hd : d.isDigit = false) : x.EndsBefore (d :: rest) := by
  cases x <;> simp [EndsBefore, hw, hd]

def isName : Expr → Bool
  | .identifier _ => true
  | _ => false

def isNumber : Expr → Bool
  | .integer _ _ => true
  | _ => false

/-- The text of a tree begins with a word, a number or a parenthesis. -/
theorem exists_head {x : Expr} (hx : x.WellFormed) :
    ∃ d ds, x.text.toList = d :: ds ∧ isWordChar d = x.isName ∧ d.isDigit = x.isNumber ∧
      (isWordChar d = true ∨ d.isDigit = true ∨ d = '(') := by
  cases x with
  | identifier id =>
      obtain ⟨-, hn, hv⟩ := hx
      obtain ⟨d, ds, hd⟩ := List.exists_cons_of_ne_nil hn.ne_nil
      have hw := hn.word d (by rw [hd]; simp)
      exact ⟨d, ds, by rw [text, hv, hd], hw, isDigit_eq_false_of_isWordChar hw, .inl hw⟩
  | integer token value =>
      obtain ⟨-, hn, -⟩ := hx
      obtain ⟨d, ds, hd⟩ := List.exists_cons_of_ne_nil hn.ne_nil
      have hc := hn.digit d (by rw [hd]; simp)
      exact ⟨d, ds, by rw [text, hd], isWordChar_eq_false_of_isDigit hc, hc, .inr (.inl hc)⟩
  | unary operator right span =>
      exact ⟨'(', operator.literal.toList ++ (right.text.toList ++ [')']), by simp [text], rfl, rfl,
        .inr (.inr rfl)⟩
  | binary left operator right span =>
      exact ⟨'(', left.text.toList ++ ' ' :: (operator.literal.toList ++
        ' ' :: (right.text.toList ++ [')'])), by simp [text], rfl, rfl, .inr (.inr rfl)⟩

theorem head?_text_ne {x : Expr} (hx : x.WellFormed) (rest : List Char) :
    (x.text.toList ++ rest).head? ≠ some '=' := by
  obtain ⟨d, ds, hd, -, -, h⟩ := exists_head hx
  rw [hd]
  intro he
  cases he
  revert h
  decide

theorem lexemes_signed {o : Token} {cs : List Char} (ho : o.kind = .not ∨ o.kind = .dash)
    (hs : o.kind.spelling? = some o.literal) (h : cs.head? ≠ some '=') :
    FrontEnd.lexemes (o.literal.toList ++ cs) = o.relocate unplace :: FrontEnd.lexemes cs := by
  rcases ho with ho | ho
  · have hl : o.literal = "!" := by
      rw [ho] at hs
      exact (Option.some.inj hs).symm
    rw [hl, Token.relocate, ho, hl]
    exact lexemes_sign (c := '!') (k := .not) rfl fun _ => h
  · have hl : o.literal = "-" := by
      rw [ho] at hs
      exact (Option.some.inj hs).symm
    rw [hl, Token.relocate, ho, hl]
    exact lexemes_sign_of_not (c := '-') (k := .dash) cs rfl (by decide)

/-- The canonical text of a tree has the tokens of the tree, and nothing of what is behind it. -/
theorem lexemes_text {x : Expr} (hx : x.WellFormed) (rest : List Char) (h : x.EndsBefore rest) :
    FrontEnd.lexemes (x.text.toList ++ rest) = x.lexemes ++ FrontEnd.lexemes rest := by
  induction x generalizing rest with
  | identifier id =>
      obtain ⟨hk, hn, hv⟩ := hx
      rw [text, hv, lexemes_name hn h, lexemes, Token.relocate, hk]
      rfl
  | integer token value =>
      obtain ⟨hk, hn, -⟩ := hx
      rw [text, lexemes_numeral hn h, lexemes, Token.relocate, hk]
      rfl
  | unary operator right span ih =>
      obtain ⟨ho, hs, hr⟩ := hx
      have htext : (unary operator right span).text.toList ++ rest =
          '(' :: (operator.literal.toList ++ (right.text.toList ++ ')' :: rest)) := by
        simp [text]
      rw [htext, lexemes_openParen, lexemes_signed ho hs (head?_text_ne hr _),
        ih hr _ (endsBefore_cons right rest rfl rfl), lexemes_closeParen]
      simp [lexemes]
  | binary left operator right span ihl ihr =>
      obtain ⟨ho, hs, hl, hr⟩ := hx
      have htext : (binary left operator right span).text.toList ++ rest =
          '(' :: (left.text.toList ++ ' ' ::
            (operator.literal.toList ++ ' ' :: (right.text.toList ++ ')' :: rest))) := by
        simp [text]
      rw [htext, lexemes_openParen, ihl hl _ (endsBefore_cons left _ rfl rfl),
        lexemes_of_blank _ rfl, lexemes_operator _ ho hs,
        ihr hr _ (endsBefore_cons right rest rfl rfl), lexemes_closeParen]
      simp [lexemes]

/-- The tokens of a tree derive the tree, whatever is around them. -/
theorem derives_lexemes {x : Expr} (hx : x.WellFormed) :
    Derives .atom x.lexemes (x.relocate unplace) := by
  induction x with
  | identifier id =>
      obtain ⟨hk, -, hv⟩ := hx
      have hd := Derives.identifier (t := id.token.relocate unplace) hk
      rw [← Identifier.relocate_ofToken, Identifier.ofToken, ← hv] at hd
      exact hd
  | integer token value =>
      obtain ⟨hk, -, n, hn, rfl⟩ := hx
      exact Derives.integer (t := token.relocate unplace) hk hn
  | unary operator right span ih =>
      obtain ⟨ho, -, hr⟩ := hx
      have hu := Derives.unary (o := operator.relocate unplace) ho ((ih hr).loosen (by decide))
      have hg := Derives.group (o := .sign .openParen) (c := .sign .closeParen) rfl
        (hu.loosen (by decide)) rfl
      rw [relocate_span] at hg
      exact hg
  | binary left operator right span ihl ihr =>
      obtain ⟨⟨l, ho⟩, -, hl, hr⟩ := hx
      have hb := Derives.binary (o := operator.relocate unplace) ho
        ((ihl hl).loosen l.rank_le_rank_atom) ((ihr hr).loosen l.tighter.rank_le_rank_atom)
      have hg := Derives.group (o := .sign .openParen) (c := .sign .closeParen) rfl
        (hb.loosen l.rank_equality_le) rfl
      rw [relocate_span, relocate_span] at hg
      exact hg

end Expr

theorem head?_blank_cons {cs : List Char} : ∀ d ∈ (' ' :: cs).head?, isWordChar d = false := by
  intro d hd
  cases hd
  rfl

theorem Kind.word_of_mem_reserved {p : String × Kind} (h : p ∈ reserved) :
    p.1.toList ≠ [] ∧ (∀ c ∈ p.1.toList, isWordChar c = true) ∧ ofWord p.1 = p.2 := by
  have hn : ∀ p ∈ reserved, p.1.toList ≠ [] := by decide
  have hw : ∀ p ∈ reserved, p.1.toList.all isWordChar = true := by decide
  have hk : ∀ p ∈ reserved, ofWord p.1 = p.2 := by decide
  exact ⟨hn p h, List.all_eq_true.mp (hw p h), hk p h⟩

/-- A reserved word in front of a blank is a token of its own. -/
theorem lexemes_reserved {s : String} {k : Kind} (cs : List Char) (h : (s, k) ∈ Kind.reserved) :
    lexemes (s.toList ++ ' ' :: cs) = ⟨k, s, noSpan⟩ :: lexemes cs := by
  obtain ⟨hn, hw, hk⟩ := Kind.word_of_mem_reserved h
  rw [lexemes_word hn hw head?_blank_cons, String.ofList_toList, hk, lexemes_of_blank cs rfl]

theorem lexemes_assignment (cs : List Char) :
    lexemes ('=' :: ' ' :: cs) = .sign .assignment :: lexemes cs := by
  rw [lexemes_sign (k := .assignment) rfl (by simp), lexemes_of_blank cs rfl]

namespace Stmt

def lexemes : Stmt → List Token
  | .binding token name value _ =>
      token.relocate unplace :: name.token.relocate unplace :: .sign .assignment ::
        ((value.map Expr.lexemes).getD [] ++ [.sign .semicolon])
  | .returning token value _ =>
      token.relocate unplace :: ((value.map Expr.lexemes).getD [] ++ [.sign .semicolon])
  | .expression _ x _ => x.lexemes

def EndsBefore : Stmt → List Char → Prop
  | .expression _ x _, rest => x.EndsBefore rest
  | _, _ => True

theorem lexemes_ne_nil {values : Values} {s : Stmt} (hs : s.WellFormed values) :
    s.lexemes ≠ [] := by
  cases s with
  | binding token name value span => exact List.cons_ne_nil _ _
  | returning token value span => exact List.cons_ne_nil _ _
  | expression token x span => exact (Expr.derives_lexemes hs).ne_nil

theorem lexemes_value {value : Option Expr} (hv : ∀ x ∈ value, x.WellFormed) (rest : List Char) :
    FrontEnd.lexemes (((value.map Expr.text).getD "").toList ++ ';' :: rest) =
      (value.map Expr.lexemes).getD [] ++ .sign .semicolon :: FrontEnd.lexemes rest := by
  cases value with
  | none => exact lexemes_semicolon rest
  | some x =>
      have hx := x.lexemes_text (hv x rfl) _ (x.endsBefore_cons (d := ';') rest rfl rfl)
      rw [lexemes_semicolon] at hx
      exact hx

theorem lexemes_text {values : Values} {s : Stmt} (hs : s.WellFormed values) (rest : List Char)
    (h : s.EndsBefore rest) :
    FrontEnd.lexemes (s.text.toList ++ rest) = s.lexemes ++ FrontEnd.lexemes rest := by
  cases s with
  | binding token name value span =>
      obtain ⟨hk, hl, ⟨hnk, hn, hnv⟩, -, hv⟩ := hs
      have htext : (binding token name value span).text.toList ++ rest =
          "let".toList ++ ' ' :: (name.token.literal.toList ++ ' ' :: '=' :: ' ' ::
            (((value.map Expr.text).getD "").toList ++ ';' :: rest)) := by
        simp [text, hl, hnv]
      rw [htext, lexemes_reserved (k := .letWord) _ (by decide),
        lexemes_name hn head?_blank_cons, lexemes_of_blank _ rfl, lexemes_assignment,
        lexemes_value hv]
      simp [lexemes, Token.relocate, hk, hl, hnk, Span.relocate, unplace, noSpan]
  | returning token value span =>
      obtain ⟨hk, hl, -, hv⟩ := hs
      have htext : (returning token value span).text.toList ++ rest =
          "return".toList ++ ' ' :: (((value.map Expr.text).getD "").toList ++ ';' :: rest) := by
        simp [text, hl]
      rw [htext, lexemes_reserved (k := .returnWord) _ (by decide),
        lexemes_value hv]
      simp [lexemes, Token.relocate, hk, hl, Span.relocate, unplace, noSpan]
  | expression token x span => exact x.lexemes_text hs rest h

def wordFirst : Stmt → Bool
  | .binding _ _ _ _ | .returning _ _ _ => true
  | .expression _ x _ => x.isName

/-- Whether the text of the statement begins with a number, and then it is one. -/
def numberFirst : Stmt → Bool
  | .binding _ _ _ _ | .returning _ _ _ => false
  | .expression _ x _ => x.isNumber

/-- The text of a statement begins with a word, a number or a parenthesis. -/
theorem exists_head {values : Values} {s : Stmt} (hs : s.WellFormed values) :
    ∃ d ds, s.text.toList = d :: ds ∧ isWordChar d = s.wordFirst ∧ d.isDigit = s.numberFirst ∧
      (isWordChar d = true ∨ d.isDigit = true ∨ d = '(') := by
  cases s with
  | binding token name value span =>
      have hl : token.literal = "let" := hs.2.1
      exact ⟨'l', _, by rw [text, hl]; simp; rfl, rfl, rfl, .inl rfl⟩
  | returning token value span =>
      have hl : token.literal = "return" := hs.2.1
      exact ⟨'r', _, by rw [text, hl]; simp; rfl, rfl, rfl, .inl rfl⟩
  | expression token x span => exact Expr.exists_head hs

end Stmt

end FrontEnd
