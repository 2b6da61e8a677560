import Mathlib.Data.List.Chain
import FrontEnd.Proofs.Printing

/-!
Reading the canonical text of a program again. A tree is printed with parentheses around every
operator, so whatever its operators are it is read as one operand. The statements are printed with
nothing between them, and only there can something go wrong: an expression that is a name or a
number and nothing else runs into a word or a number that follows it.
-/

namespace FrontEnd

/-- The statement without its positions, and without the token that an expression begins with. -/
def Stmt.core : Stmt → Stmt
  | .expression _ x _ => .expression (.sign .eof) (x.relocate unplace) noSpan
  | .binding token name value span => (Stmt.binding token name value span).relocate unplace
  | .returning token value span => (Stmt.returning token value span).relocate unplace

/-- The text of the first statement goes on into that of the second one: a name is followed by a
word, or a number by a number. -/
def Stmt.Fuses : Stmt → Stmt → Prop
  | .expression _ (.identifier _) _, s => s.wordFirst = true
  | .expression _ (.integer _ _) _, s => s.numberFirst = true
  | _, _ => False

instance : DecidableRel Stmt.Fuses := fun s s' =>
  match s with
  | .expression _ (.identifier _) _ => inferInstanceAs (Decidable (s'.wordFirst = true))
  | .expression _ (.integer _ _) _ => inferInstanceAs (Decidable (s'.numberFirst = true))
  | .expression _ (.unary _ _ _) _ | .expression _ (.binary _ _ _ _) _ => .isFalse id
  | .binding _ _ _ _ | .returning _ _ _ => .isFalse id

variable {ending : Token} {values : Values}

theorem Expr.reads_lexemes {x : Expr} (hx : x.WellFormed) {rest : List Token}
    (ho : Layer.ofOperator? (front ending rest).kind = none) :
    ∃ t, Reads .standard ending none .lowest (x.lexemes ++ rest) (.ok (x.relocate unplace))
      (t :: rest) := by
  have hd : Derives (.ofPower .lowest) x.lexemes (x.relocate unplace) :=
    (derives_lexemes hx).loosen (by decide)
  have hb : ¬ (front ending rest).kind.BindsTighter .lowest := by
    rintro ⟨l, hl, -⟩
    rw [ho] at hl
    contradiction
  obtain ⟨us, t, hus, hr⟩ := hd.reads_ok hb
  refine ⟨t, ?_⟩
  rw [hus, List.append_assoc]
  exact hr

theorem Expr.relocate_unplace (f : Position → Position) (x : Expr) :
    (x.relocate f).relocate unplace = x.relocate unplace :=
  x.relocate_relocate f unplace

variable (ending) in
/-- The value of a binding or a return, and the semicolon behind it. -/
theorem Expr.reads_value {x : Expr} (hx : x.WellFormed) (rest : List Token) :
    ∃ us, Reads .standard ending none .lowest (x.lexemes ++ .sign .semicolon :: rest)
      (.ok (x.relocate unplace)) us ∧ pastSemicolon us = .sign .semicolon :: rest := by
  have ho : Layer.ofOperator? (front ending (.sign .semicolon :: rest)).kind = none := rfl
  obtain ⟨t, hr⟩ := x.reads_lexemes hx ho
  exact ⟨_, hr, pastSemicolon_cons_of_eq t rest rfl⟩

theorem Stmt.reads_expression {token : Token} {x : Expr} {span : Span} (hx : x.WellFormed)
    {rest : List Token} (ho : Layer.ofOperator? (front ending rest).kind = none)
    (hn : (front ending rest).kind ≠ .semicolon) :
    ∃ s us, ReadsStatement .standard ending values (x.lexemes ++ rest) (.ok s) us ∧
      us.tail = rest ∧ s.core = (Stmt.expression token x span).core := by
  obtain ⟨t, hr⟩ := x.reads_lexemes hx ho
  obtain ⟨rule, hf⟩ := (Expr.derives_lexemes hx).starting ending
  obtain ⟨u, us, hu⟩ := List.exists_cons_of_ne_nil (Expr.derives_lexemes hx).ne_nil
  have hp : pastSemicolon (t :: rest) = t :: rest := pastSemicolon_cons_of_ne hn
  rw [hu] at hr hf ⊢
  have hrule : (Rules.standard.statement u.kind).getD .expression = .expression := by
    rw [Rules.standard_statement_of_starting (k := u.kind) hf]
    rfl
  refine ⟨_, _, ReadsBy.readsStatement hrule (.expression hr), congrArg List.tail hp, ?_⟩
  simp only [core, Expr.relocate_unplace]

theorem Stmt.reads_binding {token : Token} {name : Identifier} {value : Option Expr} {span : Span}
    (hs : (Stmt.binding token name value span).WellFormed values) (rest : List Token) :
    ∃ s us, ReadsStatement .standard ending values
        ((Stmt.binding token name value span).lexemes ++ rest) (.ok s) us ∧
      us.tail = rest ∧ s.core = (Stmt.binding token name value span).core := by
  obtain ⟨hk, -, ⟨hnk, -, hv⟩, hi, hx⟩ := hs
  have hrule : (Rules.standard.statement (token.relocate unplace).kind).getD .expression =
      .binding := Rules.standard_statement_binding.mpr hk
  have hid : (Identifier.ofToken (name.token.relocate unplace)).relocate unplace =
      name.relocate unplace := by
    rw [Identifier.ofToken, Token.relocate_literal, ← hv]
    rfl
  cases value with
  | none =>
      obtain rfl : values = .skipped := by
        cases values with
        | parsed => simp at hi
        | skipped => rfl
      have hb : ReadsBy .standard ending .skipped .binding (token.relocate unplace ::
          name.token.relocate unplace :: .sign .assignment :: .sign .semicolon :: rest) _ _ :=
        .bindingSkipped hnk rfl
      refine ⟨_, _, hb.readsStatement hrule, rfl, ?_⟩
      simp only [core, relocate, hid]
      rfl
  | some x =>
      obtain rfl := hi.mp rfl
      obtain ⟨us, hr, hp⟩ := x.reads_value ending (hx x rfl) rest
      have hb : ReadsBy .standard ending .parsed .binding (token.relocate unplace ::
          name.token.relocate unplace :: .sign .assignment ::
            (x.lexemes ++ .sign .semicolon :: rest)) _ _ := .binding hnk rfl hr
      refine ⟨_, _, by simpa [lexemes] using hb.readsStatement hrule, congrArg List.tail hp, ?_⟩
      simp only [core, relocate, hid, Option.map_some, Expr.relocate_unplace]
      rfl

theorem Stmt.reads_returning {token : Token} {value : Option Expr} {span : Span}
    (hs : (Stmt.returning token value span).WellFormed values) (rest : List Token) :
    ∃ s us, ReadsStatement .standard ending values
        ((Stmt.returning token value span).lexemes ++ rest) (.ok s) us ∧
      us.tail = rest ∧ s.core = (Stmt.returning token value span).core := by
  obtain ⟨hk, -, hi, hx⟩ := hs
  have hrule : (Rules.standard.statement (token.relocate unplace).kind).getD .expression =
      .returning := Rules.standard_statement_returning.mpr hk
  cases value with
  | none =>
      cases values with
      | parsed =>
          have hb : ReadsBy .standard ending .parsed .returning
              (token.relocate unplace :: .sign .semicolon :: rest) _ _ := .bare rfl
          exact ⟨_, _, hb.readsStatement hrule, rfl, rfl⟩
      | skipped =>
          have hb : ReadsBy .standard ending .skipped .returning
              (token.relocate unplace :: .sign .semicolon :: rest) _ _ := .returningSkipped
          exact ⟨_, _, hb.readsStatement hrule, rfl, rfl⟩
  | some x =>
      obtain rfl := hi rfl
      obtain ⟨us, hr, hp⟩ := x.reads_value ending (hx x rfl) rest
      have hn : (front ending (x.lexemes ++ .sign .semicolon :: rest)).kind ≠ .semicolon := by
        obtain ⟨rule, hf⟩ := (Expr.derives_lexemes (hx x rfl)).starting ending
        obtain ⟨u, us, hu⟩ := List.exists_cons_of_ne_nil (Expr.derives_lexemes (hx x rfl)).ne_nil
        rw [hu] at hf ⊢
        exact Kind.Opens.ne_semicolon (k := u.kind) (.inl (Option.isSome_of_eq_some hf))
      have hb : ReadsBy .standard ending .parsed .returning
          (token.relocate unplace :: (x.lexemes ++ .sign .semicolon :: rest)) _ _ :=
        .returning hn hr
      refine ⟨_, _, by simpa [lexemes] using hb.readsStatement hrule, congrArg List.tail hp, ?_⟩
      simp only [core, relocate, Option.map_some, Expr.relocate_unplace]
      rfl

variable (ending) in
/-- The tokens of a statement are read as the statement, up to what is not printed. -/
theorem Stmt.reads_lexemes {s : Stmt} (hs : s.WellFormed values) {rest : List Token}
    (ho : Layer.ofOperator? (front ending rest).kind = none)
    (hn : (front ending rest).kind ≠ .semicolon) :
    ∃ s' us, ReadsStatement .standard ending values (s.lexemes ++ rest) (.ok s') us ∧
      us.tail = rest ∧ s'.core = s.core := by
  cases s with
  | binding token name value span => exact reads_binding hs rest
  | returning token value span => exact reads_returning hs rest
  | expression token x span => exact reads_expression hs ho hn

theorem Stmt.fuses_iff {s s' : Stmt} (hs' : s'.WellFormed values) (rest : List Char) :
    s.Fuses s' ↔ ¬ s.EndsBefore (s'.text.toList ++ rest) := by
  obtain ⟨d, ds, ht, hw, hd, -⟩ := exists_head hs'
  rw [ht]
  match s with
  | .binding _ _ _ _ | .returning _ _ _ => simp [Fuses, EndsBefore]
  | .expression _ (.identifier _) _ => simp [Fuses, EndsBefore, Expr.EndsBefore, hw]
  | .expression _ (.integer _ _) _ => simp [Fuses, EndsBefore, Expr.EndsBefore, hd]
  | .expression _ (.unary _ _ _) _ | .expression _ (.binary _ _ _ _) _ =>
      simp [Fuses, EndsBefore, Expr.EndsBefore]

theorem Stmt.endsBefore_nil (s : Stmt) : s.EndsBefore [] := by
  match s with
  | .binding _ _ _ _ | .returning _ _ _ => trivial
  | .expression _ x _ => cases x <;> simp [EndsBefore, Expr.EndsBefore]

variable (ending) in
/-- A text that begins like a statement continues no expression and ends none. -/
theorem front_lexemes_of_head {d : Char} (ds : List Char)
    (h : isWordChar d = true ∨ d.isDigit = true ∨ d = '(') :
    Layer.ofOperator? (front ending (lexemes (d :: ds))).kind = none ∧
      (front ending (lexemes (d :: ds))).kind ≠ .semicolon := by
  rcases h with hw | hd | rfl
  · rw [lexemes_cons ds (isBlank_eq_false_of_isWordChar hw), Lexeme.read_of_word ds hw]
    have hk : ∀ k ∈ Kind.identifier :: Kind.reserved.map Prod.snd,
        Layer.ofOperator? k = none ∧ k ≠ .semicolon := by
      decide
    exact hk _ (Kind.ofWord_mem _)
  · rw [lexemes_cons ds (isBlank_eq_false_of_isDigit hd),
      Lexeme.read_of_digit ds (isWordChar_eq_false_of_isDigit hd) hd]
    exact ⟨rfl, nofun⟩
  · rw [lexemes_openParen]
    exact ⟨rfl, nofun⟩

def textOf (statements : List Stmt) : List Char :=
  statements.flatMap fun s => s.text.toList

variable (ending) in
theorem front_lexemes_textOf (he : ending.kind = .eof) {statements : List Stmt}
    (hs : ∀ s ∈ statements, s.WellFormed values) :
    Layer.ofOperator? (front ending (lexemes (textOf statements))).kind = none ∧
      (front ending (lexemes (textOf statements))).kind ≠ .semicolon := by
  cases statements with
  | nil =>
      rw [textOf, List.flatMap_nil, lexemes_nil, front_nil, he]
      exact ⟨rfl, nofun⟩
  | cons s statements =>
      obtain ⟨d, ds, hd, -, -, h⟩ := Stmt.exists_head (hs s (List.mem_cons_self ..))
      rw [textOf, List.flatMap_cons, hd]
      exact front_lexemes_of_head ending _ h

theorem isChain_cons_iff {s : Stmt} {statements : List Stmt}
    (hs : ∀ s ∈ statements, s.WellFormed values) :
    (s :: statements).IsChain (fun s s' => ¬ s.Fuses s') ↔
      s.EndsBefore (textOf statements) ∧ statements.IsChain fun s s' => ¬ s.Fuses s' := by
  cases statements with
  | nil => simpa [textOf] using s.endsBefore_nil
  | cons s' statements =>
      have hf := Stmt.fuses_iff (s := s) (hs s' (List.mem_cons_self ..)) (textOf statements)
      rw [List.isChain_cons_cons, hf, Classical.not_not]
      rfl

/-- A word or a number that goes on into the text behind it becomes another one. -/
theorem lexemes_fused {p : Char → Bool} {k : Kind} {s : String} {c d : Char} {w ds : List Char}
    (hs : s.toList = c :: w) (hw : ∀ c ∈ w, p c = true) (hd : p d = true) (hb : isBlank c = false)
    (hr : (Lexeme.read c (w ++ d :: ds)).1 = ⟨k, c :: (w ++ d :: ds).takeWhile p⟩) :
    ∃ t ts, lexemes (s.toList ++ d :: ds) = t :: ts ∧ t.kind = k ∧ t.literal ≠ s := by
  refine ⟨(Lexeme.read c (w ++ d :: ds)).1.token, _, by rw [hs]; exact lexemes_cons _ hb,
    congrArg Lexeme.kind hr, ?_⟩
  intro hl
  rw [hr] at hl
  have ht := congrArg String.toList hl
  rw [hs, Lexeme.token, String.toList_ofList, List.takeWhile_append_of_pos hw,
    List.takeWhile_cons_of_pos hd] at ht
  simp at ht

theorem Expr.lexemes_fused {x : Expr} (hx : x.WellFormed) {rest : List Char}
    (h : ¬ x.EndsBefore rest) :
    (x.isName = true ∨ x.isNumber = true) ∧ ∃ t ts,
      FrontEnd.lexemes (x.text.toList ++ rest) = t :: ts ∧ t.kind ≠ .openParen ∧
        t.literal ≠ x.token.literal := by
  cases rest with
  | nil => exact absurd (Stmt.endsBefore_nil (.expression (.sign .eof) x noSpan)) h
  | cons d ds =>
      cases x with
      | identifier id =>
          obtain ⟨-, hn, hv⟩ := hx
          obtain ⟨c, w, hc⟩ := List.exists_cons_of_ne_nil hn.ne_nil
          obtain ⟨hwc, hw⟩ := List.forall_mem_cons.mp (hc ▸ hn.word)
          have hd : isWordChar d = true := by simpa [EndsBefore] using h
          obtain ⟨t, ts, ht, hk, hl⟩ := FrontEnd.lexemes_fused hc hw hd
            (isBlank_eq_false_of_isWordChar hwc) (congrArg Prod.fst (Lexeme.read_of_word _ hwc))
          rw [text, hv]
          refine ⟨.inl rfl, t, ts, ht, ?_, hl⟩
          have hnp : ∀ k ∈ Kind.identifier :: Kind.reserved.map Prod.snd, k ≠ .openParen := by
            decide
          rw [hk]
          exact hnp _ (Kind.ofWord_mem _)
      | integer token value =>
          obtain ⟨-, hn, -⟩ := hx
          obtain ⟨c, w, hc⟩ := List.exists_cons_of_ne_nil hn.ne_nil
          obtain ⟨hdc, hw⟩ := List.forall_mem_cons.mp (hc ▸ hn.digit)
          have hd : d.isDigit = true := by simpa [EndsBefore] using h
          obtain ⟨t, ts, ht, hk, hl⟩ := FrontEnd.lexemes_fused hc hw hd
            (isBlank_eq_false_of_isDigit hdc)
            (congrArg Prod.fst (Lexeme.read_of_digit _ (isWordChar_eq_false_of_isDigit hdc) hdc))
          exact ⟨.inr rfl, t, ts, ht, by rw [hk]; decide, hl⟩
      | unary operator right span => exact absurd trivial h
      | binary left operator right span => exact absurd trivial h

variable (ending) in
/-- A name or a number is derived from its own token, perhaps between parentheses. -/
theorem Derives.front_of_single {l : Layer} {ts : List Token} {x : Expr} (h : Derives l ts x)
    (hx : x.isName = true ∨ x.isNumber = true) :
    (front ending ts).kind = .openParen ∨ front ending ts = x.token := by
  induction h with
  | identifier | integer => exact .inr rfl
  | group ho => exact .inl ho
  | unary | binary => simp [Expr.isName, Expr.isNumber] at hx
  | tighter _ ih => exact ih hx

theorem Expr.isName_relocate (f : Position → Position) (x : Expr) :
    (x.relocate f).isName = x.isName := by
  cases x <;> rfl

theorem Expr.isNumber_relocate (f : Position → Position) (x : Expr) :
    (x.relocate f).isNumber = x.isNumber := by
  cases x <;> rfl

theorem Expr.token_relocate (f : Position → Position) (x : Expr) :
    (x.relocate f).token = x.token.relocate f := by
  cases x <;> rfl

/-- Where a name or a number is read as a statement, its token comes first. -/
theorem ReadsStatement.front_of_single (he : ending.kind = .eof) {t token : Token} {s : Stmt}
    {x : Expr} {span : Span} {ts us : List Token}
    (h : ReadsStatement .standard ending values (t :: ts) (.ok s) us)
    (hs : s.core = (Stmt.expression token x span).core)
    (hx : x.isName = true ∨ x.isNumber = true) :
    t.kind = .openParen ∨ t.literal = x.token.literal := by
  obtain ⟨rule, -, hb⟩ := h.exists_readsBy
  cases hb with
  | @expression _ y _ _ hr =>
      have hxy : y.relocate unplace = x.relocate unplace := by simpa [Stmt.core] using hs
      rw [← x.isName_relocate unplace, ← x.isNumber_relocate unplace, ← hxy, y.isName_relocate,
        y.isNumber_relocate] at hx
      have hl : y.token.literal = x.token.literal := by
        have ht := congrArg (fun z => z.token.literal) hxy
        simpa only [Expr.token_relocate, Token.relocate_literal] using ht
      obtain ⟨vs, u, rest, hts, -, hd, -⟩ := (reads_iff_taken he).mp hr
      have hf : front ending (vs ++ [u]) = t := by
        cases vs <;> cases hts <;> rfl
      rcases hd.front_of_single ending hx with hk | hk
      · exact .inl (hf ▸ hk)
      · exact .inr (by rw [← hf, ← hl, ← hk]; rfl)
  | _ => simp [Stmt.core, Stmt.relocate] at hs

/-- Statements that are printed one after the other are read as themselves, and without a
diagnostic, if and only if no two neighbours fuse. -/
theorem reads_textOf_iff (he : ending.kind = .eof) {statements : List Stmt}
    (hs : ∀ s ∈ statements, s.WellFormed values) {items : List Item}
    (h : ReadsItems .standard ending values (lexemes (textOf statements)) items) :
    (items.filterMap Item.statement?).map Stmt.core = statements.map Stmt.core ∧
        items.filterMap Item.diagnostic? = [] ↔
      statements.IsChain fun s s' => ¬ s.Fuses s' := by
  induction statements generalizing items with
  | nil =>
      rw [textOf, List.flatMap_nil, lexemes_nil] at h
      cases h
      simp
  | cons s statements ih =>
      obtain ⟨hsw, hss⟩ := List.forall_mem_cons.mp hs
      rw [isChain_cons_iff hss]
      -- Either the first statement is read as itself, or its first token is another one already.
      by_cases hb : s.EndsBefore (textOf statements)
      · obtain ⟨ho, hn⟩ := front_lexemes_textOf ending he hss
        obtain ⟨s', us, hr, hu, hc⟩ := Stmt.reads_lexemes ending hsw ho hn
        have ht : lexemes (textOf (s :: statements)) = s.lexemes ++ lexemes (textOf statements) :=
          s.lexemes_text hsw _ hb
        rw [ht] at h
        obtain ⟨items, rfl, hi⟩ := h.exists_of_statement hr
          (List.append_ne_nil_of_left_ne_nil (Stmt.lexemes_ne_nil hsw) _)
        rw [hu] at hi
        rw [← ih hss hi, and_iff_right hb]
        simp [Item.statement?, Item.diagnostic?, hc]
      · refine ⟨?_, fun hn => absurd hn.1 hb⟩
        rintro ⟨hst, hd⟩
        exfalso
        cases s with
        | binding token name value span => exact absurd trivial hb
        | returning token value span => exact absurd trivial hb
        | expression token x span =>
            obtain ⟨hx, t, ts, ht, hk, hl⟩ := Expr.lexemes_fused hsw hb
            have htext : lexemes (textOf (.expression token x span :: statements)) = t :: ts := ht
            rw [htext] at h
            cases h with
            | statement hr _ =>
                rcases hr.front_of_single he (List.cons.inj hst).1 hx with ho | ho
                · exact hk ho
                · exact hl ho
            | diagnostic => cases hd

theorem Program.toList_text (p : Program) : p.text.toList = textOf p.statements := by
  simp [text, textOf, String.toList_join, List.flatMap_map]

theorem Stmt.core_relocate (f : Position → Position) (s : Stmt) : (s.relocate f).core = s.core := by
  cases s with
  | expression token x span => simp only [relocate, core, Expr.relocate_unplace]
  | binding token name value span => exact Stmt.relocate_relocate f unplace (.binding ..)
  | returning token value span => exact Stmt.relocate_relocate f unplace (.returning ..)

/-- Every program that is read is well formed, whatever diagnostics there were. The canonical text
of a well-formed program is read as the program again, and without a diagnostic, if and only if no
two statements that are neighbours fuse. -/
theorem parse_text_iff (values : Values) :
    (∀ text name, (parse text name values).1.WellFormed values) ∧
      ∀ p : Program, p.WellFormed values → ∀ name,
        (((parse p.text name values).1.statements.map Stmt.core = p.statements.map Stmt.core ∧
            (parse p.text name values).2.diagnostics = []) ↔
          p.statements.IsChain fun s s' => ¬ s.Fuses s') := by
  refine ⟨fun text name => parse_wellFormed text name values, ?_⟩
  intro p hp name
  obtain ⟨ending, items, he, hi, hs, hd⟩ := exists_readsItems_lexemes p.text name values
  rw [p.toList_text] at hi
  rw [← reads_textOf_iff he hp hi, hs, hd, List.map_map, List.map_eq_nil_iff]
  have hc : Stmt.core ∘ Stmt.relocate unplace = Stmt.core :=
    funext (Stmt.core_relocate unplace)
  rw [hc]

/-- No neighbours fuse in the text `let x = (a + 1);b2c`, and in the text `bc` they do. -/
theorem parse_text_neighbours :
    let p := (parse "let x = a + 1; b 2 c" none .parsed).1
    let q := (parse "b c" none .parsed).1
    ((parse p.text none .parsed).1.statements.map Stmt.core = p.statements.map Stmt.core ∧
        (parse p.text none .parsed).2.diagnostics = []) ∧
      ¬ ((parse q.text none .parsed).1.statements.map Stmt.core = q.statements.map Stmt.core ∧
        (parse q.text none .parsed).2.diagnostics = []) := by
  obtain ⟨hw, ht⟩ := parse_text_iff .parsed
  constructor
  · exact (ht _ (hw "let x = a + 1; b 2 c" none) none).mpr (by decide +kernel)
  · exact fun h => absurd ((ht _ (hw "b c" none) none).mp h) (by decide +kernel)

end FrontEnd
