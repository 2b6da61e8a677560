import FrontEnd.Proofs.Language
import FrontEnd.Proofs.Lexemes

/-!
What every token and every tree that comes out of a text has in common. The literal of a token is
one of its kind, and the nodes of a tree hold tokens of the kinds that the rules ask for. Nothing is
said about positions.
-/

namespace FrontEnd

def Kind.spelling? : Kind → Option String
  | .illegal | .eof | .identifier | .integer => none
  | .assignment => some "="
  | .plus => some "+"
  | .dash => some "-"
  | .not => some "!"
  | .star => some "*"
  | .slash => some "/"
  | .less => some "<"
  | .greater => some ">"
  | .equals => some "=="
  | .notEquals => some "!="
  | .comma => some ","
  | .semicolon => some ";"
  | .openParen => some "("
  | .closeParen => some ")"
  | .openCurly => some "\x7b"
  | .closeCurly => some "\x7d"
  | .fnWord => some "fn"
  | .letWord => some "let"
  | .trueWord => some "true"
  | .falseWord => some "false"
  | .ifWord => some "if"
  | .elseWord => some "else"
  | .returnWord => some "return"

structure IsName (s : String) : Prop where
  ne_nil : s.toList ≠ []
  word : ∀ c ∈ s.toList, isWordChar c = true
  free : Kind.reserved.lookup s = none

structure IsNumeral (s : String) : Prop where
  ne_nil : s.toList ≠ []
  digit : ∀ c ∈ s.toList, c.isDigit = true

structure Token.Spelled (t : Token) : Prop where
  name : t.kind = .identifier → IsName t.literal
  numeral : t.kind = .integer → IsNumeral t.literal
  sign : ∀ s, t.kind.spelling? = some s → t.literal = s

def Identifier.WellFormed (id : Identifier) : Prop :=
  id.token.kind = .identifier ∧ IsName id.token.literal ∧ id.value = id.token.literal

def Expr.WellFormed : Expr → Prop
  | .identifier id => id.WellFormed
  | .integer token value =>
      token.kind = .integer ∧ IsNumeral token.literal ∧
        ∃ n : Nat, integerValue? token.literal.toList = some n ∧ value = n
  | .unary operator right _ =>
      (operator.kind = .not ∨ operator.kind = .dash) ∧
        operator.kind.spelling? = some operator.literal ∧ right.WellFormed
  | .binary left operator right _ =>
      (∃ l, Layer.ofOperator? operator.kind = some l) ∧
        operator.kind.spelling? = some operator.literal ∧ left.WellFormed ∧ right.WellFormed

/-- Bindings have values where values are parsed, and there a return may have one. -/
def Stmt.WellFormed (values : Values) : Stmt → Prop
  | .binding token name value _ =>
      token.kind = .letWord ∧ token.literal = "let" ∧ name.WellFormed ∧
        (value.isSome ↔ values = .parsed) ∧ ∀ x ∈ value, x.WellFormed
  | .returning token value _ =>
      token.kind = .returnWord ∧ token.literal = "return" ∧
        (value.isSome → values = .parsed) ∧ ∀ x ∈ value, x.WellFormed
  | .expression _ x _ => x.WellFormed

def Program.WellFormed (values : Values) (p : Program) : Prop :=
  ∀ s ∈ p.statements, s.WellFormed values

theorem Kind.spelling?_of_ofSymbol? {c : Char} {k : Kind} (h : ofSymbol? c = some k) :
    k.spelling? = some (String.ofList [c]) := by
  unfold ofSymbol? at h
  split at h <;> cases h <;> rfl

theorem Kind.spelling?_of_mem_reserved :
    ∀ p ∈ reserved, p.2.spelling? = some p.1 := by
  decide

namespace Lexeme

theorem spelled_of_spelling? {t : Token} (h : t.kind.spelling? = some t.literal) : t.Spelled := by
  refine ⟨fun hk => ?_, fun hk => ?_, fun s hs => Option.some.inj (h.symm.trans hs)⟩
  · rw [hk] at h
    contradiction
  · rw [hk] at h
    contradiction

theorem spelled_of_name {t : Token} (hk : t.kind = .identifier) (h : IsName t.literal) :
    t.Spelled := by
  refine ⟨fun _ => h, fun hn => ?_, fun s hs => ?_⟩
  · rw [hk] at hn
    contradiction
  · rw [hk] at hs
    contradiction

theorem spelled_of_numeral {t : Token} (hk : t.kind = .integer) (h : IsNumeral t.literal) :
    t.Spelled := by
  refine ⟨fun hn => ?_, fun _ => h, fun s hs => ?_⟩
  · rw [hk] at hn
    contradiction
  · rw [hk] at hs
    contradiction

theorem spelled_word {word : List Char} (hn : word ≠ []) (hw : ∀ c ∈ word, isWordChar c = true) :
    (token ⟨.ofWord (String.ofList word), word⟩).Spelled := by
  cases hl : Kind.reserved.lookup (String.ofList word) with
  | none =>
      have hk : Kind.ofWord (String.ofList word) = .identifier := by
        rw [Kind.ofWord, hl]
        rfl
      exact spelled_of_name hk ⟨by simpa [token] using hn, by simpa [token] using hw, hl⟩
  | some k =>
      have hk : Kind.ofWord (String.ofList word) = k := by
        rw [Kind.ofWord, hl]
        rfl
      obtain ⟨l₁, l₂, hr, -⟩ := List.lookup_eq_some_iff.mp hl
      have hm : (String.ofList word, k) ∈ Kind.reserved := by simp [hr]
      rw [hk]
      exact spelled_of_spelling? (Kind.spelling?_of_mem_reserved _ hm)

theorem spelled_sign (c : Char) : (token ⟨(Kind.ofSymbol? c).getD .illegal, [c]⟩).Spelled := by
  cases hk : Kind.ofSymbol? c with
  | none => exact ⟨nofun, nofun, nofun⟩
  | some k => exact spelled_of_spelling? (Kind.spelling?_of_ofSymbol? hk)

/-- The lexer gives every token the kind of its literal. -/
theorem read_spelled (c : Char) (cs : List Char) : (read c cs).1.token.Spelled := by
  rw [read.eq_def]
  split
  · next hw =>
      refine spelled_word (List.cons_ne_nil c _) fun d hd => ?_
      rcases List.mem_cons.mp hd with rfl | hd
      · exact hw
      · exact List.mem_takeWhile_imp hd
  · split
    · next hc =>
        refine spelled_of_numeral rfl ⟨by simp [token], ?_⟩
        intro d hd
        simp only [token, String.toList_ofList, List.mem_cons] at hd
        rcases hd with rfl | hd
        · exact hc
        · exact List.mem_takeWhile_imp hd
    · split
      · exact spelled_of_spelling? rfl
      · exact spelled_of_spelling? rfl
      · exact spelled_sign _

end Lexeme

theorem Token.Spelled.of_relocate {t : Token} {f : Position → Position}
    (h : (t.relocate f).Spelled) : t.Spelled :=
  ⟨h.name, h.numeral, h.sign⟩

theorem lexemes_spelled (cs : List Char) : ∀ t ∈ lexemes cs, t.Spelled := by
  induction hn : cs.length using Nat.strongRecOn generalizing cs with
  | ind n ih =>
      cases cs with
      | nil => simp [lexemes_nil]
      | cons c cs =>
          simp only [List.length_cons] at hn
          cases hb : isBlank c with
          | true =>
              rw [lexemes_of_blank cs hb]
              exact ih cs.length (by omega) cs rfl
          | false =>
              have hl := Lexeme.read_rest_length_le c cs
              rw [lexemes_cons cs hb]
              intro t ht
              rcases List.mem_cons.mp ht with rfl | ht
              · exact Lexeme.read_spelled c cs
              · exact ih _ (by omega) _ rfl t ht

theorem sourceTokens_spelled (text : String) (name : Option String) :
    ∀ t ∈ sourceTokens text name, t.Spelled := by
  intro t ht
  have hl := (yields_source text name).lexemes
  have hm : t.relocate unplace ∈ lexemes (Lexer.ofText text name).rest := by
    rw [← hl]
    exact List.mem_map_of_mem ht
  exact (lexemes_spelled _ _ hm).of_relocate

variable {ending : Token} {values : Values}

theorem Identifier.wellFormed_ofToken {t : Token} (ht : t.Spelled) (hk : t.kind = .identifier) :
    (Identifier.ofToken t).WellFormed :=
  ⟨hk, ht.name hk, rfl⟩

theorem Token.Spelled.spelling? {t : Token} (h : t.Spelled) (hk : t.kind.spelling?.isSome) :
    t.kind.spelling? = some t.literal := by
  obtain ⟨s, hs⟩ := Option.isSome_iff_exists.mp hk
  rw [hs, h.sign s hs]

theorem Derives.wellFormed {l : Layer} {ts : List Token} {x : Expr} (h : Derives l ts x)
    (hs : ∀ t ∈ ts, t.Spelled) : x.WellFormed := by
  induction h with
  | identifier ht => exact Identifier.wellFormed_ofToken (hs _ (List.mem_cons_self ..)) ht
  | integer ht hv => exact ⟨ht, (hs _ (List.mem_cons_self ..)).numeral ht, _, hv, rfl⟩
  | group _ _ _ ih => exact ih fun t ht => hs t (by simp [ht])
  | @unary o ts x ho _ ih =>
      refine ⟨ho, (hs o (List.mem_cons_self ..)).spelling? ?_, ih fun t ht => hs t (by simp [ht])⟩
      rcases ho with ho | ho <;> rw [ho] <;> rfl
  | @binary l o ts us x y ho _ _ ihx ihy =>
      refine ⟨⟨l, ho⟩, (hs o (by simp)).spelling? ?_, ihx fun t ht => hs t (by simp [ht]),
        ihy fun t ht => hs t (by simp [ht])⟩
      revert ho
      cases o.kind <;> simp [Layer.ofOperator?, Kind.spelling?]
  | tighter _ ih => exact ih hs

theorem Reads.wellFormed (he : ending.kind = .eof) {power : Power} {ts us : List Token} {x : Expr}
    (h : Reads .standard ending none power ts (.ok x) us) (hs : ∀ t ∈ ts, t.Spelled) :
    x.WellFormed := by
  obtain ⟨vs, t, rest, rfl, rfl, hd, -⟩ := (reads_iff_taken he).mp h
  refine hd.wellFormed fun u hu => hs u ?_
  simp only [List.nil_append, List.mem_append, List.mem_singleton] at hu
  rcases hu with hu | rfl <;> simp [*]

theorem ReadsStatement.wellFormed (he : ending.kind = .eof) {t : Token} {ts us : List Token}
    {s : Stmt} (h : ReadsStatement .standard ending values (t :: ts) (.ok s) us)
    (hs : ∀ u ∈ t :: ts, u.Spelled) : s.WellFormed values := by
  have ht := hs t (List.mem_cons_self ..)
  have hts : ∀ u ∈ ts, u.Spelled := fun u hu => hs u (List.mem_cons_of_mem t hu)
  obtain ⟨rule, hr, hb⟩ := h.exists_readsBy
  cases hb with
  | expression hx => exact hx.wellFormed he hs
  | binding hn _ hx =>
      have hk := Rules.standard_statement_binding.mp hr
      refine ⟨hk, ht.sign _ (by rw [hk]; rfl), ?_, by simp, ?_⟩
      · exact Identifier.wellFormed_ofToken (hts _ (by simp)) hn
      · simpa using hx.wellFormed he fun u hu => hts u (by simp [hu])
  | bindingSkipped hn =>
      have hk := Rules.standard_statement_binding.mp hr
      refine ⟨hk, ht.sign _ (by rw [hk]; rfl), ?_, by simp, by simp⟩
      exact Identifier.wellFormed_ofToken (hts _ (by simp)) hn
  | bare | returningSkipped =>
      have hk := Rules.standard_statement_returning.mp hr
      exact ⟨hk, ht.sign _ (by rw [hk]; rfl), by simp, by simp⟩
  | returning _ hx =>
      have hk := Rules.standard_statement_returning.mp hr
      refine ⟨hk, ht.sign _ (by rw [hk]; rfl), by simp, ?_⟩
      simpa using hx.wellFormed he hts

theorem ReadsItems.wellFormed (he : ending.kind = .eof) {ts : List Token} {items : List Item}
    (h : ReadsItems .standard ending values ts items) (hs : ∀ t ∈ ts, t.Spelled) :
    ∀ s ∈ items.filterMap Item.statement?, s.WellFormed values := by
  induction h with
  | done => simp
  | @statement t s ts us items hst _ ih =>
      have hu := ih fun u hu => hs u (hst.suffix.subset (List.mem_of_mem_tail hu))
      exact List.forall_mem_cons.mpr ⟨hst.wellFormed he hs, hu⟩
  | @diagnostic t d ts us items hst _ ih =>
      have hf := (fromSemicolon_suffix us).trans hst.suffix
      exact ih fun u hu => hs u (hf.subset (List.mem_of_mem_tail hu))

theorem parse_wellFormed (text : String) (name : Option String) (values : Values) :
    (parse text name values).1.WellFormed values := by
  have hy := yields_source text name
  obtain ⟨items, hi⟩ := exists_readsItems (r := .standard) hy.ends rfl values _
  rw [Program.WellFormed, (parse_of_readsItems hy hi).1]
  exact hi.wellFormed hy.ends (sourceTokens_spelled text name)

end FrontEnd
