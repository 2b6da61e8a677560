import FrontEnd.Proofs.Precedence

/-!
The language that the parser accepts. It is given without trees and without an order of reading: a
source is any concatenation of statements, and an expression need not end in a semicolon. Since a
dash both joins operands and begins one, a source can be cut into statements in several ways. The
parser reads the longest expression, and two expressions that a dash could join are one expression
as well, so reading greedily loses nothing.
-/

namespace FrontEnd

def OptionalSemicolon (ts : List Token) : Prop :=
  ts = [] ∨ ∃ s : Token, s.kind = .semicolon ∧ ts = [s]

/-- Tokens up to the first semicolon, or up to the end of the text if there is none. -/
def SkippedValue (ts rest : List Token) : Prop :=
  ∃ us, (∀ u ∈ us, u.kind ≠ .semicolon) ∧
    ((∃ s : Token, s.kind = .semicolon ∧ ts = us ++ [s]) ∨ ts = us ∧ rest = [])

/-- The tokens are a statement in front of the rest of its source. -/
inductive IsStatement : Values → List Token → List Token → Prop
  | expression {values : Values} {x : Expr} {ts ss rest : List Token} :
      Derives .equality ts x → OptionalSemicolon ss → IsStatement values (ts ++ ss) rest
  | binding {t n a : Token} {x : Expr} {ts ss rest : List Token} :
      t.kind = .letWord → n.kind = .identifier → a.kind = .assignment →
      Derives .equality ts x → OptionalSemicolon ss →
      IsStatement .parsed (t :: n :: a :: (ts ++ ss)) rest
  | bare {t s : Token} {rest : List Token} :
      t.kind = .returnWord → s.kind = .semicolon → IsStatement .parsed [t, s] rest
  | returning {t : Token} {x : Expr} {ts ss rest : List Token} :
      t.kind = .returnWord → Derives .equality ts x → OptionalSemicolon ss →
      IsStatement .parsed (t :: (ts ++ ss)) rest
  | bindingSkipped {t n a : Token} {ts rest : List Token} :
      t.kind = .letWord → n.kind = .identifier → a.kind = .assignment → SkippedValue ts rest →
      IsStatement .skipped (t :: n :: a :: ts) rest
  | returningSkipped {t : Token} {ts rest : List Token} :
      t.kind = .returnWord → SkippedValue ts rest → IsStatement .skipped (t :: ts) rest

inductive IsProgram (values : Values) : List Token → Prop
  | nil : IsProgram values []
  | cons {ts rest : List Token} :
      IsStatement values ts rest → IsProgram values rest → IsProgram values (ts ++ rest)

namespace Rules

theorem standard_statement_of_starting {k : Kind} {rule : StartRule}
    (h : standard.starting k = some rule) : standard.statement k = none := by
  cases k <;> revert h <;> simp [standard]

theorem standard_statement_binding {k : Kind} :
    (standard.statement k).getD .expression = .binding ↔ k = .letWord := by
  cases k <;> decide

theorem standard_statement_returning {k : Kind} :
    (standard.statement k).getD .expression = .returning ↔ k = .returnWord := by
  cases k <;> decide

end Rules

def Kind.Opens (k : Kind) : Prop :=
  (Rules.standard.starting k).isSome ∨ (Rules.standard.statement k).isSome

theorem Kind.Opens.ne_semicolon {k : Kind} (h : k.Opens) : k ≠ .semicolon := by
  rintro rfl
  rcases h with h | h <;> contradiction

/-- Of the tokens that a statement can begin with, only a dash joins operands. -/
theorem Kind.Opens.ofOperator? {k : Kind} (h : k.Opens) (hd : k ≠ .dash) :
    Layer.ofOperator? k = none := by
  rcases h with h | h <;> revert h hd <;> cases k <;> decide

theorem pastSemicolon_tail (t : Token) (rest : List Token) :
    ∃ ss, OptionalSemicolon ss ∧ rest = ss ++ (pastSemicolon (t :: rest)).tail := by
  match rest with
  | [] => exact ⟨[], .inl rfl, rfl⟩
  | s :: rest =>
      by_cases hs : s.kind = .semicolon
      · exact ⟨[s], .inr ⟨s, hs, rfl⟩, by rw [pastSemicolon_cons_of_eq t rest hs]; rfl⟩
      · refine ⟨[], .inl rfl, ?_⟩
        rw [pastSemicolon_cons_of_ne (show (front s (s :: rest)).kind ≠ .semicolon from hs)]
        rfl

theorem fromSemicolon_tail (ts : List Token) :
    ∃ us, SkippedValue us (fromSemicolon ts).tail ∧ ts = us ++ (fromSemicolon ts).tail := by
  induction ts with
  | nil => exact ⟨[], ⟨[], by simp, .inr ⟨rfl, rfl⟩⟩, rfl⟩
  | cons t ts ih =>
      by_cases ht : t.kind = .semicolon
      · rw [fromSemicolon_cons_of_eq ts ht]
        exact ⟨[t], ⟨[], by simp, .inl ⟨t, ht, rfl⟩⟩, rfl⟩
      · obtain ⟨us, ⟨vs, hv, h⟩, hts⟩ := ih
        rw [fromSemicolon_cons_of_ne ts ht]
        refine ⟨t :: us, ⟨t :: vs, by simpa using ⟨ht, hv⟩, ?_⟩, by rw [List.cons_append, ← hts]⟩
        rcases h with ⟨s, hs, rfl⟩ | ⟨rfl, hr⟩
        · exact .inl ⟨s, hs, rfl⟩
        · exact .inr ⟨rfl, hr⟩

variable {ending : Token} {values : Values}

/-- What is read as an expression is one, in front of an optional semicolon. -/
theorem Reads.exists_optionalSemicolon (he : ending.kind = .eof) {ts us : List Token} {x : Expr}
    (h : Reads .standard ending none .lowest ts (.ok x) us) :
    ∃ vs ss, Derives .equality vs x ∧ OptionalSemicolon ss ∧
      ts = vs ++ ss ++ (pastSemicolon us).tail := by
  obtain ⟨vs, t, rest, rfl, rfl, hd, -⟩ := (reads_iff_taken he).mp h
  obtain ⟨ss, hs, hr⟩ := pastSemicolon_tail t rest
  refine ⟨vs ++ [t], ss, hd, hs, ?_⟩
  rw [List.append_assoc _ ss, ← hr, List.append_assoc]
  rfl

/-- What is read as a statement is one. -/
theorem ReadsStatement.exists_isStatement (he : ending.kind = .eof) {t : Token} {s : Stmt}
    {ts us : List Token} (h : ReadsStatement .standard ending values (t :: ts) (.ok s) us) :
    ∃ vs, IsStatement values vs us.tail ∧ t :: ts = vs ++ us.tail := by
  obtain ⟨rule, hr, hb⟩ := h.exists_readsBy
  cases hb with
  | expression hx =>
      obtain ⟨vs, ss, hd, hs, hts⟩ := hx.exists_optionalSemicolon he
      exact ⟨vs ++ ss, .expression hd hs, hts⟩
  | binding hn ha hx =>
      obtain ⟨vs, ss, hd, hs, hts⟩ := hx.exists_optionalSemicolon he
      have ht := Rules.standard_statement_binding.mp hr
      exact ⟨_, .binding ht hn ha hd hs, by rw [hts]; rfl⟩
  | bindingSkipped hn ha =>
      rw [fromSemicolon_cons_of_ne _ (by rw [ha]; decide)]
      obtain ⟨vs, hv, hts⟩ := fromSemicolon_tail _
      have ht := Rules.standard_statement_binding.mp hr
      exact ⟨_, .bindingSkipped ht hn ha hv, congrArg (_ :: _ :: _ :: ·) hts⟩
  | bare hs =>
      have ht := Rules.standard_statement_returning.mp hr
      cases ts with
      | nil =>
          rw [List.tail_cons, front_nil, he] at hs
          contradiction
      | cons s ts => exact ⟨_, .bare ht hs, rfl⟩
  | returning _ hx =>
      obtain ⟨vs, ss, hd, hs, hts⟩ := hx.exists_optionalSemicolon he
      have ht := Rules.standard_statement_returning.mp hr
      exact ⟨_, .returning ht hd hs, congrArg (t :: ·) hts⟩
  | returningSkipped =>
      obtain ⟨vs, hv, hts⟩ := fromSemicolon_tail ts
      have ht := Rules.standard_statement_returning.mp hr
      exact ⟨_, .returningSkipped ht hv, congrArg (t :: ·) hts⟩

theorem ReadsItems.isProgram (he : ending.kind = .eof) {ts : List Token} {items : List Item}
    (h : ReadsItems .standard ending values ts items)
    (hi : items.filterMap Item.diagnostic? = []) : IsProgram values ts := by
  induction h with
  | done => exact .nil
  | statement hs _ ih =>
      obtain ⟨vs, hv, hts⟩ := hs.exists_isStatement he
      rw [hts]
      exact .cons hv (ih hi)
  | diagnostic => cases hi

variable (ending) in
theorem Derives.starting {l : Layer} {ts : List Token} {x : Expr} (h : Derives l ts x) :
    ∃ rule, Rules.standard.starting (front ending ts).kind = some rule := by
  induction h with
  | identifier ht => exact ⟨_, Rules.standard_starting_identifier.mpr ht⟩
  | integer ht => exact ⟨_, Rules.standard_starting_integer.mpr ht⟩
  | group ho => exact ⟨_, Rules.standard_starting_grouping.mpr ho⟩
  | unary ho => exact ⟨_, Rules.standard_starting_unary.mpr ho⟩
  | binary _ hx _ ih =>
      obtain ⟨t, ts, rfl⟩ := List.exists_cons_of_ne_nil hx.ne_nil
      exact ih
  | tighter _ ih => exact ih

variable (ending) in
theorem IsStatement.opens {ts rest : List Token} (h : IsStatement values ts rest) :
    (front ending ts).kind.Opens := by
  cases h with
  | expression hx =>
      obtain ⟨rule, hs⟩ := hx.starting ending
      obtain ⟨t, ts, rfl⟩ := List.exists_cons_of_ne_nil hx.ne_nil
      exact .inl (Option.isSome_of_eq_some hs)
  | binding ht | bare ht | returning ht | bindingSkipped ht | returningSkipped ht =>
      rw [front_cons, ht]
      exact .inr rfl

theorem IsStatement.ne_nil {ts rest : List Token} (h : IsStatement values ts rest) : ts ≠ [] := by
  cases h with
  | expression hx => simp [hx.ne_nil]
  | binding | bare | returning | bindingSkipped | returningSkipped => simp

variable (ending) in
theorem OptionalSemicolon.eq_nil_or {ts : List Token} (h : OptionalSemicolon ts)
    (rest : List Token) :
    ts = [] ∨ Layer.ofOperator? (front ending (ts ++ rest)).kind = none := by
  rcases h with rfl | ⟨s, hs, rfl⟩
  · exact .inl rfl
  · exact .inr (by rw [List.singleton_append, front_cons, hs]; rfl)

/-- The longest expression leaves statements. Where a statement begins with a dash, the expression
before it takes it in. -/
theorem IsProgram.exists_longest (he : ending.kind = .eof) {rest : List Token}
    (h : IsProgram values rest) {ts ss : List Token} {x : Expr} (hx : Derives .equality ts x)
    (hs : OptionalSemicolon ss) :
    ∃ us y ss' rest', ts ++ (ss ++ rest) = us ++ (ss' ++ rest') ∧ Derives .equality us y ∧
      OptionalSemicolon ss' ∧ IsProgram values rest' ∧
      Layer.ofOperator? (front ending (ss' ++ rest')).kind = none := by
  induction h generalizing ts ss x with
  | nil =>
      refine ⟨ts, x, ss, [], rfl, hx, hs, .nil, ?_⟩
      rcases hs.eq_nil_or ending [] with rfl | hn
      · rw [List.append_nil, front_nil, he]
        rfl
      · exact hn
  | @cons vs rest hv hr ih =>
      rcases hs.eq_nil_or ending (vs ++ rest) with rfl | hn
      · have hf : front ending (vs ++ rest) = front ending vs := by
          obtain ⟨v, vs, rfl⟩ := List.exists_cons_of_ne_nil hv.ne_nil
          rfl
        by_cases hd : (front ending vs).kind = .dash
        -- Only an expression statement begins with a dash. It becomes part of the one before.
        · cases hv with
          | @expression _ y us ss' _ hy hs' =>
              obtain ⟨d, us, rfl⟩ := List.exists_cons_of_ne_nil hy.ne_nil
              obtain ⟨z, hz⟩ := hx.exists_append_dash hd hy
              simpa [List.append_assoc] using ih hz hs'
          | binding ht | bare ht | returning ht | bindingSkipped ht | returningSkipped ht =>
              rw [front_cons, ht] at hd
              contradiction
        · exact ⟨ts, x, [], vs ++ rest, rfl, hx, .inl rfl, .cons hv hr, by
            rw [List.nil_append, hf]
            exact (hv.opens ending).ofOperator? hd⟩
      · exact ⟨ts, x, ss, vs ++ rest, rfl, hx, hs, .cons hv hr, hn⟩

/-- Where an expression is followed by statements, an expression is read that is followed by
statements. -/
theorem IsProgram.exists_reads (he : ending.kind = .eof) {rest : List Token}
    (h : IsProgram values rest) {ts ss : List Token} {x : Expr} (hx : Derives .equality ts x)
    (hs : OptionalSemicolon ss) :
    ∃ y us, Reads .standard ending none .lowest (ts ++ ss ++ rest) (.ok y) us ∧
      IsProgram values (pastSemicolon us).tail := by
  obtain ⟨us, y, ss, rest, heq, hy, hs, hr, hn⟩ := h.exists_longest he hx hs
  have hb : ¬ (front ending (ss ++ rest)).kind.BindsTighter .lowest := by
    rintro ⟨l, hl, -⟩
    rw [hn] at hl
    contradiction
  have hy' : Derives (.ofPower .lowest) us y := hy
  obtain ⟨us, t, rfl, hread⟩ := hy'.reads_ok hb
  rw [List.append_assoc, heq, List.append_assoc]
  refine ⟨y, t :: (ss ++ rest), hread, ?_⟩
  rcases hs with rfl | ⟨s, hs, rfl⟩
  · have hp : pastSemicolon (t :: ([] ++ rest)) = t :: rest := by
      cases hr with
      | nil => rfl
      | @cons vs rest hv _ =>
          obtain ⟨v, vs, rfl⟩ := List.exists_cons_of_ne_nil hv.ne_nil
          have hk : (front v (v :: (vs ++ rest))).kind ≠ .semicolon := (hv.opens v).ne_semicolon
          exact pastSemicolon_cons_of_ne hk
    rw [hp]
    exact hr
  · rw [List.singleton_append, pastSemicolon_cons_of_eq t rest hs]
    exact hr

theorem SkippedValue.tail_fromSemicolon {ts rest : List Token} (h : SkippedValue ts rest) :
    (fromSemicolon (ts ++ rest)).tail = rest := by
  obtain ⟨us, hu, h⟩ := h
  have hskip (vs : List Token) : fromSemicolon (us ++ vs) = fromSemicolon vs :=
    List.dropWhile_append_of_pos fun u hm => by simpa using hu u hm
  rcases h with ⟨s, hs, rfl⟩ | ⟨rfl, rfl⟩
  · rw [List.append_assoc, hskip, List.singleton_append, fromSemicolon_cons_of_eq rest hs]
    rfl
  · rw [hskip]
    rfl

/-- Where a statement is followed by statements, a statement is read that is followed by
statements. It need not be the same one. -/
theorem IsStatement.exists_reads (he : ending.kind = .eof) {ts rest : List Token}
    (h : IsStatement values ts rest) (hr : IsProgram values rest) :
    ∃ s us, ReadsStatement .standard ending values (ts ++ rest) (.ok s) us ∧
      IsProgram values us.tail := by
  unfold ReadsStatement
  cases h with
  | expression hx hs =>
      obtain ⟨y, us, hread, hp⟩ := hr.exists_reads he hx hs
      obtain ⟨rule, hf⟩ := hx.starting ending
      obtain ⟨t, ts, rfl⟩ := List.exists_cons_of_ne_nil hx.ne_nil
      simp only [List.cons_append, front_cons] at hf hread ⊢
      rw [Rules.standard_statement_of_starting hf]
      exact ⟨_, _, .expression hread, hp⟩
  | binding ht hn ha hx hs =>
      obtain ⟨y, us, hread, hp⟩ := hr.exists_reads he hx hs
      rw [List.cons_append, front_cons, Rules.standard_statement_binding.mpr ht]
      exact ⟨_, _, .binding hn ha hread, hp⟩
  | bare ht hs =>
      rw [List.cons_append, front_cons, Rules.standard_statement_returning.mpr ht]
      exact ⟨_, _, .bare hs, hr⟩
  | returning ht hx hs =>
      obtain ⟨y, us, hread, hp⟩ := hr.exists_reads he hx hs
      rw [List.cons_append, front_cons, Rules.standard_statement_returning.mpr ht]
      refine ⟨_, _, .returning ?_ hread, hp⟩
      obtain ⟨rule, hf⟩ := hx.starting ending
      obtain ⟨u, ts, rfl⟩ := List.exists_cons_of_ne_nil hx.ne_nil
      have ho : u.kind.Opens := .inl (Option.isSome_of_eq_some hf)
      exact ho.ne_semicolon
  | @bindingSkipped t n a ts _ ht hn ha hv =>
      have hskip : (fromSemicolon (a :: (ts ++ rest))).tail = rest := by
        rw [fromSemicolon_cons_of_ne _ (by rw [ha]; decide), hv.tail_fromSemicolon]
      rw [List.cons_append, front_cons, Rules.standard_statement_binding.mpr ht]
      exact ⟨_, _, .bindingSkipped hn ha, hskip.symm ▸ hr⟩
  | returningSkipped ht hv =>
      rw [List.cons_append, front_cons, Rules.standard_statement_returning.mpr ht]
      exact ⟨_, _, .returningSkipped, hv.tail_fromSemicolon.symm ▸ hr⟩

theorem IsProgram.exists_readsItems (he : ending.kind = .eof) {ts : List Token}
    (h : IsProgram values ts) :
    ∃ items, ReadsItems .standard ending values ts items ∧
      items.filterMap Item.diagnostic? = [] := by
  induction hn : ts.length using Nat.strongRecOn generalizing ts with
  | ind n ih =>
      cases h with
      | nil => exact ⟨[], .done, rfl⟩
      | cons hv hr =>
          obtain ⟨s, us, hs, hp⟩ := hv.exists_reads he hr
          obtain ⟨t, ts, rfl⟩ := List.exists_cons_of_ne_nil hv.ne_nil
          obtain ⟨items, hi, hd⟩ := ih _ (hn ▸ length_tail_lt hs.suffix) hp rfl
          exact ⟨_, .statement hs hi, hd⟩

/-- The parser accepts exactly its language: a source is read without a diagnostic if and only if
its tokens are a concatenation of statements. -/
theorem parse_accepts_iff (text : String) (name : Option String) (values : Values) :
    (parse text name values).2.diagnostics = [] ↔
      IsProgram values (sourceTokens text name) := by
  have hy := yields_source text name
  constructor
  · intro h
    obtain ⟨items, hi⟩ := exists_readsItems (r := .standard) hy.ends rfl values _
    exact hi.isProgram hy.ends ((parse_of_readsItems hy hi).2.symm.trans h)
  · intro h
    obtain ⟨items, hi, hd⟩ := h.exists_readsItems hy.ends
    exact (parse_of_readsItems hy hi).2.trans hd

end FrontEnd
