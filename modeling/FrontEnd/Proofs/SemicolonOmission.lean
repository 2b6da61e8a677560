import FrontEnd.Proofs.Layout
import FrontEnd.Proofs.Slices

/-!
Where a semicolon can be left out. A value ends without one as well, so a statement needs its
semicolon only if it is a return without a value, or if a dash follows. Of the tokens that a
statement begins with, the dash alone would join the value in front of it. Then the longer value is
read, and that is never the same program.
-/

namespace FrontEnd

def Stmt.isBare : Stmt → Bool
  | .returning _ none _ => true
  | _ => false

/-- With a space in place of the semicolon the texts are read as the same program, without a
diagnostic. -/
def CanOmitSemicolon (before after : String) (name : Option String) : Prop :=
  let p := parse (before ++ ";" ++ after) name .parsed
  let q := parse (before ++ " " ++ after) name .parsed
  q.2.diagnostics = [] ∧
    q.1.statements.map (Stmt.relocate unplace) = p.1.statements.map (Stmt.relocate unplace)

section Statements

theorem Expr.tokens_relocate (f : Position → Position) (x : Expr) :
    (x.relocate f).tokens = x.tokens.map (Token.relocate f) := by
  induction x with
  | identifier | integer => rfl
  | unary operator right span ih => simp [relocate, tokens, ih]
  | binary left operator right span ihl ihr => simp [relocate, tokens, ihl, ihr]

namespace Stmt

theorem tokens_relocate (f : Position → Position) (s : Stmt) :
    (s.relocate f).tokens = s.tokens.map (Token.relocate f) := by
  match s with
  | .binding _ _ none _ | .returning _ none _ => rfl
  | .binding _ _ (some x) _ | .returning _ (some x) _ | .expression _ x _ =>
      simp [relocate, tokens, Identifier.relocate, x.tokens_relocate f]

theorem value?_relocate (f : Position → Position) (s : Stmt) :
    (s.relocate f).value? = s.value?.map (Expr.relocate f) := by
  cases s <;> rfl

theorem relocate_endAt (last : Span) (s : Stmt) :
    (s.endAt last).relocate unplace = s.relocate unplace := by
  cases s <;> rfl

end Stmt

variable {ending : Token} {values : Values} {ts us vs ws rest : List Token} {s s' : Stmt}
  {semi u d : Token} {x : Expr} {items items' : List Item}

/-- Where values are read, only a return can be without one. -/
theorem ReadsStatement.isBare_iff (h : ReadsStatement .standard ending .parsed ts (.ok s) us) :
    (s.isBare = true ↔ s.value? = none) ∧
      (s.isBare = true → us = ts.tail ∧ (front ending ts.tail).kind = .semicolon) := by
  rw [ReadsStatement] at h
  generalize (Rules.standard.statement (front ending ts).kind).getD .expression = rule at h
  cases h with
  | bare hs => exact ⟨⟨fun _ => rfl, fun _ => rfl⟩, fun _ => ⟨rfl, hs⟩⟩
  | expression | binding | returning => simp [Stmt.isBare, Stmt.value?]

theorem ReadsBy.token_eq {r : Rules} {rule : StatementRule}
    (h : ReadsBy r ending values rule ts (.ok s) us) : s.token = front ending ts := by
  cases h with
  | expression | binding | bindingSkipped | bare | returning | returningSkipped => rfl

theorem ReadsStatement.opens {t : Token} (he : ending.kind = .eof)
    (h : ReadsStatement .standard ending values (t :: ts) (.ok s) us) : t.kind.Opens := by
  obtain ⟨vs, hv, hts⟩ := h.exists_isStatement he
  have ho := hv.opens ending
  obtain ⟨v, vs, rfl⟩ := List.exists_cons_of_ne_nil hv.ne_nil
  obtain ⟨rfl, -⟩ := List.cons.inj hts
  exact ho

/-- Where nothing is broken, the next token begins the next statement. -/
theorem ReadsItems.head_cases (he : ending.kind = .eof)
    (h : ReadsItems .standard ending values ts items)
    (hd : items.filterMap Item.diagnostic? = []) :
    ts = [] ∧ items = [] ∨
      ∃ s items', items = .statement s :: items' ∧ s.token = front ending ts ∧
        s.token.kind.Opens := by
  cases h with
  | done => exact .inl ⟨rfl, rfl⟩
  | diagnostic => cases hd
  | statement hs hi =>
      have ht := ReadsBy.token_eq hs
      exact .inr ⟨_, _, rfl, ht, ht ▸ hs.opens he⟩

/-- Of the tokens that a statement begins with, only a dash continues an expression. -/
theorem Kind.Opens.bindsTighter_iff {k : Kind} (h : k.Opens) :
    k.BindsTighter .lowest ↔ k = .dash := by
  constructor
  · rintro ⟨l, hl, -⟩
    by_contra hn
    rw [h.ofOperator? hn] at hl
    contradiction
  · rintro rfl
    exact ⟨.sum, rfl, by decide⟩

/-- What begins a rest that is in order is no semicolon, and it continues an expression only as the
dash of a statement. -/
theorem ReadsItems.front_continues (he : ending.kind = .eof)
    (h : ReadsItems .standard ending values ts items)
    (hd : items.filterMap Item.diagnostic? = []) :
    (front ending ts).kind ≠ .semicolon ∧
      ((∀ s ∈ (items.filterMap Item.statement?).head?, s.token.kind ≠ .dash) ↔
        ¬ (front ending ts).kind.BindsTighter .lowest) := by
  rcases h.head_cases he hd with ⟨rfl, rfl⟩ | ⟨s, items', rfl, ht, ho⟩
  · exact ⟨by simp [he], iff_of_true (by simp) (not_bindsTighter_of_eof he _)⟩
  · rw [← ht, ho.bindsTighter_iff]
    exact ⟨ho.ne_semicolon, by simp [Item.statement?]⟩

theorem isKept_of_bindsTighter {k : Kind} {power : Power} (h : k.BindsTighter power) :
    k.isKept = true := by
  obtain ⟨l, hl, -⟩ := h
  cases k <;> first | rfl | cases hl

theorem eq_cons_of_pastSemicolon_of_ne (hs : semi.kind = .semicolon)
    (hu : u.kind ≠ .semicolon) (h : pastSemicolon (u :: ts) = semi :: rest) :
    ts = semi :: rest := by
  cases ts with
  | nil =>
      cases h
      exact absurd hs hu
  | cons t ts =>
      simp only [pastSemicolon] at h
      split at h
      · exact h
      · cases h
        exact absurd hs hu

/-- A statement with an expression can end without its semicolon. -/
theorem ReadsStatement.exists_omit (he : ending.kind = .eof)
    (h : ReadsStatement .standard ending values (ws ++ semi :: rest) (.ok s) (semi :: rest))
    (hk : semi.kind = .semicolon) (hx : s.value? = some x) :
    ∃ vs u, ws = vs ++ [u] ∧ EndsInExpression ending values vs u (semi :: rest) s := by
  obtain ⟨vs, u, rest₁, hts, hus, hu⟩ := h.exists_last he hx
  obtain rfl := eq_cons_of_pastSemicolon_of_ne hk hu.ne_semicolon hus.symm
  rw [List.append_cons vs u] at hts
  exact ⟨vs, u, List.append_cancel_right hts, hu⟩

namespace EndsInExpression

variable {vs' rest' : List Token} {u' : Token}

/-- No statement ends within the expression of another one. -/
theorem not_shorter (he : ending.kind = .eof) {cs : List Token}
    (h : EndsInExpression ending values (vs' ++ u' :: cs) u rest s)
    (h' : EndsInExpression ending values vs' u' rest' s')
    (hf : front ending rest' = front ending (cs ++ u :: rest)) : False := by
  have hread := h.again ending rest he h.ends
  have hread' := h'.again ending (cs ++ u :: rest) he (hf ▸ h'.ends)
  rw [List.append_assoc, List.cons_append] at hread
  obtain ⟨-, heq⟩ := ReadsBy.unique hread hread'
  have hle := (pastSemicolon_suffix (u :: rest)).length_le
  rw [heq] at hle
  cases cs with
  | nil =>
      rw [List.nil_append, pastSemicolon, if_neg h.ne_semicolon] at hle
      exact absurd hle (Nat.not_succ_le_self _)
  | cons c cs =>
      rw [List.cons_append, pastSemicolon] at hle
      split at hle <;> simp at hle <;> omega

/-- A statement that takes in an operator behind another one has more tokens. -/
theorem length_tokens_lt (he : ending.kind = .eof)
    (h : EndsInExpression ending values vs u rest s)
    (h' : EndsInExpression ending values vs' u' rest' s')
    (hts : vs ++ u :: d :: ts = vs' ++ u' :: rest') (hd : d.kind.BindsTighter .lowest) :
    s.tokens.length < s'.tokens.length := by
  rcases List.append_eq_append_iff.mp hts with ⟨cs, rfl, hcs⟩ | ⟨cs, rfl, hcs⟩
  · cases cs with
    | nil =>
        obtain ⟨rfl, rfl⟩ := List.cons.inj hcs
        exact absurd hd h'.ends
    | cons c cs =>
        obtain ⟨rfl, hrest⟩ := List.cons.inj hcs
        -- The operator is a token of the other statement.
        obtain ⟨more, hmore⟩ : ∃ more, vs ++ u :: cs ++ [u'] = vs ++ [u] ++ d :: more := by
          cases cs with
          | nil =>
              obtain ⟨rfl, -⟩ := List.cons.inj hrest
              exact ⟨[], by simp⟩
          | cons c cs =>
              obtain ⟨rfl, -⟩ := List.cons.inj hrest
              exact ⟨cs ++ [u'], by simp⟩
        rw [h.tokens, h'.tokens, hmore, List.filter_append _ (d :: more), List.length_append]
        simp [isKept_of_bindsTighter hd]
  · cases cs with
    | nil =>
        obtain ⟨rfl, rfl⟩ := List.cons.inj hcs
        exact absurd hd h'.ends
    | cons c cs =>
        obtain ⟨rfl, rfl⟩ := List.cons.inj hcs
        exact (h.not_shorter he h' (front_append_congr ..)).elim

end EndsInExpression

/-- The first statement that is read, where the statements are known but for their positions. -/
theorem ReadsItems.exists_first {statements : List Stmt}
    (h : ReadsItems .standard ending values ts items)
    (hd : items.filterMap Item.diagnostic? = [])
    (hs : (items.filterMap Item.statement?).map (Stmt.relocate unplace) =
      (s :: statements).map (Stmt.relocate unplace)) :
    ∃ s' us, ReadsStatement .standard ending values ts (.ok s') us ∧
      s'.relocate unplace = s.relocate unplace := by
  cases h with
  | done => cases hs
  | diagnostic => cases hd
  | statement hst hi => exact ⟨_, _, hst, (List.cons.inj hs).1⟩

/-- A return needs the semicolon in place of its value. -/
theorem ReadsStatement.not_bare_of_omit
    (h : ReadsStatement .standard ending .parsed (ws ++ semi :: rest) (.ok s) (semi :: rest))
    (h' : ReadsStatement .standard ending .parsed (ws ++ rest) (.ok s') us)
    (hs : s'.value?.isSome = s.value?.isSome) (hn : (front ending rest).kind ≠ .semicolon) :
    s.isBare = false := by
  obtain ⟨hbare, hfront⟩ := h.isBare_iff
  obtain ⟨hbare', hfront'⟩ := h'.isBare_iff
  refine Bool.eq_false_iff.mpr fun hb => ?_
  have hv' : s'.value? = none := by
    rw [← Option.not_isSome_iff_eq_none, hs, Option.not_isSome_iff_eq_none]
    exact hbare.mp hb
  have hl := congrArg List.length (hfront hb).1
  simp only [List.length_tail, List.length_append, List.length_cons] at hl
  obtain ⟨t, rfl⟩ := List.length_eq_one_iff.mp (show ws.length = 1 by omega)
  exact hn (hfront' (hbare'.mpr hv')).2

/-- Leaving out the semicolon of a statement. -/
theorem ReadsStatement.omit_semicolon_iff (he : ending.kind = .eof)
    (h : ReadsStatement .standard ending .parsed (ws ++ semi :: rest) (.ok s) (semi :: rest))
    (hk : semi.kind = .semicolon) (hr : ReadsItems .standard ending .parsed rest items)
    (hd : items.filterMap Item.diagnostic? = [])
    (h' : ReadsItems .standard ending .parsed (ws ++ rest) items') :
    (items'.filterMap Item.diagnostic? = [] ∧
        (items'.filterMap Item.statement?).map (Stmt.relocate unplace) =
          (s :: items.filterMap Item.statement?).map (Stmt.relocate unplace)) ↔
      s.isBare = false ∧ ∀ s' ∈ (items.filterMap Item.statement?).head?, s'.token.kind ≠ .dash := by
  obtain ⟨hn, hf⟩ := hr.front_continues he hd
  have hvalued (hb : s.isBare = false) : ∃ x, s.value? = some x :=
    Option.ne_none_iff_exists'.mp (mt h.isBare_iff.1.mpr (Bool.eq_false_iff.mp hb))
  rw [hf]
  constructor
  · rintro ⟨hd', hs⟩
    obtain ⟨s', us, hst, hs'⟩ := h'.exists_first hd' hs
    have hsome := congrArg (·.value?.isSome) hs'
    simp only [Stmt.value?_relocate, Option.isSome_map] at hsome
    have hb := h.not_bare_of_omit hst hsome hn
    refine ⟨hb, fun hc => ?_⟩
    obtain ⟨x, hx⟩ := hvalued hb
    obtain ⟨y, hy⟩ := Option.isSome_iff_exists.mp (hsome.trans (Option.isSome_of_eq_some hx))
    obtain ⟨vs, u, rfl, hu⟩ := h.exists_omit he hk hx
    obtain ⟨vs', u', rest', hts, -, hu'⟩ := hst.exists_last he hy
    cases rest with
    | nil => exact not_bindsTighter_of_eof he _ hc
    | cons d rest =>
        rw [← List.append_cons] at hts
        have hlt := hu.length_tokens_lt he hu' hts hc
        have hlen := congrArg (·.tokens.length) hs'
        simp only [Stmt.tokens_relocate, List.length_map] at hlen
        omega
  · rintro ⟨hb, hc⟩
    obtain ⟨x, hx⟩ := hvalued hb
    obtain ⟨vs, u, rfl, hu⟩ := h.exists_omit he hk hx
    have hread := hu.again ending rest he hc
    rw [pastSemicolon_cons_of_ne hn] at hread
    have hi := ReadsItems.statement_of_ne_nil (by simp) hread hr
    rw [List.append_cons] at hi
    obtain rfl := h'.unique hi
    exact ⟨hd, by simp [Item.statement?, Stmt.relocate_endAt]⟩

end Statements

section Rounds

variable {ending : Token} {values : Values} {ts : List Token}

/-- A statement is read between others. Those before it are read in the same way if something else
follows that begins alike. -/
structure ReadsBetween (ending : Token) (values : Values) (earlier later : List Item)
    (pre us vs : List Token) (s : Stmt) : Prop where
  ne_nil : us ≠ []
  reads : ReadsStatement .standard ending values us (.ok s) vs
  later : ReadsItems .standard ending values vs.tail later
  earlier : ∀ us' items, us' ≠ [] → front ending us' = front ending us →
    ReadsItems .standard ending values us' items →
      ReadsItems .standard ending values (pre ++ us') (earlier ++ items)

theorem ReadsItem.exists_statement {us : List Token} {item : Item}
    (h : ReadsItem .standard ending values ts item us) (hd : item.diagnostic? = none) :
    ∃ s, item = .statement s ∧ ReadsStatement .standard ending values ts (.ok s) us := by
  cases h with
  | statement hs => exact ⟨_, rfl, hs⟩
  | diagnostic => cases hd

theorem ReadsRounds.exists_between {rds : List Round} {rd : Round} {i : Nat}
    (he : ending.kind = .eof) (h : ReadsRounds .standard ending values ts rds)
    (hd : ∀ rd ∈ rds, rd.item.diagnostic? = none) (hr : rds[i]? = some rd) :
    ∃ earlier later pre us vs s, rds.map Round.item = earlier ++ .statement s :: later ∧
      earlier.length = i ∧ rd.item = .statement s ∧ ts = pre ++ us ∧ rd.stop.Shows vs ending ∧
        ReadsBetween ending values earlier later pre us vs s := by
  induction h generalizing i with
  | done => cases hr
  | @round t ts us first rds hstart hi hstop hrest ih =>
      obtain ⟨hfirst, hd⟩ := List.forall_mem_cons.mp hd
      obtain ⟨s, hs, hst⟩ := hi.exists_statement hfirst
      rw [List.map_cons, hs]
      cases i with
      | zero =>
          obtain rfl : first = rd := Option.some.inj hr
          exact ⟨[], _, [], t :: ts, us, s, rfl, rfl, hs, rfl, hstop, List.cons_ne_nil t ts, hst,
            hrest.readsItems, fun us' items _ _ h => h⟩
      | succ i =>
          obtain ⟨earlier, later, pre, us', vs, s', hitems, hlen, hitem, htail, hshows, hb⟩ :=
            ih hd hr
          obtain ⟨u, us, rfl⟩ := List.exists_cons_of_ne_nil (l := us) (by
            rintro rfl
            exact hb.ne_nil (List.append_eq_nil_iff.mp htail.symm).2)
          rw [List.tail_cons] at htail
          subst htail
          obtain ⟨ws, hws⟩ := ReadsBy.suffix hst
          rw [← hws] at hst ⊢
          refine ⟨.statement s :: earlier, later, ws ++ u :: pre, us', vs, s', by rw [hitems]; rfl,
            congrArg (· + 1) hlen, hitem, by simp, hshows, hb.ne_nil, hb.reads, hb.later,
            fun us'' items hn hf hi => ?_⟩
          have hfront : front ending (pre ++ us'') = front ending (pre ++ us') := by
            cases pre with
            | nil => exact hf
            | cons p pre => rfl
          have hread := hst.replace_rest he he (.inl (congrArg Token.kind hfront))
          rw [List.append_assoc]
          exact .statement_of_ne_nil (by simp) hread (hb.earlier us'' items hn hf hi)

/-- Where nothing is broken, the items in front of a statement count the statements there. -/
theorem getElem?_statements {earlier later : List Item} {s : Stmt}
    (hd : earlier.filterMap Item.diagnostic? = []) :
    let statements := (earlier ++ .statement s :: later).filterMap Item.statement?
    statements[earlier.length]? = some s ∧
      statements[earlier.length + 1]? = (later.filterMap Item.statement?).head? := by
  have hl := length_filterMap_item earlier
  rw [hd, List.length_nil, Nat.add_zero] at hl
  rw [← hl, List.filterMap_append, List.head?_eq_getElem?]
  constructor
  · rw [List.getElem?_append_right (Nat.le_refl _)]
    simp [Item.statement?]
  · rw [List.getElem?_append_right (Nat.le_add_right ..)]
    simp [Item.statement?]

end Rounds

section Lexing

theorem not_fuses_of_isBlank {cs ds : List Char} (ts : List Token)
    (h : ∀ d ∈ ds.head?, isBlank d = true) : ¬ Fuses ts cs ds := by
  rintro ⟨t, -, -, d, hd, hj⟩
  rw [joins_of_isBlank _ (h d hd)] at hj
  contradiction

theorem Kind.Admits.eq_of_semicolon {s : String} (h : Kind.semicolon.Admits s) : s = ";" := by
  cases h with
  | spelled h => exact (Option.some.inj h).symm

namespace Lexer

variable {l : Lexer} {ts us : List Token} {ending ending' : Token} {blanks ds : List Char}

theorem exists_yields_nil (h : ∀ c ∈ l.rest, isBlank c = true) : ∃ ending, l.Yields [] ending := by
  have hr : l.skipBlanks.rest = [] := List.dropWhile_eq_nil_iff.mpr h
  exact ⟨_, .nil rfl (by rw [next_of_rest_nil hr])⟩

/-- Blanks between two texts keep the tokens of both. -/
theorem Yields.append_blanks (h : l.Yields ts ending) (hb : ∀ c ∈ blanks, isBlank c = true)
    (hn : blanks = [] → ds = []) (h' : ((l.append blanks).beyond ds).Yields us ending') :
    (l.append (blanks ++ ds)).Yields (ts ++ us) ending' := by
  obtain ⟨e, he⟩ := (l.beyond blanks).exists_yields_nil hb
  have hbeyond : (l.beyond blanks).beyond ds = (l.append blanks).beyond ds := by
    simp [beyond, Lexer.append, Nat.add_assoc]
  have hrest : (l.beyond (blanks ++ ds)).Yields us ending' :=
    he.append (hbeyond ▸ h') (by rintro ⟨t, ht, -⟩; cases ht)
  refine h.append hrest (not_fuses_of_isBlank ts fun d hd => ?_)
  cases blanks with
  | nil =>
      rw [hn rfl] at hd
      cases hd
  | cons c blanks =>
      obtain rfl : c = d := by simpa using hd
      exact hb c (List.mem_cons_self ..)

end Lexer

/-- In front of a semicolon token there are blanks and the semicolon. -/
theorem Lexer.Yields.exists_semicolon {l : Lexer} {semi ending : Token} {us : List Token}
    (h : l.Yields (semi :: us) ending) (hk : semi.kind = .semicolon) :
    ∃ blanks rest, l.rest = blanks ++ ';' :: rest ∧ (∀ c ∈ blanks, isBlank c = true) ∧
      Yields ⟨l.source, l.pos + Text.byteLength blanks + 1, rest⟩ us ending := by
  have hsemi : l.next.1 = semi := h.next_fst
  have hne : l.next.1.kind ≠ .eof := by
    rw [hsemi, hk]
    decide
  have hadmits := next_admits hne
  rw [hsemi, hk] at hadmits
  obtain ⟨blanks, hb, hrest, hpos⟩ := exists_blanks_of_next hne
  rw [hsemi, hadmits.eq_of_semicolon] at hrest hpos
  replace hpos : l.next.2.pos = l.pos + Text.byteLength blanks + 1 := hpos
  refine ⟨blanks, l.next.2.rest, hrest, hb, ?_⟩
  rw [← hpos, ← next_source]
  exact h.next_snd

/-- A semicolon token is a semicolon in the text. A space in its place takes the token away and
leaves the others where they are. -/
theorem exists_semicolon_text {text : String} {name : Option String} {ts us : List Token}
    {semi : Token} (h : sourceTokens text name = ts ++ semi :: us) (hk : semi.kind = .semicolon) :
    ∃ before after, text = before ++ ";" ++ after ∧
      (sourceTokens before name).length = ts.length ∧
      (Lexer.ofText (before ++ " " ++ after) name).Yields (ts ++ us) (sourceEnd text name) := by
  have hy := yields_source text name
  rw [h] at hy
  obtain ⟨piece, e, hrest, hpos, hpiece⟩ := hy.exists_cut
  have hafter := hy.after ts.length
  rw [List.drop_left] at hafter
  obtain ⟨blanks, rest, hl, hb, hus⟩ := hafter.exists_semicolon hk
  rw [hl] at hrest
  rw [hpos, Lexer.after_source] at hus
  refine ⟨String.ofList (piece ++ blanks), String.ofList rest, ?_, ?_, ?_⟩
  · have hcs : text.toList = piece ++ (blanks ++ ';' :: rest) := hrest
    apply String.toList_inj.mp
    rw [hcs]
    simp
  · obtain ⟨e', he'⟩ := ((((Lexer.ofText text name).on piece).append blanks).beyond
      []).exists_yields_nil nofun
    have hbefore := hpiece.append_blanks hb (fun _ => rfl) he'
    have hon : ((Lexer.ofText text name).on piece).append (blanks ++ []) =
        Lexer.ofText (String.ofList (piece ++ blanks)) name := by
      simp [Lexer.append, Lexer.on, Lexer.ofText]
    rw [hon] at hbefore
    rw [((yields_source _ name).unique hbefore).1, List.append_nil]
  · have hb' : ∀ c ∈ blanks ++ [' '], isBlank c = true :=
      List.forall_mem_append.mpr ⟨hb, List.forall_mem_singleton.mpr rfl⟩
    have hbeyond : (((Lexer.ofText text name).on piece).append (blanks ++ [' '])).beyond rest =
        ⟨(Lexer.ofText text name).source, (Lexer.ofText text name).pos + Text.byteLength piece +
          Text.byteLength blanks + 1, rest⟩ := by
      have hs : Text.byteLength [' '] = 1 := rfl
      simp [Lexer.beyond, Lexer.append, Lexer.on, ← hs, Nat.add_assoc]
    have hspaced := hpiece.append_blanks hb' (by simp) (hbeyond ▸ hus)
    have hon : ((Lexer.ofText text name).on piece).append (blanks ++ [' '] ++ rest) =
        Lexer.ofText (String.ofList (piece ++ blanks) ++ " " ++ String.ofList rest) name := by
      simp [Lexer.append, Lexer.on, Lexer.ofText]
    rw [hon] at hspaced
    exact hspaced

end Lexing

/-- A semicolon at the end of a statement can be left out of a text that is in order if and only if
the statement is no bare return and the next one does not begin with a dash. -/
theorem parse_omit_semicolon_iff {text : String} {name : Option String} {i : Nat} {rd : Round}
    (hd : (parse text name .parsed).2.diagnostics = [])
    (hr : (rounds text name .parsed)[i]? = some rd)
    (hk : rd.stop.current.kind = .semicolon) :
    ∃ s before after, (parse text name .parsed).1.statements[i]? = some s ∧
      rd.item = .statement s ∧ text = before ++ ";" ++ after ∧
      rd.stop.At text name (sourceTokens before name).length ∧
      (CanOmitSemicolon before after name ↔
        s.isBare = false ∧
          ∀ s' ∈ (parse text name .parsed).1.statements[i + 1]?, s'.token.kind ≠ .dash) := by
  have he := (yields_source text name).ends
  obtain ⟨hstmts, hdiags⟩ := parse_eq_rounds text name .parsed
  rw [hd] at hdiags
  have hnone : ∀ rd ∈ rounds text name .parsed, rd.item.diagnostic? = none := by
    simpa [List.filterMap_eq_nil_iff] using hdiags.symm
  obtain ⟨earlier, later, pre, us, vs, s, hitems, rfl, hitem, htokens, hshows, hb⟩ :=
    (readsRounds text name .parsed).exists_between he hnone hr
  rw [hitems, List.filterMap_append, eq_comm, List.append_eq_nil_iff] at hdiags
  rw [hitems] at hstmts
  obtain ⟨hsame, hnext⟩ := getElem?_statements hdiags.1
  rw [← hstmts] at hsame hnext
  -- The last token of the statement is the semicolon.
  rw [hshows.current] at hk
  obtain ⟨semi, rest, rfl⟩ := List.exists_cons_of_ne_nil (l := vs) (by
    rintro rfl
    rw [front_nil, he] at hk
    contradiction)
  obtain ⟨ws, rfl⟩ := ReadsBy.suffix hb.reads
  have hws : ws ≠ [] := by
    rintro rfl
    exact (hb.reads.opens he).ne_semicolon hk
  rw [← List.append_assoc] at htokens
  obtain ⟨before, after, htext, hlen, hchanged⟩ := exists_semicolon_text htokens hk
  have hat : rd.stop.At text name (sourceTokens before name).length := by
    rw [Window.At, hlen, htokens, List.drop_left]
    exact hshows
  obtain ⟨items, hi⟩ := exists_readsItems (r := .standard) he rfl .parsed (ws ++ rest)
  have hfront : front (sourceEnd text name) (ws ++ rest) =
      front (sourceEnd text name) (ws ++ semi :: rest) := by
    obtain ⟨w, ws, rfl⟩ := List.exists_cons_of_ne_nil hws
    rfl
  have hall := hb.earlier _ items (by simp [hws]) hfront hi
  rw [← List.append_assoc] at hall
  obtain ⟨hstmts', hdiags'⟩ := parse_of_readsItems hchanged hall
  have homit := hb.reads.omit_semicolon_iff he hk hb.later hdiags.2 hi
  refine ⟨s, before, after, hsame, hitem, htext, hat, ?_⟩
  rw [hnext, ← homit, CanOmitSemicolon, ← htext, hstmts, hstmts', hdiags']
  simp only [List.filterMap_append, List.map_append, List.append_cancel_left_eq, hdiags.1,
    List.nil_append, List.filterMap_cons, Item.statement?]

/-- In the text `let x = 1; -2; c` the second semicolon can be left out, the first one cannot. -/
theorem parse_omit_semicolon_second :
    let text := "let x = 1; -2; c"
    let statements := (parse text none .parsed).1.statements
    (parse text none .parsed).2.diagnostics = [] ∧
      (∃ s before after, statements[0]? = some s ∧ text = before ++ ";" ++ after ∧
        ¬ CanOmitSemicolon before after none) ∧
      ∃ s before after, statements[1]? = some s ∧ text = before ++ ";" ++ after ∧
        CanOmitSemicolon before after none := by
  intro text statements
  have hd : (parse text none .parsed).2.diagnostics = [] := by decide +kernel
  have hfirst : (rounds text none .parsed)[0]?.map (·.stop.current.kind) = some .semicolon := by
    decide +kernel
  have hsecond : (rounds text none .parsed)[1]?.map (·.stop.current.kind) = some .semicolon := by
    decide +kernel
  obtain ⟨rd, hr, hk⟩ := Option.map_eq_some_iff.mp hfirst
  obtain ⟨rd', hr', hk'⟩ := Option.map_eq_some_iff.mp hsecond
  obtain ⟨s, before, after, hs, -, htext, -, hiff⟩ := parse_omit_semicolon_iff hd hr hk
  obtain ⟨s', before', after', hs', -, htext', -, hiff'⟩ := parse_omit_semicolon_iff hd hr' hk'
  refine ⟨hd, ⟨s, before, after, hs, htext, fun hc => ?_⟩, s', before', after', hs', htext', ?_⟩
  · have hn := (hiff.mp hc).2
    revert hn
    decide +kernel
  · have hb : (statements[1]?.map Stmt.isBare) = some false := by decide +kernel
    rw [hs'] at hb
    exact hiff'.mpr ⟨Option.some.inj hb, by decide +kernel⟩

end FrontEnd
