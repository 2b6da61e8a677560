import FrontEnd.Proofs.Language
import FrontEnd.Proofs.Tiling

/-!
A program in the order in which it is read. The tokens of its tree come in the order of the source,
and where nothing is skipped or broken only the signs that leave no trace in a tree are missing. A
node spans its own tokens, from the start of the first one to the end of the last, without the
parentheses around it.
-/

namespace FrontEnd

def Kind.isKept : Kind → Bool
  | .eof | .semicolon | .openParen | .closeParen | .assignment => false
  | _ => true

def Expr.tokens : Expr → List Token
  | .identifier id => [id.token]
  | .integer token _ => [token]
  | .unary operator right _ => operator :: right.tokens
  | .binary left operator right _ => left.tokens ++ operator :: right.tokens

def Expr.parts : Expr → List Expr
  | x@(.identifier _) | x@(.integer _ _) => [x]
  | x@(.unary _ right _) => x :: right.parts
  | x@(.binary left _ right _) => x :: (left.parts ++ right.parts)

def Stmt.value? : Stmt → Option Expr
  | .binding _ _ value _ | .returning _ value _ => value
  | .expression _ x _ => some x

def Stmt.tokens : Stmt → List Token
  | .binding token name value _ => token :: name.token :: value.toList.flatMap Expr.tokens
  | .returning token value _ => token :: value.toList.flatMap Expr.tokens
  | .expression _ x _ => x.tokens

namespace Program

def tokens (p : Program) : List Token :=
  p.statements.flatMap Stmt.tokens

def parts (p : Program) : List Expr :=
  (p.statements.filterMap Stmt.value?).flatMap Expr.parts

end Program

def Expr.SpansTokens (x : Expr) : Prop :=
  ∃ first last, x.tokens.head? = some first ∧ x.tokens.getLast? = some last ∧
    x.span = first.span.hull last.span

namespace Span

def Before (s u : Span) : Prop :=
  s.stop.offset.toNat ≤ u.start.offset.toNat

structure Within (s outer : Span) : Prop where
  start : outer.start.offset.toNat ≤ s.start.offset.toNat
  lt : s.start.offset.toNat < s.stop.offset.toNat
  stop : s.stop.offset.toNat ≤ outer.stop.offset.toNat

end Span

/-- What a node consists of lies in its span, one behind the other. -/
def Expr.InOrder : Expr → Prop
  | .identifier _ | .integer _ _ => True
  | .unary operator right span =>
      operator.span.Within span ∧ right.span.Within span ∧ operator.span.Before right.span
  | .binary left operator right span =>
      left.span.Within span ∧ operator.span.Within span ∧ right.span.Within span ∧
        left.span.Before operator.span ∧ operator.span.Before right.span

structure Ascending (ts : List Token) : Prop where
  lt : ∀ t ∈ ts, t.span.start.offset.toNat < t.span.stop.offset.toNat
  before : ts.Pairwise fun t u => t.span.Before u.span

namespace Expr

variable {x y : Expr}

theorem mem_parts_self (x : Expr) : x ∈ x.parts := by
  cases x with
  | identifier | integer | unary | binary => exact List.mem_cons_self ..

end Expr

section

variable {l : Layer} {ts us : List Token} {x : Expr}

/-- Only parentheses are missing in the tokens of a tree. -/
theorem Derives.tokens_eq (h : Derives l ts x) : x.tokens = ts.filter (·.kind.isKept) := by
  induction h with
  | identifier ht | integer ht => simp [Expr.tokens, Identifier.ofToken, Kind.isKept, ht]
  | group ho _ hc ih => simp [Kind.isKept, ho, hc, ih]
  | unary ho _ ih => rcases ho with ho | ho <;> simp [Expr.tokens, Kind.isKept, ho, ih]
  | @binary l o _ _ _ _ ho _ _ ihx ihy =>
      have hk : o.kind.isKept = true := by
        revert ho
        cases o.kind <;> simp [Layer.ofOperator?, Kind.isKept]
      simp [Expr.tokens, hk, ihx, ihy]
  | tighter _ ih => exact ih

theorem Derives.spansTokens (h : Derives l ts x) : ∀ y ∈ x.parts, y.SpansTokens := by
  induction h with
  | identifier | integer =>
      intro y hy
      obtain rfl := List.mem_singleton.mp hy
      exact ⟨_, _, rfl, rfl, rfl⟩
  | group _ _ _ ih | tighter _ ih => exact ih
  | @unary o ts x _ _ ih =>
      refine List.forall_mem_cons.mpr ⟨?_, ih⟩
      obtain ⟨_, last, -, hl, hs⟩ := ih x x.mem_parts_self
      refine ⟨o, last, rfl, ?_, ?_⟩
      · rw [Expr.tokens, List.getLast?_cons, hl]
        rfl
      · rw [Expr.span, hs]
        rfl
  | @binary l o ts us x y _ _ _ ihx ihy =>
      refine List.forall_mem_cons.mpr ⟨?_, List.forall_mem_append.mpr ⟨ihx, ihy⟩⟩
      obtain ⟨first, _, hf, -, hsx⟩ := ihx x x.mem_parts_self
      obtain ⟨_, last, -, hl, hsy⟩ := ihy y y.mem_parts_self
      refine ⟨first, last, ?_, ?_, ?_⟩
      · rw [Expr.tokens, List.head?_append, hf]
        rfl
      · rw [Expr.tokens, List.getLast?_append, List.getLast?_cons, hl]
        rfl
      · rw [Expr.span, hsx, hsy]
        rfl

end

namespace Ascending

variable {ts us : List Token} {first last t : Token}

theorem sublist (h : Ascending us) (hs : ts.Sublist us) : Ascending ts :=
  ⟨fun t ht => h.lt t (hs.subset ht), h.before.sublist hs⟩

theorem start_le (h : Ascending ts) (hf : ts.head? = some first) (ht : t ∈ ts) :
    first.span.start.offset.toNat ≤ t.span.start.offset.toNat := by
  obtain ⟨us, rfl⟩ := List.head?_eq_some_iff.mp hf
  rcases List.mem_cons.mp ht with rfl | ht
  · exact Nat.le_refl _
  · have hlt := h.lt first (List.mem_cons_self ..)
    exact Nat.le_trans (Nat.le_of_lt hlt) (List.rel_of_pairwise_cons h.before ht)

theorem le_stop (h : Ascending ts) (hl : ts.getLast? = some last) (ht : t ∈ ts) :
    t.span.stop.offset.toNat ≤ last.span.stop.offset.toNat := by
  obtain ⟨us, rfl⟩ := List.getLast?_eq_some_iff.mp hl
  rcases List.mem_append.mp ht with hu | hu
  · have hb := (List.pairwise_append.mp h.before).2.2 t hu last (List.mem_singleton.mpr rfl)
    have hlt := h.lt last (List.mem_append_right us (List.mem_singleton.mpr rfl))
    exact Nat.le_trans hb (Nat.le_of_lt hlt)
  · rw [List.mem_singleton.mp hu]

end Ascending

namespace Expr.SpansTokens

variable {x y : Expr}

theorem exists_mem (h : x.SpansTokens) :
    ∃ first ∈ x.tokens, ∃ last ∈ x.tokens, x.span = first.span.hull last.span := by
  obtain ⟨first, last, hf, hl, hs⟩ := h
  exact ⟨first, List.mem_of_head? hf, last, List.mem_of_getLast? hl, hs⟩

theorem lt (h : x.SpansTokens) (ht : Ascending x.tokens) :
    x.span.start.offset.toNat < x.span.stop.offset.toNat := by
  obtain ⟨first, last, hf, hl, hs⟩ := h
  have hm := List.mem_of_getLast? hl
  rw [hs]
  exact Nat.lt_of_le_of_lt (ht.start_le hf hm) (ht.lt last hm)

theorem token_within (h : x.SpansTokens) (ht : Ascending x.tokens) {t : Token}
    (hm : t ∈ x.tokens) : t.span.Within x.span := by
  obtain ⟨first, last, hf, hl, hs⟩ := h
  rw [hs]
  exact ⟨ht.start_le hf hm, ht.lt t hm, ht.le_stop hl hm⟩

theorem within (h : x.SpansTokens) (ht : Ascending x.tokens) (hy : y.SpansTokens)
    (hs : y.tokens.Sublist x.tokens) : y.span.Within x.span := by
  have hlt := hy.lt (ht.sublist hs)
  obtain ⟨first, hf, last, hl, he⟩ := hy.exists_mem
  rw [he] at hlt ⊢
  have hfirst := h.token_within ht (hs.subset hf)
  have hlast := h.token_within ht (hs.subset hl)
  exact ⟨hfirst.start, hlt, hlast.stop⟩

theorem before (h : x.SpansTokens) {t : Token} (ht : ∀ u ∈ x.tokens, t.span.Before u.span) :
    t.span.Before x.span := by
  obtain ⟨first, hf, last, -, hs⟩ := h.exists_mem
  rw [hs]
  exact ht first hf

theorem before_token (h : x.SpansTokens) {t : Token} (ht : ∀ u ∈ x.tokens, u.span.Before t.span) :
    x.span.Before t.span := by
  obtain ⟨first, -, last, hl, hs⟩ := h.exists_mem
  rw [hs]
  exact ht last hl

end Expr.SpansTokens

/-- Where nodes span their tokens and these lie one behind the other, so do the parts of a node. -/
theorem Expr.inOrder_of_mem_parts {x : Expr} (hx : ∀ y ∈ x.parts, y.SpansTokens)
    (ht : Ascending x.tokens) : ∀ y ∈ x.parts, y.InOrder := by
  induction x with
  | identifier | integer =>
      intro y hy
      obtain rfl := List.mem_singleton.mp hy
      trivial
  | unary operator right span ih =>
      obtain ⟨hself, hparts⟩ := List.forall_mem_cons.mp hx
      have hright := hparts right right.mem_parts_self
      have hs : right.tokens.Sublist (operator :: right.tokens) := List.sublist_cons_self ..
      have hb := (List.pairwise_cons.mp ht.before).1
      refine List.forall_mem_cons.mpr ⟨⟨?_, ?_, ?_⟩, ih hparts (ht.sublist hs)⟩
      · exact hself.token_within ht (List.mem_cons_self ..)
      · exact hself.within ht hright hs
      · exact hright.before hb
  | binary left operator right span ihl ihr =>
      obtain ⟨hself, hparts⟩ := List.forall_mem_cons.mp hx
      obtain ⟨hpl, hpr⟩ := List.forall_mem_append.mp hparts
      have hleft := hpl left left.mem_parts_self
      have hright := hpr right right.mem_parts_self
      have hsl : left.tokens.Sublist (left.tokens ++ operator :: right.tokens) :=
        List.sublist_append_left ..
      have hsr : right.tokens.Sublist (left.tokens ++ operator :: right.tokens) :=
        (List.sublist_cons_self ..).trans (List.sublist_append_right ..)
      have hm : operator ∈ left.tokens ++ operator :: right.tokens :=
        List.mem_append_right _ (List.mem_cons_self ..)
      obtain ⟨-, hor, hlo⟩ := List.pairwise_append.mp ht.before
      refine List.forall_mem_cons.mpr ⟨⟨?_, ?_, ?_, ?_, ?_⟩, List.forall_mem_append.mpr
        ⟨ihl hpl (ht.sublist hsl), ihr hpr (ht.sublist hsr)⟩⟩
      · exact hself.within ht hleft hsl
      · exact hself.token_within ht hm
      · exact hself.within ht hright hsr
      · exact hleft.before_token fun u hu => hlo u hu operator (List.mem_cons_self ..)
      · exact hright.before (List.pairwise_cons.mp hor).1

section

variable {cs : List Char} {start : Nat} {t : Token} {ts : List Token} {place : Nat × Nat}
  {places : List (Nat × Nat)}

/-- In a text that is short enough, offsets are what they are. -/
theorem Token.LiesAt.offset_eq (h : t.LiesAt cs place)
    (hc : Text.byteLength cs < UInt32.size) :
    t.span.start.offset.toNat = place.1 ∧ t.span.stop.offset.toNat = place.2 := by
  obtain ⟨before, after, rfl, -, hstop⟩ := h.literal
  rw [Text.byteLength_append, hstop] at hc
  have hlt := h.lt
  rw [h.span.1, h.span.2, Nat.mod_eq_of_lt (by omega), Nat.mod_eq_of_lt (by omega)]
  exact ⟨rfl, rfl⟩

theorem Tiles.ascending (h : Tiles cs start ts places) (hc : Text.byteLength cs < UInt32.size) :
    Ascending ts ∧ ∀ t ∈ ts, start ≤ t.span.start.offset.toNat := by
  obtain ⟨ht, hg⟩ := h
  induction ht generalizing start with
  | nil => exact ⟨⟨List.forall_mem_nil _, .nil⟩, List.forall_mem_nil _⟩
  | @cons t place ts places hp _ ih =>
      obtain ⟨hgap, hg⟩ := List.forall_mem_cons.mp hg
      obtain ⟨⟨hlt, hb⟩, hle⟩ := ih hg
      obtain ⟨hstart, hstop⟩ := hp.offset_eq hc
      have hfirst : start ≤ place.1 := hgap.le
      have hlater : place.1 < place.2 := hp.lt
      refine ⟨⟨List.forall_mem_cons.mpr ⟨?_, hlt⟩, .cons ?_ hb⟩, List.forall_mem_cons.mpr ⟨?_, ?_⟩⟩
      · rwa [hstart, hstop]
      · intro u hu
        rw [Span.Before, hstop]
        exact hle u hu
      · rwa [hstart]
      · intro u hu
        have hu := hle u hu
        omega

end

/-- What the tree of a statement keeps of the tokens that the statement takes: some of them in their
order, and where values are read all but the signs that leave no trace. -/
structure Stmt.Keeps (s : Stmt) (values : Values) (ts : List Token) : Prop where
  sublist : s.tokens.Sublist ts
  eq_filter : values = .parsed → s.tokens = ts.filter (·.kind.isKept)
  derives : ∀ x, s.value? = some x → ∃ us, Derives .equality us x

theorem Stmt.keeps_of_eq {s : Stmt} {values : Values} {ts : List Token}
    (h : s.tokens = ts.filter (·.kind.isKept))
    (hd : ∀ x, s.value? = some x → ∃ us, Derives .equality us x) : s.Keeps values ts :=
  ⟨h ▸ List.filter_sublist, fun _ => h, hd⟩

section

variable {ending t : Token} {values : Values} {ts us ss : List Token} {s : Stmt} {x : Expr}

theorem Derives.tokens_eq_append (h : Derives .equality ts x) (hs : OptionalSemicolon ss) :
    x.tokens = (ts ++ ss).filter (·.kind.isKept) := by
  rw [List.filter_append, ← h.tokens_eq]
  rcases hs with rfl | ⟨s, hs, rfl⟩
  · rw [List.filter_nil, List.append_nil]
  · rw [List.filter_cons_of_neg (by simp [hs, Kind.isKept]), List.filter_nil, List.append_nil]

theorem ReadsStatement.exists_keeps (he : ending.kind = .eof)
    (h : ReadsStatement .standard ending values (t :: ts) (.ok s) us) :
    ∃ vs, t :: ts = vs ++ us.tail ∧ s.Keeps values vs := by
  obtain ⟨rule, hr, hb⟩ := h.exists_readsBy
  cases hb with
  | expression hx =>
      obtain ⟨vs, ss, hd, hs, hts⟩ := hx.exists_optionalSemicolon he
      refine ⟨vs ++ ss, hts, Stmt.keeps_of_eq (hd.tokens_eq_append hs) fun _ hv => ?_⟩
      exact Option.some.inj hv ▸ ⟨vs, hd⟩
  | @binding _ n a x _ _ hn ha hx =>
      obtain ⟨vs, ss, hd, hs, hts⟩ := hx.exists_optionalSemicolon he
      have ht := Rules.standard_statement_binding.mp hr
      refine ⟨t :: n :: a :: (vs ++ ss), by rw [hts]; rfl, Stmt.keeps_of_eq ?_ fun _ hv => ?_⟩
      · simp [Stmt.tokens, Identifier.ofToken, Kind.isKept, ht, hn, ha, hd.tokens_eq_append hs]
      · exact Option.some.inj hv ▸ ⟨vs, hd⟩
  -- The assignment sign is skipped with the value.
  | @bindingSkipped _ n a _ hn ha =>
      obtain ⟨vs, -, hts⟩ := fromSemicolon_tail (a :: _)
      refine ⟨t :: n :: vs, congrArg (t :: n :: ·) hts, ?_, nofun, nofun⟩
      exact ((List.nil_sublist vs).cons_cons n).cons_cons t
  | bare hs =>
      have ht := Rules.standard_statement_returning.mp hr
      cases ts with
      | nil =>
          rw [List.tail_cons, front_nil, he] at hs
          contradiction
      | cons s ts =>
          replace hs : s.kind = .semicolon := hs
          refine ⟨[t, s], rfl, Stmt.keeps_of_eq ?_ nofun⟩
          simp [Stmt.tokens, Kind.isKept, ht, hs]
  | returning _ hx =>
      obtain ⟨vs, ss, hd, hs, hts⟩ := hx.exists_optionalSemicolon he
      have ht := Rules.standard_statement_returning.mp hr
      refine ⟨t :: (vs ++ ss), congrArg (t :: ·) hts, Stmt.keeps_of_eq ?_ fun _ hv => ?_⟩
      · simp [Stmt.tokens, Kind.isKept, ht, hd.tokens_eq_append hs]
      · exact Option.some.inj hv ▸ ⟨vs, hd⟩
  | returningSkipped =>
      obtain ⟨vs, -, hts⟩ := fromSemicolon_tail ts
      refine ⟨t :: vs, congrArg (t :: ·) hts, ?_, nofun, nofun⟩
      exact (List.nil_sublist vs).cons_cons t

theorem ReadsItems.keeps (he : ending.kind = .eof) {items : List Item}
    (h : ReadsItems .standard ending values ts items) :
    let statements := items.filterMap Item.statement?
    (statements.flatMap Stmt.tokens).Sublist ts ∧
      (values = .parsed → items.filterMap Item.diagnostic? = [] →
        statements.flatMap Stmt.tokens = ts.filter (·.kind.isKept)) ∧
      ∀ s ∈ statements, ∀ x, s.value? = some x → ∃ us, Derives .equality us x := by
  induction h with
  | done => exact ⟨.refl _, fun _ _ => rfl, List.forall_mem_nil _⟩
  | statement hs _ ih =>
      obtain ⟨hsub, heq, hd⟩ := ih
      obtain ⟨vs, hts, hk⟩ := hs.exists_keeps he
      rw [hts]
      refine ⟨hk.sublist.append hsub, fun hv hn => ?_, List.forall_mem_cons.mpr ⟨hk.derives, hd⟩⟩
      rw [List.filter_append, ← hk.eq_filter hv, ← heq hv hn]
      rfl
  | diagnostic hs _ ih =>
      obtain ⟨hsub, -, hd⟩ := ih
      have hu := ((List.tail_suffix _).trans (fromSemicolon_suffix _)).trans (ReadsBy.suffix hs)
      exact ⟨hsub.trans hu.sublist, nofun, hd⟩

end

theorem Program.tokens_sublist_of_mem_parts {p : Program} {y : Expr} (h : y ∈ p.parts) :
    ∃ x, y ∈ x.parts ∧ x.tokens.Sublist p.tokens ∧ ∃ s ∈ p.statements, s.value? = some x := by
  obtain ⟨x, hx, hy⟩ := List.mem_flatMap.mp h
  obtain ⟨s, hs, hv⟩ := List.mem_filterMap.mp hx
  have hsub : s.tokens.Sublist p.tokens := by
    rw [Program.tokens, List.flatMap_def]
    exact List.sublist_flatten_of_mem (List.mem_map_of_mem hs)
  refine ⟨x, hy, .trans ?_ hsub, s, hs, hv⟩
  cases s with
  | expression =>
      cases hv
      exact .refl _
  | binding token name value span =>
      cases hv
      rw [Stmt.tokens, Option.toList_some, List.flatMap_singleton]
      exact ((List.Sublist.refl _).cons _).cons _
  | returning token value span =>
      cases hv
      rw [Stmt.tokens, Option.toList_some, List.flatMap_singleton]
      exact (List.Sublist.refl _).cons _

/-- A program has its tokens in the order of its source. Where values are read and nothing is
broken, it has them all but for the signs that leave no trace. Every node at any depth spans its own
tokens; in a source that is short enough for 32 bits, its operands and its operator lie in that
span, one behind the other. -/
theorem parse_reading_order (text : String) (name : Option String) (values : Values) :
    let program := (parse text name values).1
    program.tokens.Sublist (tokenize text name) ∧
      (values = .parsed → (parse text name values).2.diagnostics = [] →
        program.tokens = (tokenize text name).filter (·.kind.isKept)) ∧
      (∀ x ∈ program.parts, x.SpansTokens) ∧
      (Text.byteLength text.toList < UInt32.size → ∀ x ∈ program.parts, x.InOrder) := by
  intro program
  have hy := yields_source text name
  obtain ⟨items, hi⟩ := exists_readsItems (r := .standard) hy.ends rfl values _
  obtain ⟨hs, hd⟩ := parse_of_readsItems hy hi
  obtain ⟨hsub, heq, hder⟩ := hi.keeps hy.ends
  rw [← hs] at hsub heq hder
  rw [← hd] at heq
  have hspans {x : Expr} : (∃ s ∈ program.statements, s.value? = some x) →
      ∀ y ∈ x.parts, y.SpansTokens := by
    rintro ⟨s, hm, hv⟩
    obtain ⟨us, hx⟩ := hder s hm x hv
    exact hx.spansTokens
  refine ⟨?_, fun hv hn => ?_, fun y hm => ?_, fun hc y hm => ?_⟩
  · rw [tokenize_eq]
    exact hsub.trans (List.sublist_append_left _ _)
  · rw [tokenize_eq, List.filter_append, List.filter_cons_of_neg (by simp [hy.ends, Kind.isKept]),
      List.filter_nil, List.append_nil]
    exact heq hv hn
  · obtain ⟨x, hyx, -, hx⟩ := Program.tokens_sublist_of_mem_parts hm
    exact hspans hx y hyx
  · obtain ⟨x, hyx, hxs, hx⟩ := Program.tokens_sublist_of_mem_parts hm
    have ha := ((hy.tiles (Lexer.standsIn_ofText text name)).1.ascending hc).1
    exact Expr.inOrder_of_mem_parts (hspans hx) (ha.sublist (hxs.trans hsub)) y hyx

/-- The text `let a = -(b + 1) * 2; return (c)` is read without a diagnostic. -/
theorem parse_reading_order_groups :
    let text := "let a = -(b + 1) * 2; return (c)"
    let program := (parse text none .parsed).1
    program.tokens = (tokenize text none).filter (·.kind.isKept) ∧
      ∀ x ∈ program.parts, x.InOrder := by
  intro text program
  obtain ⟨-, hall, -, horder⟩ := parse_reading_order text none .parsed
  exact ⟨hall rfl (by decide +kernel), horder (by decide +kernel)⟩

end FrontEnd
