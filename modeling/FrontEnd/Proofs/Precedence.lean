import FrontEnd.Proofs.Grammar
import FrontEnd.Proofs.Invariant

/-!
Reading by precedence is exactly the grammar in layers. The operand that has been read so far
belongs to the layer of its last operator, and the token after it is no operator of a tighter one;
this is what lets a weaker operator take the whole of it as its left operand. In the other direction
an operand of a layer is read up to the same place at every power that the layer lies within.
-/

namespace FrontEnd

def Layer.Ends (l : Layer) (k : Kind) : Prop :=
  ∀ m, ofOperator? k = some m → m.rank ≤ l.rank

namespace Rules

theorem standard_continues_iff {power : Power} {k : Kind} :
    standard.Continues power k ↔ k.BindsTighter power := by
  rw [Continues, Kind.BindsTighter]
  cases k <;> simp [standard, Layer.ofOperator?, Layer.power]

theorem standard_power_of_ofOperator? {k : Kind} {l : Layer} (h : Layer.ofOperator? k = some l) :
    standard.power k = l.power := by
  cases k <;> cases h <;> rfl

theorem standard_starting_identifier {k : Kind} :
    standard.starting k = some .identifier ↔ k = .identifier := by
  cases k <;> decide

theorem standard_starting_integer {k : Kind} :
    standard.starting k = some .integer ↔ k = .integer := by
  cases k <;> decide

theorem standard_starting_unary {k : Kind} :
    standard.starting k = some .unary ↔ k = .not ∨ k = .dash := by
  cases k <;> decide

theorem standard_starting_grouping {k : Kind} :
    standard.starting k = some .grouping ↔ k = .openParen := by
  cases k <;> decide

end Rules

namespace Layer

theorem ends_of_not_bindsTighter {k : Kind} {l : Layer} (h : ¬ k.BindsTighter l.power) : l.Ends k :=
  fun m hm => Nat.le_of_not_lt fun hl => h ⟨m, hm, hl⟩

theorem Ends.not_bindsTighter {k : Kind} {l : Layer} (h : l.Ends k) : ¬ k.BindsTighter l.power :=
  fun ⟨m, hm, hl⟩ => Nat.not_lt.mpr (h m hm) hl

theorem Ends.mono {k : Kind} {l m : Layer} (h : l.Ends k) (hl : l.rank ≤ m.rank) : m.Ends k :=
  fun n hn => Nat.le_trans (h n hn) hl

theorem ends_of_ofOperator? {k : Kind} {l : Layer} (h : ofOperator? k = some l) : l.Ends k := by
  intro m hm
  cases h.symm.trans hm
  exact Nat.le_refl _

theorem ends_of_none {k : Kind} (l : Layer) (h : ofOperator? k = none) : l.Ends k := by
  intro m hm
  cases h.symm.trans hm

theorem ends_signed (k : Kind) : signed.Ends k :=
  fun _ hm => Nat.le_succ_of_le (rank_le_of_ofOperator? hm)

theorem ends_atom (k : Kind) : atom.Ends k :=
  (ends_signed k).mono (by decide)

end Layer

section

variable {ending : Token}

theorem Reads.finish_of_ends {l : Layer} {power : Power} {x : Expr} {t : Token} {ts : List Token}
    (hl : l.Ends (front ending ts).kind) (hp : power = l.power) :
    Reads .standard ending (some x) power (t :: ts) (.ok x) (t :: ts) := by
  subst hp
  exact .finish fun h => hl.not_bindsTighter (Rules.standard_continues_iff.mp h)

variable (ending) in
/-- A derived operand is read as a whole, and reading goes on after it. -/
theorem Derives.reads {l : Layer} {ts : List Token} {x : Expr} (h : Derives l ts x) :
    ∃ us t, ts = us ++ [t] ∧ ∀ power rest o vs, (Layer.ofPower power).rank ≤ l.rank →
      l.Ends (front ending rest).kind →
      Reads .standard ending (some x) power (t :: rest) o vs →
      Reads .standard ending none power (us ++ t :: rest) o vs := by
  induction h with
  | @identifier t ht =>
      refine ⟨[], t, rfl, fun power rest o vs _ _ hc => ?_⟩
      exact .identifier (Rules.standard_starting_identifier.mpr ht) hc
  | @integer t value ht hv =>
      refine ⟨[], t, rfl, fun power rest o vs _ _ hc => ?_⟩
      exact .integer (Rules.standard_starting_integer.mpr ht) hv hc
  | @group o c ts x ho _ hk ih =>
      obtain ⟨us, t, rfl, ih⟩ := ih
      refine ⟨o :: (us ++ [t]), c, rfl, fun power rest out vs _ _ hc => ?_⟩
      have hn : Layer.ofOperator? c.kind = none := by rw [hk]; rfl
      have hx : Reads .standard ending none .lowest (us ++ t :: c :: rest) (.ok x)
          (t :: c :: rest) := by
        refine ih .lowest (c :: rest) _ _ (Nat.le_refl _) (Layer.ends_of_none _ hn) (.finish ?_)
        rintro hb
        obtain ⟨m, hm, -⟩ := Rules.standard_continues_iff.mp hb
        cases hn.symm.trans hm
      simpa using Reads.group (Rules.standard_starting_grouping.mpr ho) hx hk hc
  | @unary o ts x ho _ ih =>
      obtain ⟨us, t, rfl, ih⟩ := ih
      refine ⟨o :: us, t, rfl, fun power rest out vs _ _ hc => ?_⟩
      have he := Layer.ends_signed (front ending rest).kind
      have hx := ih .unary rest _ _ (Nat.le_refl _) he (Reads.finish_of_ends he rfl)
      exact .unary (Rules.standard_starting_unary.mpr ho) hx hc
  | @binary l o ts us x y ho _ _ ihx ihy =>
      obtain ⟨ts, t, rfl, ihx⟩ := ihx
      obtain ⟨us, u, rfl, ihy⟩ := ihy
      refine ⟨ts ++ t :: o :: us, u, by simp, fun power rest out vs hp he hc => ?_⟩
      have hpo := Rules.standard_power_of_ofOperator? ho
      -- The right operand is read at the power of the operator, which ends it where the chain ends.
      have hy : Reads .standard ending none (Rules.standard.power o.kind) (us ++ u :: rest) (.ok y)
          (u :: rest) := by
        refine ihy _ rest _ _ ?_ (he.mono l.rank_le_rank_tighter) (Reads.finish_of_ends he hpo)
        exact Nat.le_of_eq (by rw [hpo, Layer.ofPower_power_of_ofOperator? ho])
      have hb : Rules.standard.Continues power o.kind :=
        Rules.standard_continues_iff.mpr ⟨l, ho, (Layer.rank_ofPower_le_iff ho power).mp hp⟩
      have hx := ihx power (o :: (us ++ u :: rest)) out vs hp (Layer.ends_of_ofOperator? ho)
        (.binary hb hy hc)
      simpa [List.append_assoc] using hx
  | @tighter l ts x _ ih =>
      obtain ⟨us, t, rfl, ih⟩ := ih
      refine ⟨us, t, rfl, fun power rest o vs hp he hc => ?_⟩
      have hl := l.rank_le_rank_tighter
      exact ih power rest o vs (Nat.le_trans hp hl) (he.mono hl) hc

/-- After `ws`, the tokens of `ts` up to the first one of `us` derive the tree, and the token after
them binds no tighter than the power. -/
def Taken (ending : Token) (power : Power) (ws ts us : List Token) (x : Expr) : Prop :=
  ∃ vs t rest, ts = vs ++ t :: rest ∧ us = t :: rest ∧
    Derives (.ofPower power) (ws ++ vs ++ [t]) x ∧ ¬ (front ending rest).kind.BindsTighter power

/-- What a reader takes: a whole expression, or the rest of one whose left operand is derived from a
layer that the next token ends. -/
def Takes (ending : Token) (task : Option Expr) (power : Power) (ts us : List Token) (x : Expr) :
    Prop :=
  match task with
  | none => Taken ending power [] ts us x
  | some left => ∀ l ws t rest, ts = t :: rest → Derives l (ws ++ [t]) left →
      (Layer.ofPower power).rank ≤ l.rank → l.Ends (front ending rest).kind →
      Taken ending power ws ts us x

theorem Taken.prepend {power : Power} {ts us : List Token} {x : Expr} (ws vs : List Token)
    (h : Taken ending power (ws ++ vs) ts us x) : Taken ending power ws (vs ++ ts) us x := by
  obtain ⟨vs', t, rest, rfl, rfl, hd, hb⟩ := h
  exact ⟨vs ++ vs', t, rest, by simp, rfl, by simpa using hd, hb⟩

theorem Reads.takes {task : Option Expr} {power : Power} {ts us : List Token} {x : Expr}
    (he : ending.kind = .eof) (h : Reads .standard ending task power ts (.ok x) us) :
    Takes ending task power ts us x := by
  generalize ho : (Except.ok x : Except Diagnostic Expr) = o at h
  induction h generalizing x with
  | noStart | badInteger | unaryFails | groupOpen | groupFails | binaryFails => cases ho
  | @identifier power t ts us o hs _ ih =>
      have ht := Rules.standard_starting_identifier.mp hs
      exact ih ho .atom [] t ts rfl (.identifier ht)
        (Nat.le_succ_of_le (Layer.rank_ofPower_le power)) (Layer.ends_atom _)
  | @integer power t value ts us o hs hv _ ih =>
      have ht := Rules.standard_starting_integer.mp hs
      exact ih ho .atom [] t ts rfl (.integer ht hv)
        (Nat.le_succ_of_le (Layer.rank_ofPower_le power)) (Layer.ends_atom _)
  | @unary power t y ts us vs o hs _ _ ih ihc =>
      obtain ⟨ws, u, rest, rfl, rfl, hd, -⟩ := ih rfl
      have ht := Rules.standard_starting_unary.mp hs
      have hc := ihc ho .signed (t :: ws) u rest rfl (.unary ht hd) (Layer.rank_ofPower_le power)
        (Layer.ends_signed _)
      exact Taken.prepend [] (t :: ws) hc
  | @group power t u c y ts us vs o hs _ hk _ ih ihc =>
      obtain ⟨ws, u, rest, rfl, hu, hd, -⟩ := ih rfl
      cases hu
      have ht := Rules.standard_starting_grouping.mp hs
      have hc := ihc ho .atom (t :: (ws ++ [u])) c us rfl (.group ht hd hk)
        (Nat.le_succ_of_le (Layer.rank_ofPower_le power)) (Layer.ends_atom _)
      have hg := Taken.prepend [] (t :: (ws ++ [u])) hc
      rwa [List.cons_append, List.append_assoc] at hg
  | @finish power left t ts hn =>
      cases ho
      intro l ws u rest hu hd hp hl
      cases hu
      refine ⟨[], t, ts, rfl, rfl, by simpa using hd.loosen hp, fun hb => hn ?_⟩
      exact Rules.standard_continues_iff.mpr hb
  | @binary power left y t ts us vs o hb _ _ ih ihc =>
      intro l ws u rest hu hd hp hl
      cases hu
      obtain ⟨m, hm, hpm⟩ := Rules.standard_continues_iff.mp hb
      -- The end of the text is no operator, so the operator is there.
      cases ts with
      | nil => rw [front_nil, he] at hm; cases hm
      | cons o ts =>
          obtain ⟨ys, u, rest, hts, rfl, hy, hyb⟩ := ih rfl
          rw [List.tail_cons] at hts
          subst hts
          have hpo : Rules.standard.power o.kind = m.power := Rules.standard_power_of_ofOperator? hm
          rw [front_cons, hpo] at hy hyb
          rw [Layer.ofPower_power_of_ofOperator? hm] at hy
          have hx : Derives m (ws ++ [t]) left := hd.loosen (hl m hm)
          have hc := ihc ho m (ws ++ t :: o :: ys) u rest rfl
            (by simpa [List.append_assoc] using Derives.binary hm hx hy)
            ((Layer.rank_ofPower_le_iff hm power).mpr hpm) (Layer.ends_of_not_bindsTighter hyb)
          exact Taken.prepend ws (t :: o :: ys) hc

theorem Layer.ends_ofPower {k : Kind} {power : Power} (h : ¬ k.BindsTighter power) :
    (ofPower power).Ends k := by
  intro m hm
  apply Nat.le_of_not_le
  intro hl
  exact h ⟨m, hm, (rank_ofPower_le_iff hm power).mp hl⟩

/-- A derived expression is read if nothing after it binds tighter. -/
theorem Derives.reads_ok {power : Power} {ts rest : List Token} {x : Expr}
    (h : Derives (.ofPower power) ts x) (hb : ¬ (front ending rest).kind.BindsTighter power) :
    ∃ us t, ts = us ++ [t] ∧
      Reads .standard ending none power (us ++ t :: rest) (.ok x) (t :: rest) := by
  obtain ⟨us, t, hts, hr⟩ := h.reads ending
  refine ⟨us, t, hts, hr power rest _ _ (Nat.le_refl _) (Layer.ends_ofPower hb) (.finish ?_)⟩
  exact fun hc => hb (Rules.standard_continues_iff.mp hc)

/-- An expression is read exactly where it is derived and nothing after it binds tighter. -/
theorem reads_iff_taken (he : ending.kind = .eof) {power : Power} {ts us : List Token} {x : Expr} :
    Reads .standard ending none power ts (.ok x) us ↔ Taken ending power [] ts us x := by
  constructor
  · exact fun h => h.takes he
  · rintro ⟨vs, t, rest, rfl, rfl, hd, hb⟩
    obtain ⟨vs', t', hv, hr⟩ := hd.reads_ok hb
    obtain ⟨rfl, ht⟩ := List.append_inj' hv rfl
    cases ht
    exact hr

/-- A layer derives at most one tree from a list of tokens. -/
theorem Derives.unique {l : Layer} {ts : List Token} {x y : Expr} (hx : Derives l ts x)
    (hy : Derives l ts y) : x = y := by
  have hl : (Layer.ofPower .lowest).rank ≤ l.rank := by cases l <;> decide
  have he := (yields_source "" none).ends
  have hb : ¬ (front (sourceEnd "" none) []).kind.BindsTighter .lowest := by
    rintro ⟨m, hm, -⟩
    rw [front_nil, he] at hm
    cases hm
  obtain ⟨us, t, rfl, hrx⟩ := (hx.loosen hl).reads_ok hb
  obtain ⟨vs, u, hv, hry⟩ := (hy.loosen hl).reads_ok hb
  obtain ⟨rfl, hu⟩ := List.append_inj' hv rfl
  cases hu
  cases (hrx.unique hry).1
  rfl

theorem Derives.kind_ne_eof {l : Layer} {ts : List Token} {x : Expr} (h : Derives l ts x) :
    ∀ t ∈ ts, t.kind ≠ .eof := by
  induction h with
  | identifier ht | integer ht => simp [ht]
  | group ho _ hc ih =>
      intro t ht
      simp only [List.mem_cons, List.mem_append, List.mem_nil_iff, or_false] at ht
      rcases ht with rfl | ht | rfl
      · simp [ho]
      · exact ih t ht
      · simp [hc]
  | unary ho _ ih =>
      intro t ht
      rcases List.mem_cons.mp ht with rfl | ht
      · rcases ho with ho | ho <;> simp [ho]
      · exact ih t ht
  | binary ho _ _ ihx ihy =>
      intro t ht
      simp only [List.mem_append, List.mem_cons] at ht
      rcases ht with ht | rfl | ht
      · exact ihx t ht
      · rintro he
        rw [he] at ho
        cases ho
      · exact ihy t ht
  | tighter _ ih => exact ih

end

namespace Parser

/-- A parser with the rules of the language stands somewhere in its source, and the expressions that
it reads there at a power are exactly those that the grammar derives from the layer of the power and
that no tighter operator follows. Its last token is the current one afterwards. The grammar derives
at most one tree from a stretch of tokens, and the trees of chains lean to the left. -/
theorem Reachable.expression_iff_derives {text : String} {name : Option String} {values : Values}
    {p : Parser} (hp : p.Reachable text name values) (hr : p.rules = .standard) :
    (∃ i, p.window.At text name i) ∧
      (∀ i j power x, p.window.At text name i →
        ((∃ q, p.perform (.expression power) = (.ok (.expression x), q) ∧
            q.window.At text name j) ↔
          Derives (.ofPower power) (tokensBetween text name i j) x ∧
            ¬ (tokenAt text name (j + 1)).kind.BindsTighter power)) ∧
      (∀ l ts x y, Derives l ts x → Derives l ts y → x = y) ∧
      ∀ l ts x, Derives l ts x → ∀ links : List (Token × List Token × Expr),
        (∀ k ∈ links, Layer.ofOperator? k.1.kind = some l ∧ Derives l.tighter k.2.1 k.2.2) →
          Derives l (ts ++ links.flatMap fun k => k.1 :: k.2.1)
            (links.foldl (fun x k => .binary x k.1 k.2.2 (x.span.hull k.2.2.span)) x) := by
  refine ⟨hp.exists_at, ?_, fun l ts x y => Derives.unique, fun l ts x => Derives.chain⟩
  intro i j power x hi
  have he := (yields_source text name).ends
  constructor
  · rintro ⟨q, hq, hj⟩
    obtain ⟨us, hx, hu⟩ := reads_of_perform (by rw [hr]; rfl) hi hq
    rw [hr, reads_iff_taken he] at hx
    obtain ⟨vs, t, rest, hts, hus, hd, hb⟩ := hx
    have hdj := (hj.unique hu).trans hus
    obtain ⟨-, hbt⟩ := tokensBetween_eq hts hdj
    rw [hbt, tokenAt_succ_of_drop_eq_cons hdj]
    exact ⟨hd, hb⟩
  · rintro ⟨hd, hb⟩
    have hij : i ≤ j := by
      apply Nat.le_of_not_lt
      intro hji
      apply hd.ne_nil
      rw [tokensBetween, show j + 1 - i = 0 by omega]
      rfl
    have hjn := lt_length_of_tokenAt_ne_eof
      (hd.kind_ne_eof _ (tokenAt_mem_tokensBetween text name hij))
    obtain ⟨vs, t, rest, hdi, hdj⟩ := exists_drop_eq hij hjn
    obtain ⟨-, hbt⟩ := tokensBetween_eq hdi hdj
    rw [hbt] at hd
    rw [tokenAt_succ_of_drop_eq_cons hdj] at hb
    have hx := (reads_iff_taken he).mpr ⟨vs, t, rest, hdi, rfl, hd, hb⟩
    obtain ⟨q, hq, hs⟩ := perform_of_reads hi (hr ▸ hx)
    refine ⟨q, hq, ?_⟩
    rw [Window.At, hdj]
    exact hs

/-- Differences associate to the left, and the weaker comparison after them is left alone. -/
theorem Reachable.reads_difference :
    (Parser.ofText "a-b-c<d" none .parsed).Reachable "a-b-c<d" none .parsed ∧
      (Parser.ofText "a-b-c<d" none .parsed).rules = .standard ∧
      ∃ q x s₁ s₂, (Parser.ofText "a-b-c<d" none .parsed).perform (.expression .lessGreater) =
          (.ok (.expression x), q) ∧ q.window.At "a-b-c<d" none 4 ∧
        x = .binary (.binary (.identifier (.ofToken (tokenAt "a-b-c<d" none 0)))
            (tokenAt "a-b-c<d" none 1) (.identifier (.ofToken (tokenAt "a-b-c<d" none 2))) s₁)
          (tokenAt "a-b-c<d" none 3) (.identifier (.ofToken (tokenAt "a-b-c<d" none 4))) s₂ := by
  have hw : (Parser.ofText "a-b-c<d" none .parsed).window.At "a-b-c<d" none 0 :=
    Window.shows_ofLexer (yields_source _ _)
  have ha (i : Nat) (hi : (tokenAt "a-b-c<d" none i).kind = .identifier) :
      Derives .product [tokenAt "a-b-c<d" none i]
        (.identifier (.ofToken (tokenAt "a-b-c<d" none i))) :=
    (Derives.identifier hi).loosen (by decide)
  have hd := Derives.binary (l := .sum) (by decide +kernel)
    (Derives.binary (l := .sum) (o := tokenAt "a-b-c<d" none 1) (by decide +kernel)
      ((ha 0 (by decide +kernel)).loosen (by decide)) (ha 2 (by decide +kernel)))
    (o := tokenAt "a-b-c<d" none 3) (ha 4 (by decide +kernel))
  have hb : ¬ (tokenAt "a-b-c<d" none 5).kind.BindsTighter .lessGreater := by
    rw [show (tokenAt "a-b-c<d" none 5).kind = .less by decide +kernel]
    rintro ⟨l, hl, hp⟩
    cases hl
    revert hp
    decide
  obtain ⟨q, hq, hj⟩ := ((expression_iff_derives .start rfl).2.1 0 4 .lessGreater _ hw).mpr ⟨hd, hb⟩
  exact ⟨.start, rfl, q, _, _, _, hq, hj, rfl⟩

end Parser

end FrontEnd
