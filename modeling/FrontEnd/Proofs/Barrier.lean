import FrontEnd.Proofs.Lexing

/-!
A semicolon is a barrier. No reader looks past one: an expression that is read ends before it, and
a diagnostic leaves it in place at the latest. So whatever stands before a semicolon is read in the
same way whatever stands after it, and what stands after it is read as if it stood alone.
-/

namespace FrontEnd

theorem front_append_cons (ending s : Token) (ws rest : List Token) :
    front ending (ws ++ s :: rest) = front s ws := by
  cases ws <;> rfl

theorem tail_append_cons {ws : List Token} (h : ws ≠ []) (s : Token) (rest : List Token) :
    (ws ++ s :: rest).tail = ws.tail ++ s :: rest :=
  List.tail_append_of_ne_nil h

/-- Which token comes first does not depend on what is behind the semicolon. -/
theorem front_append_congr (ending ending' s : Token) (ws rest rest' : List Token) :
    front ending (ws ++ s :: rest) = front ending' (ws ++ s :: rest') := by
  rw [front_append_cons, front_append_cons]

theorem front_tail_append_congr {ws : List Token} (h : ws ≠ []) (ending ending' s : Token)
    (rest rest' : List Token) :
    front ending (ws ++ s :: rest).tail = front ending' (ws ++ s :: rest').tail := by
  rw [tail_append_cons h, tail_append_cons h, front_append_congr]

theorem exists_eq_cons_of_ne_nil {s t : Token} {ws rest ts : List Token} (hw : ws ≠ [])
    (h : ws ++ s :: rest = t :: ts) : ∃ vs, ws = t :: vs ∧ vs ++ s :: rest = ts := by
  obtain ⟨w, ws, rfl⟩ := List.exists_cons_of_ne_nil hw
  obtain ⟨rfl, rfl⟩ := List.cons.inj h
  exact ⟨ws, rfl, rfl⟩

/-- A first token that is not the separating one comes before it. -/
theorem exists_eq_cons_of_ne {s t : Token} {ws rest ts : List Token} (h : ws ++ s :: rest = t :: ts)
    (hk : t.kind ≠ s.kind) : ∃ vs, ws = t :: vs ∧ vs ++ s :: rest = ts := by
  refine exists_eq_cons_of_ne_nil ?_ h
  rintro rfl
  exact hk (congrArg Token.kind (List.cons.inj h).1.symm)

variable {r : Rules} {s : Token} {values : Values}

theorem Rules.Continues.ne_nil {power : Power} {ws : List Token} (hs : s.kind = .semicolon)
    (h : r.Continues power (front s ws).kind) : ws ≠ [] := by
  rintro rfl
  exact h.1 hs

/-- Reading the tokens before a semicolon, whatever comes after it. -/
def ReadsBefore (r : Rules) (s : Token) (task : Option Expr) (power : Power) (ws : List Token)
    (o : Except Diagnostic Expr) (vs : List Token) : Prop :=
  ∀ ending rest, Reads r ending task power (ws ++ s :: rest) o (vs ++ s :: rest)

/-- No expression reaches a semicolon. -/
theorem Reads.readsBefore (hr : r.starting .semicolon = none) (hs : s.kind = .semicolon)
    {ending : Token} {task : Option Expr} {power : Power} {ws rest us : List Token}
    {o : Except Diagnostic Expr} (h : Reads r ending task power (ws ++ s :: rest) o us)
    (hw : task.isSome → ws ≠ []) :
    ∃ vs, us = vs ++ s :: rest ∧ (o.isOk → vs ≠ []) ∧ ReadsBefore r s task power ws o vs := by
  have hstart {t : Token} {rule : StartRule} (ht : r.starting t.kind = some rule) :
      t.kind ≠ s.kind := by
    rintro he
    rw [he, hs, hr] at ht
    contradiction
  generalize hts : ws ++ s :: rest = ts at h
  -- The invariant: behind an operand, its last token is still in front of the semicolon.
  induction h generalizing ws with
  | @noStart power ts hn =>
      subst hts
      refine ⟨ws, rfl, nofun, fun ending' rest' => ?_⟩
      rw [front_append_congr _ ending' s ws _ rest'] at hn ⊢
      exact .noStart hn
  | identifier hi _ ihc =>
      obtain ⟨ws, rfl, rfl⟩ := exists_eq_cons_of_ne hts (hstart hi)
      obtain ⟨vs, hus, hv, hc⟩ := ihc (fun _ => List.cons_ne_nil _ ws) rfl
      exact ⟨vs, hus, hv, fun ending rest => .identifier hi (hc ending rest)⟩
  | integer hi hn _ ihc =>
      obtain ⟨ws, rfl, rfl⟩ := exists_eq_cons_of_ne hts (hstart hi)
      obtain ⟨vs, hus, hv, hc⟩ := ihc (fun _ => List.cons_ne_nil _ ws) rfl
      exact ⟨vs, hus, hv, fun ending rest => .integer hi hn (hc ending rest)⟩
  | badInteger hi hn =>
      obtain ⟨ws, rfl, rfl⟩ := exists_eq_cons_of_ne hts (hstart hi)
      exact ⟨_ :: ws, rfl, nofun, fun ending rest => .badInteger hi hn⟩
  | unary hu _ _ ih ihc =>
      obtain ⟨ws, rfl, rfl⟩ := exists_eq_cons_of_ne hts (hstart hu)
      obtain ⟨vs, rfl, hv, hx⟩ := ih nofun rfl
      obtain ⟨vs, hus, hv, hc⟩ := ihc (fun _ => hv rfl) rfl
      exact ⟨vs, hus, hv, fun ending rest => .unary hu (hx ending rest) (hc ending rest)⟩
  | unaryFails hu _ ih =>
      obtain ⟨ws, rfl, rfl⟩ := exists_eq_cons_of_ne hts (hstart hu)
      obtain ⟨vs, hus, hv, hx⟩ := ih nofun rfl
      exact ⟨vs, hus, hv, fun ending rest => .unaryFails hu (hx ending rest)⟩
  | group hg _ hk _ ih ihc =>
      obtain ⟨ws, rfl, rfl⟩ := exists_eq_cons_of_ne hts (hstart hg)
      obtain ⟨vs, hvs, hv, hx⟩ := ih nofun rfl
      obtain ⟨v, vs, rfl⟩ := List.exists_cons_of_ne_nil (hv rfl)
      obtain ⟨rfl, htail⟩ := List.cons.inj hvs
      obtain ⟨vs, rfl, rfl⟩ := exists_eq_cons_of_ne htail.symm (by simp [hk, hs])
      obtain ⟨us, hus, hv, hc⟩ := ihc (fun _ => List.cons_ne_nil _ vs) rfl
      exact ⟨us, hus, hv, fun ending rest => .group hg (hx ending rest) hk (hc ending rest)⟩
  | groupOpen hg _ hk ih =>
      obtain ⟨ws, rfl, rfl⟩ := exists_eq_cons_of_ne hts (hstart hg)
      obtain ⟨vs, rfl, hv, hx⟩ := ih nofun rfl
      refine ⟨vs, rfl, nofun, fun ending' rest' => ?_⟩
      rw [front_tail_append_congr (hv rfl) _ ending' s _ rest'] at hk ⊢
      exact .groupOpen hg (hx ending' rest') hk
  | groupFails hg _ ih =>
      obtain ⟨ws, rfl, rfl⟩ := exists_eq_cons_of_ne hts (hstart hg)
      obtain ⟨vs, hus, hv, hx⟩ := ih nofun rfl
      exact ⟨vs, hus, hv, fun ending rest => .groupFails hg (hx ending rest)⟩
  | finish hn =>
      obtain ⟨ws, rfl, rfl⟩ := exists_eq_cons_of_ne_nil (hw rfl) hts
      refine ⟨_ :: ws, rfl, fun _ => List.cons_ne_nil _ ws, fun ending' rest' => ?_⟩
      rw [front_append_congr _ ending' s ws _ rest'] at hn
      exact .finish hn
  | @binary power left x t ts us vs o hb _ _ ih ihc =>
      obtain ⟨ws, rfl, rfl⟩ := exists_eq_cons_of_ne_nil (hw rfl) hts
      rw [front_append_cons] at hb ih ihc
      have ht := tail_append_cons (hb.ne_nil hs) s
      obtain ⟨vs, rfl, hv, hx⟩ := ih nofun (ht rest).symm
      obtain ⟨us, hus, hu, hc⟩ := ihc (fun _ => hv rfl) rfl
      refine ⟨us, hus, hu, fun ending' rest' => ?_⟩
      have hx' := hx ending' rest'
      have hc' := hc ending' rest'
      rw [← ht, ← front_append_cons ending' s ws rest'] at hx'
      rw [← front_append_cons ending' s ws rest'] at hb hc'
      exact .binary hb hx' hc'
  | @binaryFails power left t d ts us hb _ ih =>
      obtain ⟨ws, rfl, rfl⟩ := exists_eq_cons_of_ne_nil (hw rfl) hts
      rw [front_append_cons] at hb ih
      have ht := tail_append_cons (hb.ne_nil hs) s
      obtain ⟨vs, hus, hv, hx⟩ := ih nofun (ht rest).symm
      refine ⟨vs, hus, hv, fun ending' rest' => ?_⟩
      have hx' := hx ending' rest'
      rw [← ht, ← front_append_cons ending' s ws rest'] at hx'
      rw [← front_append_cons ending' s ws rest'] at hb
      exact .binaryFails hb hx'

theorem pastSemicolon_append_cons {ws : List Token} (hs : s.kind = .semicolon) (hw : ws ≠ []) :
    ∃ vs, ∀ rest, pastSemicolon (ws ++ s :: rest) = vs ++ s :: rest := by
  match ws with
  | [t] => exact ⟨[], fun rest => pastSemicolon_cons_of_eq t rest hs⟩
  | t :: u :: ws =>
      by_cases hu : u.kind = .semicolon
      · exact ⟨u :: ws, fun rest => pastSemicolon_cons_of_eq t _ hu⟩
      · refine ⟨t :: u :: ws, fun rest => ?_⟩
        have hf : (front u (u :: (ws ++ s :: rest))).kind ≠ .semicolon := hu
        exact pastSemicolon_cons_of_ne hf

theorem fromSemicolon_append_cons (hs : s.kind = .semicolon) (ws rest : List Token) :
    fromSemicolon (ws ++ s :: rest) = fromSemicolon ws ++ s :: rest := by
  induction ws with
  | nil => exact fromSemicolon_cons_of_eq rest hs
  | cons w ws ih =>
      by_cases hw : w.kind = .semicolon
      · rw [fromSemicolon_cons_of_eq ws hw]
        exact fromSemicolon_cons_of_eq _ hw
      · rw [fromSemicolon_cons_of_ne ws hw, ← ih]
        exact fromSemicolon_cons_of_ne _ hw

def ReadsByBefore (r : Rules) (s : Token) (values : Values) (rule : StatementRule)
    (ws : List Token) (o : Except Diagnostic Stmt) (vs : List Token) : Prop :=
  ∀ ending rest, ReadsBy r ending values rule (ws ++ s :: rest) o (vs ++ s :: rest)

/-- An expression before a semicolon ends before it, and with it at the latest. -/
theorem Reads.readsBefore_ok (hr : r.starting .semicolon = none) (hs : s.kind = .semicolon)
    {ending : Token} {ws rest us : List Token} {x : Expr}
    (h : Reads r ending none .lowest (ws ++ s :: rest) (.ok x) us) :
    ∃ vs vs', pastSemicolon us = vs' ++ s :: rest ∧ ReadsBefore r s none .lowest ws (.ok x) vs ∧
      ∀ rest, pastSemicolon (vs ++ s :: rest) = vs' ++ s :: rest := by
  obtain ⟨vs, rfl, hv, hx⟩ := h.readsBefore hr hs nofun
  obtain ⟨vs', hp⟩ := pastSemicolon_append_cons hs (hv rfl)
  exact ⟨vs, vs', hp rest, hx, hp⟩

theorem exists_eq_assigned {t n a : Token} {ws rest ts : List Token} (hs : s.kind = .semicolon)
    (hw : ws ≠ []) (hn : n.kind = .identifier) (ha : a.kind = .assignment)
    (h : ws ++ s :: rest = t :: n :: a :: ts) :
    ∃ vs, ws = t :: n :: a :: vs ∧ vs ++ s :: rest = ts := by
  obtain ⟨ws, rfl, h₁⟩ := exists_eq_cons_of_ne_nil hw h
  obtain ⟨ws, rfl, h₂⟩ := exists_eq_cons_of_ne h₁ (by simp [hn, hs])
  obtain ⟨ws, rfl, h₃⟩ := exists_eq_cons_of_ne h₂ (by simp [ha, hs])
  exact ⟨ws, rfl, h₃⟩

/-- No statement goes past a semicolon. -/
theorem ReadsBy.readsByBefore (hr : r.starting .semicolon = none) (hs : s.kind = .semicolon)
    {ending : Token} {rule : StatementRule} {ws rest us : List Token}
    {o : Except Diagnostic Stmt} (h : ReadsBy r ending values rule (ws ++ s :: rest) o us)
    (hw : rule ≠ .expression → ws ≠ []) :
    ∃ vs, us = vs ++ s :: rest ∧ ReadsByBefore r s values rule ws o vs := by
  generalize hts : ws ++ s :: rest = ts at h
  cases h with
  | expression hx =>
      subst hts
      obtain ⟨vs, vs', hu, hx, hp⟩ := hx.readsBefore_ok hr hs
      refine ⟨vs', hu, fun ending' rest' => ?_⟩
      have hx' : ReadsBy r ending' values _ _ _ _ := .expression (hx ending' rest')
      simpa only [hu, hp, front_append_cons] using hx'
  | expressionFails hx =>
      subst hts
      obtain ⟨vs, hu, -, hx⟩ := hx.readsBefore hr hs nofun
      exact ⟨vs, hu, fun ending' rest' => .expressionFails (hx ending' rest')⟩
  | unnamed hn =>
      subst hts
      refine ⟨ws, rfl, fun ending' rest' => ?_⟩
      rw [front_tail_append_congr (hw nofun) _ ending' s _ rest'] at hn ⊢
      exact .unnamed hn
  | unassigned hn ha =>
      obtain ⟨ws, rfl, ht⟩ := exists_eq_cons_of_ne_nil (hw nofun) hts
      obtain ⟨ws, rfl, rfl⟩ := exists_eq_cons_of_ne ht (by simp [hn, hs])
      refine ⟨_ :: ws, rfl, fun ending' rest' => ?_⟩
      rw [front_append_congr _ ending' s ws _ rest'] at ha ⊢
      exact .unassigned hn ha
  | binding hn ha hx =>
      obtain ⟨ws, rfl, rfl⟩ := exists_eq_assigned hs (hw nofun) hn ha hts
      obtain ⟨vs, vs', hu, hx, hp⟩ := hx.readsBefore_ok hr hs
      refine ⟨vs', hu, fun ending' rest' => ?_⟩
      simpa only [hu, hp, front_append_cons, List.cons_append] using
        ReadsBy.binding hn ha (hx ending' rest')
  | bindingFails hn ha hx =>
      obtain ⟨ws, rfl, rfl⟩ := exists_eq_assigned hs (hw nofun) hn ha hts
      obtain ⟨vs, hu, -, hx⟩ := hx.readsBefore hr hs nofun
      exact ⟨vs, hu, fun ending' rest' => .bindingFails hn ha (hx ending' rest')⟩
  | @bindingSkipped t n a ts hn ha =>
      obtain ⟨ws, rfl, rfl⟩ := exists_eq_assigned hs (hw nofun) hn ha hts
      have hf := fromSemicolon_append_cons hs (a :: ws)
      refine ⟨_, hf rest, fun ending' rest' => ?_⟩
      have hb : ReadsBy r ending' _ _ (t :: n :: a :: (ws ++ s :: rest')) _ _ :=
        .bindingSkipped hn ha
      rw [← List.cons_append, hf, front_append_cons] at hb ⊢
      exact hb
  | bare hb =>
      subst hts
      have ht := tail_append_cons (hw nofun) s
      refine ⟨_, ht rest, fun ending' rest' => ?_⟩
      rw [front_tail_append_congr (hw nofun) _ ending' s _ rest'] at hb
      have hx : ReadsBy r ending' _ _ _ _ _ := .bare hb
      simpa only [ht, front_append_cons] using hx
  | returning hb hx =>
      subst hts
      have ht := tail_append_cons (hw nofun) s
      rw [ht] at hx
      obtain ⟨vs, vs', hu, hx, hp⟩ := hx.readsBefore_ok hr hs
      refine ⟨vs', hu, fun ending' rest' => ?_⟩
      rw [front_tail_append_congr (hw nofun) _ ending' s _ rest'] at hb
      have hx' := hx ending' rest'
      rw [← ht] at hx'
      simpa only [hu, hp, front_append_cons] using ReadsBy.returning hb hx'
  | returningFails hb hx =>
      subst hts
      have ht := tail_append_cons (hw nofun) s
      rw [ht] at hx
      obtain ⟨vs, hu, -, hx⟩ := hx.readsBefore hr hs nofun
      refine ⟨vs, hu, fun ending' rest' => ?_⟩
      rw [front_tail_append_congr (hw nofun) _ ending' s _ rest'] at hb
      have hx' := hx ending' rest'
      rw [← ht] at hx'
      exact .returningFails hb hx'
  | returningSkipped =>
      subst hts
      have ht := tail_append_cons (hw nofun) s
      have hf := fromSemicolon_append_cons hs ws.tail
      refine ⟨_, (congrArg _ (ht rest)).trans (hf rest), fun ending' rest' => ?_⟩
      have hx : ReadsBy r ending' _ _ (ws ++ s :: rest') _ _ := .returningSkipped
      simpa only [ht, hf, front_append_cons] using hx

theorem ReadsStatement.readsBefore (hr : r.starting .semicolon = none)
    (ht : r.statement .semicolon = none) (hs : s.kind = .semicolon) {ending : Token}
    {ws rest us : List Token} {o : Except Diagnostic Stmt}
    (h : ReadsStatement r ending values (ws ++ s :: rest) o us) :
    ∃ vs, us = vs ++ s :: rest ∧ ∀ ending rest,
      ReadsStatement r ending values (ws ++ s :: rest) o (vs ++ s :: rest) := by
  rw [ReadsStatement, front_append_cons] at h
  obtain ⟨vs, hu, hv⟩ := h.readsByBefore hr hs fun hn => by
    rintro rfl
    rw [front_nil, hs, ht] at hn
    exact hn rfl
  refine ⟨vs, hu, fun ending rest => ?_⟩
  rw [ReadsStatement, front_append_cons]
  exact hv ending rest

section

variable {ending ending' : Token} {rest : List Token} {items items' : List Item}

/-- After the tokens up to a semicolon come the items before the next one, and in the end those of
what is left. -/
private theorem ReadsItems.append_tail {vs : List Token}
    (h : ReadsItems r ending values (vs ++ [s]).tail items)
    (h' : ReadsItems r ending' values rest items')
    (ih : ∀ ws, ws ++ [s] = (vs ++ [s]).tail →
      ReadsItems r ending' values (ws ++ s :: rest) (items ++ items')) :
    ReadsItems r ending' values (vs ++ s :: rest).tail (items ++ items') := by
  cases vs with
  | nil =>
      cases h
      exact h'
  | cons v vs => exact ih vs rfl

/-- The items of two stretches that a semicolon separates are the items of the one and those of the
other. -/
theorem ReadsItems.append (hr : r.starting .semicolon = none) (ht : r.statement .semicolon = none)
    (hs : s.kind = .semicolon) {ws : List Token} (h : ReadsItems r ending values (ws ++ [s]) items)
    (h' : ReadsItems r ending' values rest items') :
    ReadsItems r ending' values (ws ++ s :: rest) (items ++ items') := by
  generalize hts : ws ++ [s] = ts at h
  -- The semicolon stays in the list until its item is over, so every item but the last one is read
  -- from a list of the same form.
  induction h generalizing ws with
  | done => simp at hts
  | statement hst hi ih =>
      rw [← hts] at hst
      obtain ⟨vs, rfl, hv⟩ := hst.readsBefore hr ht hs
      have hn := hi.append_tail h' fun ws hw => ih hw
      exact .statement_of_ne_nil (List.append_ne_nil_of_right_ne_nil ws (List.cons_ne_nil s rest))
        (hv ending' rest) hn
  | diagnostic hst hi ih =>
      rw [← hts] at hst
      obtain ⟨vs, rfl, hv⟩ := hst.readsBefore hr ht hs
      rw [fromSemicolon_append_cons hs] at hi ih
      have hn := hi.append_tail h' fun ws hw => ih hw
      rw [← fromSemicolon_append_cons hs] at hn
      exact .diagnostic_of_ne_nil (List.append_ne_nil_of_right_ne_nil ws (List.cons_ne_nil s rest))
        (hv ending' rest) hn

end

theorem joins_semicolon (text : List Char) : joins text ';' = false := by
  cases text with
  | nil => rfl
  | cons c cs => simp [joins, isWordChar]

theorem not_fuses_semicolon (ts : List Token) (cs ds : List Char) : ¬ Fuses ts cs (';' :: ds) := by
  rintro ⟨t, -, -, d, hd, hj⟩
  obtain rfl : ';' = d := by simpa using hd
  rw [joins_semicolon] at hj
  contradiction

/-- A text that ends in a semicolon yields the tokens before it and the semicolon. -/
theorem exists_yields_semicolon (text : String) (name : Option String) :
    ∃ ws s ending, s.kind = .semicolon ∧ s.literal = ";" ∧
      (Lexer.ofText (text ++ ";") name).Yields (ws ++ [s]) ending := by
  obtain ⟨ws, e, hw⟩ := (Lexer.ofText text name).exists_yields
  have hk : ((Lexer.ofText text name).beyond [';']).next.1.kind = .semicolon := rfl
  have he : ((Lexer.ofText text name).beyond [';']).next.2.next.1.kind = .eof := rfl
  have hs := Lexer.Yields.cons rfl (by rw [hk]; decide) (.nil rfl he)
  have ha := hw.append hs (not_fuses_semicolon ws _ [])
  exact ⟨ws, _, _, hk, rfl, by simpa [Lexer.append, Lexer.ofText] using ha⟩

/-- A semicolon separates the tokens before it from those after it. -/
theorem yields_append_semicolon {text rest : String} {name : Option String} {ws us : List Token}
    {e₁ e₂ : Token} (hl : s.literal = ";")
    (h₁ : (Lexer.ofText (text ++ ";") name).Yields (ws ++ [s]) e₁)
    (h₂ : (Lexer.ofText rest name).Yields us e₂) :
    let n := Text.byteLength text.toList + 1
    (Lexer.ofText (text ++ ";" ++ rest) name).Yields
      (ws ++ s :: us.map (Token.relocate (.shift n))) (e₂.relocate (.shift n)) := by
  intro n
  have hb : (Lexer.ofText (text ++ ";") name).beyond rest.toList =
      (Lexer.ofText rest name).shift n := by
    have hs : Text.byteLength [';'] = 1 := rfl
    simp [Lexer.beyond, Lexer.shift, Lexer.ofText, n, ← hs]
  have hf : ¬ Fuses (ws ++ [s]) (Lexer.ofText (text ++ ";") name).rest rest.toList := by
    rintro ⟨t, ht, -, d, -, hj⟩
    obtain rfl : s = t := by simpa using ht
    rw [hl] at hj
    exact Bool.false_ne_true hj
  have ha := h₁.append (hb ▸ h₂.shift n) hf
  simpa [Lexer.append, Lexer.ofText] using ha

/-- A semicolon is a full barrier. What stands before it is read as if nothing came after it, and
what comes after it as if it stood alone, but for its positions. -/
theorem parse_append_semicolon (text rest : String) (name : Option String) (values : Values) :
    let n := Text.byteLength text.toList + 1
    (parse (text ++ ";" ++ rest) name values).1.statements =
        (parse (text ++ ";") name values).1.statements ++
          (parse rest name values).1.statements.map (Stmt.relocate (.shift n)) ∧
      (parse (text ++ ";" ++ rest) name values).2.diagnostics =
        (parse (text ++ ";") name values).2.diagnostics ++
          (parse rest name values).2.diagnostics.map (Diagnostic.relocate (.shift n)) := by
  intro n
  obtain ⟨ws, s, e₁, hk, hl, hy₁⟩ := exists_yields_semicolon text name
  obtain ⟨us, e₂, hy₂⟩ := (Lexer.ofText rest name).exists_yields
  obtain ⟨items₁, hi₁⟩ := exists_readsItems (r := .standard) hy₁.ends rfl values (ws ++ [s])
  obtain ⟨items₂, hi₂⟩ := exists_readsItems (r := .standard) hy₂.ends rfl values us
  have hy := yields_append_semicolon hl hy₁ hy₂
  have hi := hi₁.append rfl rfl hk (hi₂.relocate (.shift n))
  obtain ⟨hs₁, hd₁⟩ := parse_of_readsItems hy₁ hi₁
  obtain ⟨hs₂, hd₂⟩ := parse_of_readsItems hy₂ hi₂
  obtain ⟨hs, hd⟩ := parse_of_readsItems hy hi
  rw [hs, hs₁, hs₂, hd, hd₁, hd₂, List.filterMap_append, List.filterMap_append,
    filterMap_statement?_relocate, filterMap_diagnostic?_relocate]
  exact ⟨rfl, rfl⟩

end FrontEnd
