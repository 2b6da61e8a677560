import FrontEnd.Proofs.StatementEnds

/-!
The first diagnostic is exact. The tokens in front of the one that it points at are the beginning of
a program, and with that token they are not, however the source is cut into statements. The second
half needs no look at the grammar: whatever comes after the token, the same statements are read up
to it and the same one fails, and a program has no diagnostics.
-/

namespace FrontEnd

/-- Tokens as texts have them can be put behind the given ones that make a program of them. -/
def Begins (values : Values) (ts : List Token) : Prop :=
  ∃ us, (∀ u ∈ us, u.IsRegular) ∧ IsProgram values (ts ++ us)

section

variable {values : Values} {ts vs ws rest : List Token}

theorem Begins.of_append (hw : ∀ w ∈ ws, w.IsRegular) (h : Begins values (vs ++ ws)) :
    Begins values vs := by
  obtain ⟨us, hu, hp⟩ := h
  refine ⟨ws ++ us, ?_, by simpa using hp⟩
  simpa [or_imp, forall_and] using ⟨hw, hu⟩

/-- A statement that is followed by something can as well be followed by something else. -/
theorem IsStatement.replace_rest (h : IsStatement values ts rest) (hn : rest ≠ [])
    (rest' : List Token) : IsStatement values ts rest' := by
  have hskip {us : List Token} (hv : SkippedValue us rest) : SkippedValue us rest' := by
    obtain ⟨vs, hv, h | h⟩ := hv
    · exact ⟨vs, hv, .inl h⟩
    · exact absurd h.2 hn
  cases h with
  | expression hx hs => exact .expression hx hs
  | binding ht hn ha hx hs => exact .binding ht hn ha hx hs
  | bare ht hs => exact .bare ht hs
  | returning ht hx hs => exact .returning ht hx hs
  | bindingSkipped ht hn ha hv => exact .bindingSkipped ht hn ha (hskip hv)
  | returningSkipped ht hv => exact .returningSkipped ht (hskip hv)

theorem IsStatement.begins (h : IsStatement values vs rest) (hn : rest ≠ [])
    (hw : Begins values ws) : Begins values (vs ++ ws) := by
  obtain ⟨us, hu, hp⟩ := hw
  exact ⟨us, hu, List.append_assoc vs ws us ▸ .cons (h.replace_rest hn _) hp⟩

theorem IsStatement.begins_of_append (h : IsStatement values (vs ++ ws) [])
    (hw : ∀ w ∈ ws, w.IsRegular) : Begins values vs :=
  ⟨ws, hw, by simpa using IsProgram.cons h .nil⟩

/-- Where an expression makes a statement, tokens that can be completed to one begin it. -/
theorem Completes.begins_append (ws : List Token) (h : Completes .lowest vs)
    (hs : ∀ us x, Derives .equality us x → IsStatement values (ws ++ us) []) :
    Begins values (ws ++ vs) := by
  obtain ⟨cs, x, hc, hd⟩ := h
  have hw : IsStatement values (ws ++ vs ++ cs) [] := by
    rw [List.append_assoc]
    exact hs _ x hd
  exact hw.begins_of_append hc

theorem Completes.begins (h : Completes .lowest vs) : Begins values vs := by
  refine begins_append [] h fun us x hd => ?_
  simpa using IsStatement.expression hd (.inl rfl)

theorem Completes.begins_binding {t n a : Token} (ht : t.kind = .letWord)
    (hn : n.kind = .identifier) (ha : a.kind = .assignment) (h : Completes .lowest vs) :
    Begins .parsed (t :: n :: a :: vs) := by
  refine begins_append [t, n, a] h fun us x hd => ?_
  simpa using IsStatement.binding ht hn ha hd (.inl rfl)

theorem Completes.begins_returning {t : Token} (ht : t.kind = .returnWord)
    (h : Completes .lowest vs) : Begins .parsed (t :: vs) := by
  refine begins_append [t] h fun us x hd => ?_
  simpa using IsStatement.returning ht hd (.inl rfl)

/-- The value of a binding can follow its assignment sign, whether it is read or skipped. -/
theorem begins_assigned {t n a : Token} (ht : t.kind = .letWord) (hn : n.kind = .identifier)
    (ha : a.kind = .assignment) : Begins values [t, n, a] := by
  cases values with
  | parsed => exact completes_nil.begins_binding ht hn ha
  | skipped =>
      have hv : SkippedValue [.someName] [] :=
        ⟨[.someName], by simp [Token.someName], .inr ⟨rfl, rfl⟩⟩
      have hs : IsStatement .skipped ([t, n, a] ++ [.someName]) [] := .bindingSkipped ht hn ha hv
      exact hs.begins_of_append (by simpa using Token.isRegular_someName)

theorem begins_named {t n : Token} (ht : t.kind = .letWord) (hn : n.kind = .identifier) :
    Begins values [t, n] := by
  have hb : Begins values ([t, n] ++ [.sign .assignment]) := begins_assigned ht hn rfl
  exact hb.of_append (List.forall_mem_singleton.mpr (Token.isRegular_sign rfl))

theorem begins_let {t : Token} (ht : t.kind = .letWord) : Begins values [t] := by
  have hb : Begins values ([t] ++ [.someName]) := begins_named ht rfl
  exact hb.of_append (List.forall_mem_singleton.mpr Token.isRegular_someName)

end

variable {ending : Token} {values : Values} {ts us : List Token} {d : Diagnostic}

/-- A statement fails in the same way if something else follows the token that it stops at. -/
theorem ReadsStatement.exists_stops (he : ending.kind = .eof) {t : Token}
    (h : ReadsStatement .standard ending values (t :: ts) (.error d) us) :
    ∃ vs, t :: ts = vs ++ d.fault us ∧ Begins values vs ∧
      ∀ u rest, d.fault us = u :: rest → ∀ rest', ∃ us',
        ReadsStatement .standard ending values (vs ++ u :: rest') (.error d) us' := by
  obtain ⟨rule, hr, hb⟩ := h.exists_readsBy
  cases hb with
  | expressionFails hx =>
      obtain ⟨vs, hts, -, hst⟩ := hx.exists_stops he
      refine ⟨vs, hts, hst.completable.begins, fun u rest hu rest' => ?_⟩
      obtain ⟨us', hx'⟩ := hst.again u rest hu rest'
      have hf : front ending (vs ++ u :: rest') = t := by
        rw [front_append_congr _ ending u vs rest' rest, ← hu, ← hts, front_cons]
      refine ⟨us', ?_⟩
      rw [ReadsStatement, hf, hr]
      exact .expressionFails hx'
  | unnamed hn =>
      have ht := Rules.standard_statement_binding.mp hr
      refine ⟨[t], rfl, begins_let ht, fun u rest hu rest' => ?_⟩
      obtain rfl : ts = u :: rest := hu
      exact ⟨_, ReadsBy.readsStatement hr (.unnamed hn)⟩
  | @unassigned _ _ n ts hn ha =>
      have ht := Rules.standard_statement_binding.mp hr
      refine ⟨[t, n], rfl, begins_named ht hn, fun u rest hu rest' => ?_⟩
      obtain rfl : ts = u :: rest := hu
      exact ⟨_, ReadsBy.readsStatement hr (.unassigned hn ha)⟩
  | @bindingFails _ n a _ ts _ hn ha hx =>
      have ht := Rules.standard_statement_binding.mp hr
      obtain ⟨vs, hts, -, hst⟩ := hx.exists_stops he
      refine ⟨t :: n :: a :: vs, congrArg (t :: n :: a :: ·) hts,
        Completes.begins_binding ht hn ha hst.completable, fun u rest hu rest' => ?_⟩
      obtain ⟨us', hx'⟩ := hst.again u rest hu rest'
      exact ⟨us', ReadsBy.readsStatement hr (.bindingFails hn ha hx')⟩
  | returningFails hs hx =>
      have ht := Rules.standard_statement_returning.mp hr
      obtain ⟨vs, hts, -, hst⟩ := hx.exists_stops he
      refine ⟨t :: vs, congrArg (t :: ·) hts, Completes.begins_returning ht hst.completable,
        fun u rest hu rest' => ?_⟩
      obtain ⟨us', hx'⟩ := hst.again u rest hu rest'
      rw [List.tail_cons] at hts hs
      rw [hts, hu, front_append_congr _ ending u vs rest rest'] at hs
      have hb : ReadsBy .standard ending .parsed _ (t :: (vs ++ u :: rest')) _ _ :=
        .returningFails hs hx'
      exact ⟨us', hb.readsStatement hr⟩

theorem ReadsItems.diagnostics_ne_nil {items : List Item}
    (h : ReadsItems .standard ending values ts items)
    (hs : ReadsStatement .standard ending values ts (.error d) us) (hn : ts ≠ []) :
    items.filterMap Item.diagnostic? ≠ [] := by
  cases h with
  | done => contradiction
  | statement hs' => cases (ReadsBy.unique hs hs').1
  | diagnostic => simp [Item.diagnostic?]

/-- Where a program fails first. Its statements up to the broken one are read whatever follows the
token that the diagnostic points at, and so is the broken one. -/
theorem ReadsItems.exists_stops (he : ending.kind = .eof) {items : List Item} {ds : List Diagnostic}
    (h : ReadsItems .standard ending values ts items)
    (hd : items.filterMap Item.diagnostic? = d :: ds) :
    ∃ vs rest, ts = vs ++ rest ∧ d.position = (front ending rest).span.start ∧
      Begins values vs ∧ ∀ u us, rest = u :: us → ∀ us' items',
        ReadsItems .standard ending values (vs ++ u :: us') items' →
          items'.filterMap Item.diagnostic? ≠ [] := by
  induction h with
  | done => cases hd
  | @statement t s ts us items hs hi ih =>
      obtain ⟨vs, rest, hus, hp, hb, ha⟩ := ih hd
      have hn : us.tail ≠ [] := by
        intro hnil
        rw [hnil] at hi
        cases hi
        cases hd
      obtain ⟨u, us, rfl⟩ := List.exists_cons_of_ne_nil fun hnil => hn (congrArg List.tail hnil)
      rw [List.tail_cons] at hus
      subst hus
      obtain ⟨ws, hw, hts⟩ := hs.exists_isStatement he
      obtain ⟨bs, hbs⟩ := hs.suffix
      obtain rfl : bs ++ [u] = ws := List.append_cancel_right (by simpa using hbs.trans hts)
      refine ⟨bs ++ [u] ++ vs, rest, by simpa using hts, hp, hw.begins hn hb, ?_⟩
      intro v us hr us' items' hi'
      rw [← hbs, hr] at hs
      have hs' := hs.replace_rest he he
        (.inl (congrArg Token.kind (front_append_congr ending ending v vs us' us)))
      have hi' : ReadsItems .standard ending values (bs ++ u :: (vs ++ v :: us')) items' := by
        simpa using hi'
      obtain ⟨items', rfl, hi''⟩ := hi'.exists_of_statement hs' (by simp)
      exact ha v us hr us' items' hi''
  | @diagnostic t d' ts us items hs hi ih =>
      obtain ⟨rfl, -⟩ := List.cons.inj hd
      obtain ⟨rule, -, hb⟩ := hs.exists_readsBy
      obtain ⟨vs, hts, hv, ha⟩ := hs.exists_stops he
      refine ⟨vs, d'.fault us, hts, hb.position_eq, hv, ?_⟩
      intro u us hu us' items' hi'
      obtain ⟨us'', hs'⟩ := ha u us hu us'
      exact hi'.diagnostics_ne_nil hs' (by simp)

/-- The tokens up to the index are the beginning of a program, but with the one at the index they
are none, if there is a token at the index. Without one, the tokens are no program as they are. -/
structure FailsAt (values : Values) (ts : List Token) (i : Nat) : Prop where
  le_length : i ≤ ts.length
  begins : Begins values (ts.take i)
  stops : i < ts.length → ∀ us, ¬ IsProgram values (ts.take (i + 1) ++ us)
  not_isProgram : ¬ IsProgram values ts

/-- Tokens fail at one index at most. -/
theorem FailsAt.unique {i j : Nat} (h : FailsAt values ts i) (h' : FailsAt values ts j) :
    i = j := by
  have hle {i j : Nat} (h : FailsAt values ts i) (h' : FailsAt values ts j) : j ≤ i := by
    apply Nat.le_of_not_lt
    intro hij
    obtain ⟨us, -, hp⟩ := h'.begins
    have ht := List.take_append_drop (i + 1) (ts.take j)
    rw [List.take_take, Nat.min_eq_left hij] at ht
    rw [← ht, List.append_assoc] at hp
    exact h.stops (Nat.lt_of_lt_of_le hij h'.le_length) _ hp
  exact Nat.le_antisymm (hle h' h) (hle h h')

/-- The first diagnostic is neither early nor late. It points at the token at which the source
fails, or at the end if more tokens could have made a program of it. -/
theorem parse_first_diagnostic {text : String} {name : Option String} {values : Values}
    {d : Diagnostic} {ds : List Diagnostic}
    (h : (parse text name values).2.diagnostics = d :: ds) :
    ∃ i, FailsAt values (sourceTokens text name) i ∧
      d.position = (tokenAt text name i).span.start := by
  have hy := yields_source text name
  obtain ⟨items, hi⟩ :=
    exists_readsItems (r := .standard) hy.ends rfl values (sourceTokens text name)
  have hd := (parse_of_readsItems hy hi).2
  obtain ⟨vs, rest, hts, hp, hb, ha⟩ := hi.exists_stops hy.ends (hd.symm.trans h)
  refine ⟨vs.length, ⟨?_, ?_, ?_, ?_⟩, ?_⟩
  · simp [hts]
  · rw [hts, List.take_left]
    exact hb
  · intro hl us hprog
    have hn : rest ≠ [] := by
      intro hnil
      simp [hts, hnil] at hl
    obtain ⟨u, rest, rfl⟩ := List.exists_cons_of_ne_nil hn
    obtain ⟨items', hi', hd'⟩ := hprog.exists_readsItems hy.ends
    have ht : (vs ++ u :: rest).take (vs.length + 1) ++ us = vs ++ u :: us := by
      rw [List.take_length_add_append, List.take_succ_cons, List.take_zero, List.append_assoc,
        List.singleton_append]
    rw [hts, ht] at hi'
    exact ha u rest rfl us items' hi' hd'
  · intro hprog
    rw [← parse_accepts_iff, h] at hprog
    cases hprog
  · rw [hp, tokenAt, hts, List.drop_left]

/-- The second statement of the text `a; let b 1; (c` lacks its assignment sign. -/
theorem parse_first_diagnostic_unassigned :
    let d : Diagnostic := ⟨.expectedToken .assignment .integer, ⟨9, shellName⟩⟩
    let d' : Diagnostic := ⟨.expectedToken .closeParen .eof, ⟨14, shellName⟩⟩
    (parse "a; let b 1; (c" none .parsed).2.diagnostics = [d, d'] ∧
      ∃ i, FailsAt .parsed (sourceTokens "a; let b 1; (c" none) i ∧
        d.position = (tokenAt "a; let b 1; (c" none i).span.start := by
  intro d d'
  have h : (parse "a; let b 1; (c" none .parsed).2.diagnostics = [d, d'] := by decide +kernel
  exact ⟨h, parse_first_diagnostic h⟩

end FrontEnd
