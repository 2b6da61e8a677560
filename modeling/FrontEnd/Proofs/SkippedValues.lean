import FrontEnd.Proofs.Blocks

/-!
Skipping values against reading them. The two ways of reading part where a value begins and meet
again behind the next semicolon. What is skipped is not diagnosed, so skipping finds some of the
diagnostics that reading finds, and nothing else. Where values are in order and each ends in a
semicolon, skipping finds the same statements but for their values.
-/

namespace FrontEnd

def Stmt.dropValue : Stmt → Stmt
  | .binding token name _ span => .binding token name none span
  | .returning token _ span => .returning token none span
  | .expression token e span => .expression token e span

def Item.dropValue : Item → Item
  | .statement s => .statement s.dropValue
  | .diagnostic d => .diagnostic d

def Item.isValued : Item → Bool
  | .statement s => s.isValued
  | .diagnostic _ => false

def Round.Terminated (rd : Round) : Prop :=
  rd.item.isValued → rd.stop.current.kind = .semicolon

instance (rd : Round) : Decidable rd.Terminated :=
  inferInstanceAs (Decidable (rd.item.isValued → rd.stop.current.kind = .semicolon))

theorem filterMap_statement?_dropValue (items : List Item) :
    (items.map Item.dropValue).filterMap Item.statement? =
      (items.filterMap Item.statement?).map Stmt.dropValue := by
  rw [List.filterMap_map, List.map_filterMap]
  congr
  funext item
  cases item <;> rfl

theorem filterMap_diagnostic?_dropValue (items : List Item) :
    (items.map Item.dropValue).filterMap Item.diagnostic? = items.filterMap Item.diagnostic? := by
  rw [List.filterMap_map]
  congr
  funext item
  cases item <;> rfl

variable {ending : Token} {values : Values} {ts us : List Token} {t : Token}

/-- A round that ends in a semicolon ends in the first one. -/
theorem ReadsItem.fromSemicolon_eq {item : Item} {u : Token}
    (h : ReadsItem .standard ending values ts item (u :: us)) (hu : u.kind = .semicolon) :
    fromSemicolon ts = u :: us := by
  obtain ⟨ws, rfl⟩ := h.suffix
  rw [fromSemicolon_append_cons hu]
  cases hw : fromSemicolon ws with
  | nil => rfl
  | cons s vs =>
      have hs := kind_of_fromSemicolon hw
      obtain ⟨ws', rfl⟩ := hw ▸ fromSemicolon_suffix ws
      rw [List.append_assoc, List.cons_append] at h
      have hl := (h.suffix_of_semicolon hs).length_le
      simp at hl
      omega

/-- Behind the next semicolon, tokens are read as if nothing were before them. -/
theorem ReadsItems.exists_append_fromSemicolon (he : ending.kind = .eof) {items : List Item}
    (h : ReadsItems .standard ending values (fromSemicolon ts).tail items) :
    ∃ items', ReadsItems .standard ending values ts (items' ++ items) := by
  cases hs : fromSemicolon ts with
  | nil =>
      rw [hs] at h
      cases h
      obtain ⟨items, hi⟩ := exists_readsItems (r := .standard) he rfl values ts
      exact ⟨items, by rwa [List.append_nil]⟩
  | cons s vs =>
      rw [hs] at h
      obtain ⟨ws, rfl⟩ := hs ▸ fromSemicolon_suffix ts
      obtain ⟨items', hi⟩ := exists_readsItems (r := .standard) he rfl values (ws ++ [s])
      exact ⟨items', hi.append rfl rfl (kind_of_fromSemicolon hs) h⟩

/-- What skipping makes of a statement that is read to an outcome. -/
inductive ReadsSkipped (ending : Token) (ts : List Token) (o : Except Diagnostic Stmt)
    (us : List Token) : Prop
  /-- There is no value, or reading does not get to it. -/
  | same : ReadsStatement .standard ending .skipped ts o us →
      (∀ s, o = .ok s → s.dropValue = s) → ReadsSkipped ending ts o us
  | value {s : Stmt} :
      ReadsStatement .standard ending .skipped ts (.ok s) (fromSemicolon ts) →
      (∀ s', o = .ok s' → s'.isValued ∧ (fromSemicolon ts = us → s'.dropValue = s)) →
      ReadsSkipped ending ts o us

theorem ReadsSkipped.of_error {d : Diagnostic}
    (h : ReadsStatement .standard ending .skipped ts (.error d) us) :
    ReadsSkipped ending ts (.error d) us := by
  refine .same h ?_
  intro s hs
  cases hs

theorem ReadsSkipped.binding {n a : Token} {o : Except Diagnostic Stmt}
    (hr : (Rules.standard.statement t.kind).getD .expression = .binding) (hn : n.kind = .identifier)
    (ha : a.kind = .assignment)
    (ho : ∀ s, o = .ok s → ∃ x, s = .binding t (.ofToken n) (some x)
      (t.span.hull (front ending us).span)) :
    ReadsSkipped ending (t :: n :: a :: ts) o us := by
  have ht := Rules.standard_statement_binding.mp hr
  have hf : fromSemicolon (t :: n :: a :: ts) = fromSemicolon (a :: ts) := by
    rw [fromSemicolon_cons_of_ne _ (by simp [ht]), fromSemicolon_cons_of_ne _ (by simp [hn])]
  have hb : ReadsBy .standard ending .skipped .binding (t :: n :: a :: ts) _ _ :=
    .bindingSkipped hn ha
  rw [← hf] at hb
  refine .value (hb.readsStatement hr) ?_
  intro s hs
  obtain ⟨x, hs⟩ := ho s hs
  subst hs
  refine ⟨rfl, fun hu => ?_⟩
  rw [hu]
  rfl

theorem ReadsSkipped.returning {o : Except Diagnostic Stmt}
    (hr : (Rules.standard.statement t.kind).getD .expression = .returning)
    (ho : ∀ s, o = .ok s → ∃ x, s = .returning t x (t.span.hull (front ending us).span)) :
    ReadsSkipped ending (t :: ts) o us := by
  have ht := Rules.standard_statement_returning.mp hr
  have hf : fromSemicolon (t :: ts) = fromSemicolon ts :=
    fromSemicolon_cons_of_ne ts (by simp [ht])
  have hb : ReadsBy .standard ending .skipped .returning (t :: ts) _ _ := .returningSkipped
  rw [List.tail_cons, ← hf] at hb
  refine .value (hb.readsStatement hr) ?_
  intro s hs
  obtain ⟨x, hs⟩ := ho s hs
  subst hs
  refine ⟨rfl, fun hu => ?_⟩
  rw [hu]
  rfl

theorem ReadsStatement.readsSkipped {o : Except Diagnostic Stmt}
    (h : ReadsStatement .standard ending .parsed (t :: ts) o us) :
    ReadsSkipped ending (t :: ts) o us := by
  obtain ⟨rule, hr, hb⟩ := h.exists_readsBy
  cases hb with
  | expression hx =>
      refine .same (ReadsBy.readsStatement hr (.expression hx)) ?_
      rintro s ⟨⟩
      rfl
  | expressionFails hx => exact .of_error (ReadsBy.readsStatement hr (.expressionFails hx))
  | unnamed hn => exact .of_error (ReadsBy.readsStatement hr (.unnamed hn))
  | unassigned hn ha => exact .of_error (ReadsBy.readsStatement hr (.unassigned hn ha))
  | binding hn ha => exact .binding hr hn ha fun s hs => ⟨_, (Except.ok.inj hs).symm⟩
  | bindingFails hn ha => exact .binding hr hn ha fun s hs => by cases hs
  | bare | returning => exact .returning hr fun s hs => ⟨_, (Except.ok.inj hs).symm⟩
  | returningFails => exact .returning hr fun s hs => by cases hs

/-- Whatever the tokens are, they can be read and skipped, and skipping finds some of the
diagnostics that reading finds. -/
theorem exists_readsItems_skipped (he : ending.kind = .eof) (ts : List Token) :
    ∃ items items', ReadsItems .standard ending .parsed ts items ∧
      ReadsItems .standard ending .skipped ts items' ∧
      (items'.filterMap Item.diagnostic?).Sublist (items.filterMap Item.diagnostic?) := by
  induction hn : ts.length using Nat.strongRecOn generalizing ts with
  | ind n ih =>
      cases ts with
      | nil => exact ⟨[], [], .done, .done, .slnil⟩
      | cons t ts =>
          obtain ⟨o, us, hs⟩ : ∃ o us, ReadsStatement .standard ending .parsed (t :: ts) o us :=
            exists_readsBy he rfl .parsed _ _
          cases hs.readsSkipped with
          | same hs' =>
              -- Both find the same and go on from the same place.
              cases o with
              | ok s =>
                  obtain ⟨items, items', hi, hi', hd⟩ :=
                    ih _ (hn ▸ length_tail_lt hs.suffix) us.tail rfl
                  exact ⟨_, _, .statement hs hi, .statement hs' hi', hd⟩
              | error d =>
                  have hf := (fromSemicolon_suffix us).trans hs.suffix
                  obtain ⟨items, items', hi, hi', hd⟩ :=
                    ih _ (hn ▸ length_tail_lt hf) (fromSemicolon us).tail rfl
                  exact ⟨_, _, .diagnostic hs hi, .diagnostic hs' hi', hd.cons_cons d⟩
          | value hs' =>
              -- Skipping is behind the next semicolon at once. Reading may find more before it.
              obtain ⟨items, items', hi, hi', hd⟩ :=
                ih _ (hn ▸ length_tail_lt (fromSemicolon_suffix _)) _ rfl
              obtain ⟨before, hb⟩ := hi.exists_append_fromSemicolon he
              refine ⟨_, _, hb, .statement hs' hi', ?_⟩
              rw [List.filterMap_append]
              exact hd.trans (List.sublist_append_right _ _)

/-- A statement that is skipped up to where it ends is the same without its value. -/
theorem ReadsStatement.dropValue (he : ending.kind = .eof) {s : Stmt}
    (h : ReadsStatement .standard ending .parsed (t :: ts) (.ok s) us)
    (hs : s.isValued → (front ending us).kind = .semicolon) :
    ReadsStatement .standard ending .skipped (t :: ts) (.ok s.dropValue) us := by
  cases h.readsSkipped with
  | same hs' hd =>
      rw [hd s rfl]
      exact hs'
  | value hs' hd =>
      obtain ⟨hv, hd⟩ := hd s rfl
      cases us with
      | nil =>
          have hk := hs hv
          rw [front_nil, he] at hk
          contradiction
      | cons u us =>
          have hf := (ReadsItem.statement h).fromSemicolon_eq (hs hv)
          rw [hf] at hs' hd
          rw [hd rfl]
          exact hs'

/-- Rounds whose items are statements and terminated are skipped as the same statements. -/
theorem ReadsRounds.dropValue (he : ending.kind = .eof) {rds : List Round}
    (h : ReadsRounds .standard ending .parsed ts rds)
    (hd : (rds.map Round.item).filterMap Item.diagnostic? = [])
    (ht : ∀ rd ∈ rds, rd.Terminated) :
    ReadsItems .standard ending .skipped ts ((rds.map Round.item).map Item.dropValue) := by
  induction h with
  | done => exact .done
  | @round t ts us rd rds hstart hi hstop _ ih =>
      have hr : rd.Terminated := ht rd (List.mem_cons_self ..)
      have ht' : ∀ rd ∈ rds, rd.Terminated := fun rd' hm => ht rd' (List.mem_cons_of_mem rd hm)
      rw [Round.Terminated, hstop.current] at hr
      rw [List.map_cons] at hd ⊢
      generalize rd.item = item at hi hd hr
      cases hi with
      | statement hs => exact .statement (hs.dropValue he hr) (ih hd ht')
      | diagnostic => cases hd

/-- Skipping values against reading them. The diagnostics of skipping are some of those of reading.
If reading finds none and each value ends in a semicolon, skipping finds the same program without
its values. -/
theorem parse_skipped (text : String) (name : Option String) :
    (parse text name .skipped).2.diagnostics.Sublist (parse text name .parsed).2.diagnostics ∧
      ((parse text name .parsed).2.diagnostics = [] →
        (∀ rd ∈ rounds text name .parsed, rd.Terminated) →
        (parse text name .skipped).2.diagnostics = [] ∧
          (parse text name .skipped).1 =
            ⟨(parse text name .parsed).1.statements.map Stmt.dropValue⟩) := by
  have hy := yields_source text name
  constructor
  · obtain ⟨items, items', hi, hi', hd⟩ :=
      exists_readsItems_skipped hy.ends (sourceTokens text name)
    rw [(parse_of_readsItems hy hi).2, (parse_of_readsItems hy hi').2]
    exact hd
  · intro hd ht
    obtain ⟨hp, hd'⟩ := parse_eq_rounds text name .parsed
    have hi := (readsRounds text name .parsed).dropValue hy.ends (hd'.symm.trans hd) ht
    obtain ⟨hs, hd''⟩ := parse_of_readsItems hy hi
    rw [filterMap_statement?_dropValue, ← hp] at hs
    rw [filterMap_diagnostic?_dropValue, ← hd', hd] at hd''
    exact ⟨hd'', congrArg Program.mk hs⟩

/-- The values of the text `let a = -1; b return;` are read without a diagnostic, and both end in a
semicolon. -/
theorem parse_skipped_terminated :
    let text := "let a = -1; b return;"
    (parse text none .parsed).2.diagnostics = [] ∧
      (∀ rd ∈ rounds text none .parsed, rd.Terminated) ∧
      (parse text none .skipped).2.diagnostics = [] ∧
      (parse text none .skipped).1 =
        ⟨(parse text none .parsed).1.statements.map Stmt.dropValue⟩ := by
  intro text
  have hd : (parse text none .parsed).2.diagnostics = [] := by decide +kernel
  have ht : ∀ rd ∈ rounds text none .parsed, rd.Terminated := by decide +kernel
  exact ⟨hd, ht, (parse_skipped text none).2 hd ht⟩

end FrontEnd
