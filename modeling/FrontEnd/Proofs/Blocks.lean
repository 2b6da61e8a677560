import Mathlib.Data.List.Forall2
import FrontEnd.Proofs.Fault
import FrontEnd.Proofs.Rounds

/-!
The rounds cut a source into blocks of tokens, one block each, with nothing between them and nothing
left over. A semicolon ends its block. A statement spans its block, and a diagnostic points at a
token of its own or at the end of the text.
-/

namespace FrontEnd

def Stmt.isValued : Stmt → Bool
  | .binding .. | .returning .. => true
  | .expression .. => false

structure Block where
  first : Nat
  /-- The index behind the last token. -/
  next : Nat
  /-- The index that the diagnostic of a broken block points at. -/
  fault : Option Nat

namespace Block

variable (text : String) (name : Option String) (values : Values) (b : Block)

/-- The value of the statement is skipped up to the end of the text, for want of a semicolon. -/
def RunsOut (s : Stmt) : Prop :=
  values = .skipped ∧ s.isValued ∧ (tokenAt text name (b.next - 1)).kind ≠ .semicolon

/-- A statement spans its tokens, and the end of the text if its value runs out. -/
structure Parsed (s : Stmt) : Prop where
  fault : b.fault = none
  span : ¬ b.RunsOut text name values s →
    s.span = (tokenAt text name b.first).span.hull (tokenAt text name (b.next - 1)).span
  runsOut : b.RunsOut text name values s →
    b.next = (sourceTokens text name).length ∧
      s.span = (tokenAt text name b.first).span.hull (sourceEnd text name).span

/-- A broken statement takes all tokens up to its semicolon. Its diagnostic points at one of them, or
at the end of the text if no semicolon comes before that. -/
structure Broken (d : Diagnostic) : Prop where
  ends : (tokenAt text name (b.next - 1)).kind = .semicolon ∨
    b.next = (sourceTokens text name).length
  fault : ∃ k, b.fault = some k ∧ d.position = (tokenAt text name k).span.start ∧ b.first ≤ k ∧
    (k < b.next ∨ k = b.next ∧ b.next = (sourceTokens text name).length)

def IsReadAs : Item → Prop
  | .statement s => b.Parsed text name values s
  | .diagnostic d => b.Broken text name d

end Block

structure Round.Takes (text : String) (name : Option String) (values : Values) (rd : Round)
    (b : Block) : Prop where
  start : rd.start.At text name b.first
  stop : rd.stop.advance.At text name b.next
  item : b.IsReadAs text name values rd.item
  semicolon : ∀ k, b.first ≤ k → k + 1 < b.next → (tokenAt text name k).kind ≠ .semicolon

/-- Blocks one behind the other, none of them empty, from one index up to another. -/
def Consecutive : Nat → List Block → Nat → Prop
  | i, [], j => i = j
  | i, b :: bs, j => b.first = i ∧ i < b.next ∧ Consecutive b.next bs j

section

variable {r : Rules} {ending : Token} {values : Values} {ts us : List Token} {s : Stmt}

theorem pastSemicolon_ne_nil (h : us ≠ []) : pastSemicolon us ≠ [] := by
  obtain ⟨t, us, rfl⟩ := List.exists_cons_of_ne_nil h
  cases us with
  | nil => exact h
  | cons u us =>
      simp only [pastSemicolon]
      split <;> simp

/-- Only values that are skipped take a statement beyond the last token. -/
theorem ReadsBy.isValued_of_nil (he : ending.kind = .eof) {rule : StatementRule}
    (h : ReadsBy r ending values rule ts (.ok s) []) : values = .skipped ∧ s.isValued := by
  generalize hus : ([] : List Token) = us at h
  cases h with
  | expression hx | binding _ _ hx | returning _ hx =>
      exact absurd hus.symm (pastSemicolon_ne_nil hx.ne_nil)
  | bare hs =>
      rw [← hus, front_nil, he] at hs
      contradiction
  | bindingSkipped | returningSkipped => exact ⟨rfl, rfl⟩

theorem ReadsBy.kind_of_skipped {rule : StatementRule} {u : Token}
    (h : ReadsBy r ending .skipped rule ts (.ok s) (u :: us)) (hv : s.isValued) :
    u.kind = .semicolon := by
  generalize hus : u :: us = vs at h
  cases h with
  | expression => cases hv
  | bindingSkipped | returningSkipped => exact kind_of_fromSemicolon hus.symm

/-- A round does not go past a semicolon. -/
theorem ReadsItem.suffix_of_semicolon {vs : List Token} {t : Token} {item : Item}
    (h : ReadsItem .standard ending values (vs ++ t :: ts) item us) (ht : t.kind = .semicolon) :
    t :: ts <:+ us := by
  cases h with
  | statement hs =>
      obtain ⟨ws, rfl, -⟩ := hs.readsBefore rfl rfl ht
      exact List.suffix_append ws _
  | diagnostic hs =>
      obtain ⟨ws, rfl, -⟩ := hs.readsBefore rfl rfl ht
      rw [fromSemicolon_append_cons ht]
      exact List.suffix_append _ _

end

def place (text : String) (name : Option String) (us : List Token) : Nat :=
  (sourceTokens text name).length - us.length

section

variable {text : String} {name : Option String} {values : Values} {ts us : List Token}

theorem drop_place (h : us <:+ sourceTokens text name) :
    (sourceTokens text name).drop (place text name us) = us :=
  (List.suffix_iff_eq_drop.mp h).symm

theorem tokenAt_place (h : us <:+ sourceTokens text name) :
    tokenAt text name (place text name us) = front (sourceEnd text name) us := by
  rw [tokenAt, drop_place h]

theorem Window.Shows.at_place {w : Window} (h : w.Shows us (sourceEnd text name))
    (hus : us <:+ sourceTokens text name) : w.At text name (place text name us) := by
  rw [Window.At, drop_place hus]
  exact h

theorem place_le_place (h : us.length ≤ ts.length) : place text name ts ≤ place text name us :=
  Nat.sub_le_sub_left h _

theorem place_lt_place (h : us.length < ts.length) (hts : ts <:+ sourceTokens text name) :
    place text name ts < place text name us :=
  Nat.sub_lt_sub_left (Nat.lt_of_lt_of_le h hts.length_le) h

/-- A list of tokens stands in front of its second one. -/
theorem place_pred (u : Token) (us : List Token) :
    place text name us - 1 = place text name (u :: us) :=
  Nat.sub_sub _ us.length 1

/-- A semicolon ends its block. -/
theorem ReadsItem.kind_ne_semicolon {item : Item} {k : Nat}
    (h : ReadsItem .standard (sourceEnd text name) values ts item us)
    (hts : ts <:+ sourceTokens text name) (hk : place text name ts ≤ k)
    (hk' : k + 1 < place text name us.tail) : (tokenAt text name k).kind ≠ .semicolon := by
  intro hs
  have hlt : k < (sourceTokens text name).length := by
    unfold place at hk'
    omega
  obtain ⟨vs, u, rest, hu, hrest⟩ := exists_drop_eq hk hlt
  rw [tokenAt, hrest, front_cons] at hs
  rw [drop_place hts] at hu
  rw [hu] at h
  have hle := (h.suffix_of_semicolon hs).length_le
  have hl := congrArg List.length hrest
  rw [List.length_drop] at hl
  unfold place at hk'
  rw [List.length_tail] at hk'
  rw [List.length_cons] at hle hl
  omega

/-- A statement that leaves no last token runs out. -/
theorem ReadsStatement.runsOut {s : Stmt} {b : Block}
    (h : ReadsStatement .standard (sourceEnd text name) values ts (.ok s) [])
    (hts : ts <:+ sourceTokens text name) (hn : ts ≠ []) (hb : b.next = place text name []) :
    b.RunsOut text name values s := by
  obtain ⟨hv, hs⟩ := ReadsBy.isValued_of_nil (yields_source text name).ends h
  refine ⟨hv, hs, fun hk => ?_⟩
  obtain ⟨vs, u, rfl⟩ : ∃ vs u, ts = vs ++ [u] :=
    ⟨_, _, (List.dropLast_append_getLast hn).symm⟩
  have hu : [u] <:+ sourceTokens text name := (List.suffix_append vs [u]).trans hts
  rw [hb, place_pred u, tokenAt_place hu] at hk
  have hnil : [u] <:+ [] := (ReadsItem.statement h).suffix_of_semicolon hk
  simp at hnil

/-- A statement that leaves a last token does not run out. -/
theorem ReadsStatement.not_runsOut {s : Stmt} {b : Block} {u : Token}
    (h : ReadsStatement .standard (sourceEnd text name) values ts (.ok s) (u :: us))
    (hts : ts <:+ sourceTokens text name) (hb : b.next = place text name us) :
    ¬ b.RunsOut text name values s := by
  rintro ⟨rfl, hs, hk⟩
  rw [hb, place_pred u, tokenAt_place ((ReadsBy.suffix h).trans hts)] at hk
  exact hk (ReadsBy.kind_of_skipped h hs)

theorem ReadsStatement.parsed {s : Stmt}
    (h : ReadsStatement .standard (sourceEnd text name) values ts (.ok s) us)
    (hts : ts <:+ sourceTokens text name) (hn : ts ≠ []) :
    Block.Parsed text name values ⟨place text name ts, place text name us.tail, none⟩ s := by
  have hus := (ReadsBy.suffix h).trans hts
  have hspan := ReadsBy.span_eq h
  rw [← tokenAt_place hts] at hspan
  cases us with
  | nil => exact ⟨rfl, fun hr => absurd (h.runsOut hts hn rfl) hr, fun _ => ⟨rfl, hspan⟩⟩
  | cons u us =>
      refine ⟨rfl, fun _ => ?_, fun hr => absurd hr (h.not_runsOut hts rfl)⟩
      rw [hspan, List.tail_cons, place_pred u, tokenAt_place hus]

theorem ReadsStatement.broken {t : Token} {d : Diagnostic}
    (h : ReadsStatement .standard (sourceEnd text name) values (t :: ts) (.error d) us)
    (hts : t :: ts <:+ sourceTokens text name) :
    Block.Broken text name ⟨place text name (t :: ts), place text name (fromSemicolon us).tail,
      some (place text name (d.fault us))⟩ d := by
  have hfs := (d.fault_suffix us).trans (ReadsBy.suffix h)
  have hf := hfs.trans hts
  have hs := fromSemicolon_suffix (d.fault us)
  have heq := h.fromSemicolon_fault
  rw [heq] at hs
  have hpos := ReadsBy.position_eq h
  rw [← tokenAt_place hf] at hpos
  have hle : place text name (t :: ts) ≤ place text name (d.fault us) :=
    place_le_place hfs.length_le
  cases hu : fromSemicolon us with
  | nil =>
      have hend : place text name (d.fault us) ≤ place text name [] :=
        place_le_place (Nat.zero_le _)
      refine ⟨.inr rfl, _, rfl, hpos, hle, ?_⟩
      exact (Nat.lt_or_eq_of_le hend).imp_right fun hk => ⟨hk, rfl⟩
  | cons u vs =>
      rw [hu] at hs
      refine ⟨.inl ?_, _, rfl, hpos, hle, .inl (place_lt_place hs.length_le hf)⟩
      change (tokenAt text name (place text name vs - 1)).kind = .semicolon
      rw [place_pred u, tokenAt_place (hs.trans hf)]
      exact kind_of_fromSemicolon hu

/-- A round takes the tokens from the first one that it shows up to the last one that it leaves. -/
theorem ReadsItem.takes {rd : Round} {fault : Option Nat}
    (h : ReadsItem .standard (sourceEnd text name) values ts rd.item us)
    (hts : ts <:+ sourceTokens text name) (hstart : rd.start.Shows ts (sourceEnd text name))
    (hstop : rd.stop.Shows us (sourceEnd text name))
    (hitem : Block.IsReadAs text name values ⟨place text name ts, place text name us.tail, fault⟩
      rd.item) :
    rd.Takes text name values ⟨place text name ts, place text name us.tail, fault⟩ :=
  ⟨hstart.at_place hts, hstop.advance.at_place (h.tail_suffix.trans hts), hitem,
    fun _ => h.kind_ne_semicolon hts⟩

end

namespace Consecutive

variable {i j : Nat} {bs : List Block}

theorem le (h : Consecutive i bs j) : i ≤ j := by
  induction bs generalizing i with
  | nil => exact Nat.le_of_eq h
  | cons b bs ih => exact Nat.le_trans (Nat.le_of_lt h.2.1) (ih h.2.2)

end Consecutive

section

variable {ending : Token} {values : Values} {ts : List Token} {items : List Item}

theorem length_filterMap_item (items : List Item) :
    (items.filterMap Item.statement?).length + (items.filterMap Item.diagnostic?).length =
      items.length := by
  induction items with
  | nil => rfl
  | cons item items ih =>
      cases item with
      | statement | diagnostic =>
          simp only [List.filterMap_cons, Item.statement?, Item.diagnostic?, List.length_cons]
          omega

theorem ReadsItems.length_le {r : Rules} (h : ReadsItems r ending values ts items) :
    items.length ≤ ts.length := by
  induction h with
  | done => exact Nat.le_refl _
  | statement hs _ ih => exact Nat.le_trans (Nat.succ_le_succ ih) (length_tail_lt hs.suffix)
  | diagnostic hs _ ih =>
      have hf := (fromSemicolon_suffix _).trans (ReadsBy.suffix hs)
      exact Nat.le_trans (Nat.succ_le_succ ih) (length_tail_lt hf)

end

end FrontEnd
