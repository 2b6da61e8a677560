import FrontEnd.Proofs.Barrier
import FrontEnd.Proofs.Printing

/-!
Where reading fails. A diagnostic points at the token at which reading stopped, or at the one behind
it if a certain kind was expected there. The tokens in front of that one settle the failure: it
comes about again whatever comes after the token, and without the token the others could still be
completed.
-/

namespace FrontEnd

/-- The tokens from the one on that the diagnostic points at, where those of the list are left. A
token of an unexpected kind stands behind the last one that was read. -/
def Diagnostic.fault (d : Diagnostic) (us : List Token) : List Token :=
  match d.cause with
  | .expectedToken _ _ => us.tail
  | .noStart _ | .badInteger _ => us

@[simp] theorem Diagnostic.fault_expectedToken (expected got : Kind) (p : Position)
    (us : List Token) : fault ⟨.expectedToken expected got, p⟩ us = us.tail := rfl

theorem Diagnostic.fault_suffix (d : Diagnostic) (us : List Token) : d.fault us <:+ us := by
  unfold fault
  split
  · exact List.tail_suffix us
  · exact List.suffix_rfl
  · exact List.suffix_rfl

section

variable {r : Rules} {ending : Token} {values : Values} {ts us : List Token} {d : Diagnostic}

theorem Reads.position_eq {task : Option Expr} {power : Power}
    (h : Reads r ending task power ts (.error d) us) :
    d.position = (front ending (d.fault us)).span.start := by
  generalize ho : (Except.error d : Except Diagnostic Expr) = o at h
  induction h with
  | noStart | badInteger | groupOpen =>
      cases ho
      rfl
  | finish => cases ho
  | unaryFails _ _ ih | groupFails _ _ ih | binaryFails _ _ ih => exact ih ho
  | identifier _ _ ih | integer _ _ _ ih => exact ih ho
  | unary _ _ _ _ ih | group _ _ _ _ _ ih | binary _ _ _ _ ih => exact ih ho

theorem ReadsBy.position_eq {rule : StatementRule}
    (h : ReadsBy r ending values rule ts (.error d) us) :
    d.position = (front ending (d.fault us)).span.start := by
  cases h with
  | expressionFails h | bindingFails _ _ h | returningFails _ h => exact h.position_eq
  | unnamed | unassigned => rfl

end

variable {ending : Token} {values : Values} {power : Power} {ts us : List Token} {d : Diagnostic}

/-- An expression does not end in a semicolon. -/
theorem Reads.kind_ne_semicolon {u : Token} {x : Expr}
    (h : Reads .standard ending none power ts (.ok x) (u :: us)) : u.kind ≠ .semicolon := by
  intro hs
  obtain ⟨ws, rfl⟩ := h.suffix
  obtain ⟨vs, hu, hv, -⟩ := h.readsBefore rfl hs nofun
  exact hv rfl (List.append_cancel_right ((List.nil_append _).trans hu)).symm

/-- Up to the next semicolon, it makes no difference whether reading goes on where it stopped or at
the fault. -/
theorem Reads.fromSemicolon_fault {task : Option Expr}
    (h : Reads .standard ending task power ts (.error d) us) :
    fromSemicolon (d.fault us) = fromSemicolon us := by
  generalize ho : (Except.error d : Except Diagnostic Expr) = o at h
  induction h with
  | noStart | badInteger =>
      cases ho
      rfl
  | groupOpen _ hx =>
      cases ho
      obtain ⟨u, us, rfl⟩ := List.exists_cons_of_ne_nil hx.ne_nil
      exact (fromSemicolon_cons_of_ne us hx.kind_ne_semicolon).symm
  | finish => cases ho
  | unaryFails _ _ ih | groupFails _ _ ih | binaryFails _ _ ih => exact ih ho
  | identifier _ _ ih | integer _ _ _ ih => exact ih ho
  | unary _ _ _ _ ih | group _ _ _ _ _ ih | binary _ _ _ _ ih => exact ih ho

theorem ReadsStatement.fromSemicolon_fault {t : Token}
    (h : ReadsStatement .standard ending values (t :: ts) (.error d) us) :
    fromSemicolon (d.fault us) = fromSemicolon us := by
  obtain ⟨rule, hr, hb⟩ := h.exists_readsBy
  cases hb with
  | expressionFails hx | bindingFails _ _ hx | returningFails _ hx => exact hx.fromSemicolon_fault
  | unnamed =>
      have ht := Rules.standard_statement_binding.mp hr
      exact (fromSemicolon_cons_of_ne ts (by simp [ht])).symm
  | unassigned hn => exact (fromSemicolon_cons_of_ne _ (by simp [hn])).symm

structure Token.IsRegular (t : Token) : Prop where
  kind_ne_eof : t.kind ≠ .eof
  spelled : t.Spelled

def Token.someName : Token :=
  ⟨.identifier, "x", noSpan⟩

theorem Token.isRegular_someName : someName.IsRegular :=
  ⟨nofun, Lexeme.spelled_of_name rfl ⟨by decide, by simp [someName, isWordChar], by decide⟩⟩

theorem Token.isRegular_sign {k : Kind} {s : String} (h : k.spelling? = some s) :
    (sign k).IsRegular := by
  refine ⟨?_, Lexeme.spelled_of_spelling? ?_⟩
  · rintro rfl
    contradiction
  · change k.spelling? = some (k.spelling?.getD "")
    rw [h, Option.getD_some]

def Completes (power : Power) (vs : List Token) : Prop :=
  ∃ cs x, (∀ c ∈ cs, c.IsRegular) ∧ Derives (.ofPower power) (vs ++ cs) x

/-- More tokens complete what a reader has taken before it stops. The rest of an expression is
completed behind any operand that its first operator can take. -/
def Completable (ending : Token) (task : Option Expr) (power : Power) (vs rest : List Token) :
    Prop :=
  match task with
  | none => Completes power vs
  | some left => ∃ t us, vs = t :: us ∧ ∀ l ws, Derives l (ws ++ [t]) left →
      (Layer.ofPower power).rank ≤ l.rank → l.Ends (front ending (us ++ rest)).kind →
      Completes power (ws ++ vs)

/-- The end of the text is no operator. -/
theorem Rules.Continues.ne_nil_of_eof (he : ending.kind = .eof)
    (h : standard.Continues power (front ending ts).kind) : ts ≠ [] := by
  rintro rfl
  obtain ⟨l, hl, -⟩ := standard_continues_iff.mp h
  rw [front_nil, he] at hl
  contradiction

/-- Reading stops at the first token of the rest, for good, but not too early. -/
structure Stops (ending : Token) (task : Option Expr) (power : Power) (d : Diagnostic)
    (vs rest : List Token) : Prop where
  again : ∀ t ts, rest = t :: ts → ∀ ts', ∃ us,
    Reads .standard ending task power (vs ++ t :: ts') (.error d) us
  completable : Completable ending task power vs rest

/-- An expression is read in the same way if something else follows that begins alike. -/
theorem Reads.replace_rest (he : ending.kind = .eof) {ws rest rest' : List Token} {u : Token}
    {x : Expr} (h : Reads .standard ending none power (ws ++ u :: rest) (.ok x) (u :: rest))
    (hf : front ending rest = front ending rest') :
    Reads .standard ending none power (ws ++ u :: rest') (.ok x) (u :: rest') := by
  obtain ⟨vs, v, vs', hts, hus, hd, hb⟩ := (reads_iff_taken he).mp h
  cases hus
  obtain rfl : ws = vs := List.append_cancel_right hts
  exact (reads_iff_taken he).mpr ⟨ws, u, rest', rfl, rfl, hd, hf ▸ hb⟩

theorem Reads.exists_operand (he : ending.kind = .eof) {u : Token} (vs : List Token)
    {rest : List Token} {x : Expr}
    (h : Reads .standard ending none power ts (.ok x) (u :: (vs ++ rest))) :
    ∃ ws, ts = ws ++ u :: (vs ++ rest) ∧ Derives (.ofPower power) (ws ++ [u]) x ∧
      ¬ (front ending (vs ++ rest)).kind.BindsTighter power ∧
      ∀ t ts, rest = t :: ts → ∀ ts',
        Reads .standard ending none power (ws ++ u :: (vs ++ t :: ts')) (.ok x)
          (u :: (vs ++ t :: ts')) := by
  obtain ⟨ws, u, rest', rfl, hu, hd, hb⟩ := (reads_iff_taken he).mp h
  cases hu
  refine ⟨ws, rfl, hd, hb, ?_⟩
  rintro t ts rfl ts'
  exact h.replace_rest he (front_append_congr ..)

theorem completes_atom {cs : List Token} {x : Expr} (hc : ∀ c ∈ cs, c.IsRegular)
    (h : Derives .atom (ts ++ cs) x) : Completes power ts :=
  ⟨cs, x, hc, h.loosen (Layer.rank_le_rank_atom _)⟩

theorem completes_nil : Completes power [] :=
  completes_atom (List.forall_mem_singleton.mpr Token.isRegular_someName) (.identifier rfl)

theorem Completes.unary {o : Token} (ho : o.kind = .not ∨ o.kind = .dash)
    (h : Completes .unary ts) : Completes power (o :: ts) := by
  obtain ⟨cs, x, hc, hd⟩ := h
  exact ⟨cs, _, hc, (Derives.unary ho hd).loosen (Layer.rank_ofPower_le power)⟩

/-- A group is closed when its expression is complete. -/
theorem Completes.group {o : Token} (ho : o.kind = .openParen) (h : Completes .lowest ts) :
    Completes power (o :: ts) := by
  obtain ⟨cs, x, hc, hd⟩ := h
  have hp : (Token.sign .closeParen).IsRegular := Token.isRegular_sign rfl
  have hg : Derives .atom (o :: ts ++ (cs ++ [.sign .closeParen])) x := by
    simpa using Derives.group ho hd rfl
  refine completes_atom ?_ hg
  simpa [or_imp, forall_and] using ⟨hc, hp⟩

theorem Completes.binary {l : Layer} {o : Token} {ws : List Token} {x : Expr}
    (ho : Layer.ofOperator? o.kind = some l) (hp : power < l.power) (hx : Derives l ws x)
    (h : Completes l.power ts) : Completes power (ws ++ o :: ts) := by
  obtain ⟨cs, y, hc, hd⟩ := h
  rw [Layer.ofPower_power_of_ofOperator? ho] at hd
  have hb := (Derives.binary ho hx hd).loosen ((Layer.rank_ofPower_le_iff ho power).mpr hp)
  exact ⟨cs, _, hc, by simpa using hb⟩

namespace Stops

variable {vs ws rest : List Token} {t u : Token} {x : Expr}

theorem unary (hs : Rules.standard.starting t.kind = some .unary)
    (h : Stops ending none .unary d vs rest) : Stops ending none power d (t :: vs) rest := by
  refine ⟨fun v ts hr ts' => ?_, ?_⟩
  · obtain ⟨us, hx⟩ := h.again v ts hr ts'
    exact ⟨us, .unaryFails hs hx⟩
  · exact Completes.unary (Rules.standard_starting_unary.mp hs) h.completable

theorem group (hs : Rules.standard.starting t.kind = some .grouping)
    (h : Stops ending none .lowest d vs rest) : Stops ending none power d (t :: vs) rest := by
  refine ⟨fun v ts hr ts' => ?_, ?_⟩
  · obtain ⟨us, hx⟩ := h.again v ts hr ts'
    exact ⟨us, .groupFails hs hx⟩
  · exact Completes.group (Rules.standard_starting_grouping.mp hs) h.completable

/-- Where the operand behind an operator stops, so does the expression that it belongs to. -/
theorem binary {o : Token} (hb : Rules.standard.Continues power o.kind)
    (h : Stops ending none (Rules.standard.power o.kind) d vs rest) :
    Stops ending (some x) power d (t :: o :: vs) rest := by
  obtain ⟨m, hm, hp⟩ := Rules.standard_continues_iff.mp hb
  refine ⟨fun v ts hr ts' => ?_, t, _, rfl, fun l ws hx _ hl => ?_⟩
  · obtain ⟨us, hy⟩ := h.again v ts hr ts'
    have hbin : Reads .standard ending (some x) power (t :: o :: (vs ++ v :: ts')) (.error d) us :=
      .binaryFails hb hy
    exact ⟨us, hbin⟩
  · have hc : Completes (Rules.standard.power o.kind) vs := h.completable
    rw [Rules.standard_power_of_ofOperator? hm] at hc
    simpa using Completes.binary hm hp (hx.loosen (hl m hm)) hc

/-- Where an expression stops behind the operand of an operator, so does the one before the
operator. -/
theorem longer {o : Token} {y : Expr} (hb : Rules.standard.Continues power o.kind)
    (hd : Derives (.ofPower (Rules.standard.power o.kind)) (ws ++ [u]) y)
    (hn : ¬ (front ending (vs ++ rest)).kind.BindsTighter (Rules.standard.power o.kind))
    (hr : ∀ t ts, rest = t :: ts → ∀ ts',
      Reads .standard ending none (Rules.standard.power o.kind) (ws ++ u :: (vs ++ t :: ts'))
        (.ok y) (u :: (vs ++ t :: ts')))
    (h : Stops ending (some (.binary x o y (x.span.hull y.span))) power d (u :: vs) rest) :
    Stops ending (some x) power d (t :: o :: (ws ++ u :: vs)) rest := by
  obtain ⟨m, hm, hp⟩ := Rules.standard_continues_iff.mp hb
  rw [Rules.standard_power_of_ofOperator? hm] at hn
  rw [Rules.standard_power_of_ofOperator? hm, Layer.ofPower_power_of_ofOperator? hm] at hd
  obtain ⟨u, vs, hv, hc⟩ := h.completable
  obtain ⟨rfl, rfl⟩ := List.cons.inj hv
  refine ⟨fun v ts hts ts' => ?_, t, _, rfl, fun l ws' hx _ hl => ?_⟩
  · obtain ⟨us, hy⟩ := h.again v ts hts ts'
    have hbin : Reads .standard ending (some x) power (t :: o :: (ws ++ u :: (vs ++ v :: ts')))
        (.error d) us := .binary hb (hr v ts hts ts') hy
    exact ⟨us, by simpa using hbin⟩
  · have hlong : Derives m (ws' ++ t :: o :: ws ++ [u]) (.binary x o y (x.span.hull y.span)) := by
      simpa using Derives.binary hm (hx.loosen (hl m hm)) hd
    have hlr := (Layer.rank_ofPower_le_iff hm power).mpr hp
    simpa using hc m _ hlong hlr (Layer.ends_of_not_bindsTighter hn)

/-- Where an expression stops behind an operand, it does so from the first token of the operand
on. -/
theorem behind {l : Layer} (hd : Derives l (ws ++ [u]) x)
    (hl : (Layer.ofPower power).rank ≤ l.rank) (he : l.Ends (front ending (vs ++ rest)).kind)
    (hr : ∀ t ts, rest = t :: ts → ∀ ts' us,
      Reads .standard ending (some x) power (u :: (vs ++ t :: ts')) (.error d) us →
        Reads .standard ending none power (ws ++ u :: (vs ++ t :: ts')) (.error d) us)
    (h : Stops ending (some x) power d (u :: vs) rest) :
    Stops ending none power d (ws ++ u :: vs) rest := by
  refine ⟨fun t ts hts ts' => ?_, ?_⟩
  · obtain ⟨us, hx⟩ := h.again t ts hts ts'
    exact ⟨us, by simpa using hr t ts hts ts' us hx⟩
  · obtain ⟨u, vs, hv, hc⟩ := h.completable
    obtain ⟨rfl, rfl⟩ := List.cons.inj hv
    exact hc l ws hd hl he

end Stops

/-- Reading an expression stops somewhere if it fails. -/
theorem Reads.exists_stops (he : ending.kind = .eof) {task : Option Expr}
    (h : Reads .standard ending task power ts (.error d) us) :
    ∃ vs, ts = vs ++ d.fault us ∧ (task.isSome → vs ≠ []) ∧
      Stops ending task power d vs (d.fault us) := by
  generalize ho : (Except.error d : Except Diagnostic Expr) = o at h
  -- The invariant: behind an operand, its last token is still in front of the fault.
  induction h with
  | @noStart power ts hs =>
      cases ho
      refine ⟨[], rfl, nofun, ?_, completes_nil⟩
      rintro t ts rfl ts'
      have hn : Reads .standard ending none power (t :: ts') _ _ := .noStart hs
      exact ⟨_, hn⟩
  | @identifier power t ts us o hs _ ih =>
      obtain ⟨vs, hts, hv, hst⟩ := ih ho
      obtain ⟨u, vs, rfl⟩ := List.exists_cons_of_ne_nil (hv rfl)
      obtain ⟨rfl, rfl⟩ := List.cons.inj hts
      have hd : Derives .atom [t] _ := .identifier (Rules.standard_starting_identifier.mp hs)
      exact ⟨[] ++ t :: vs, rfl, nofun, .behind hd (Layer.rank_le_rank_atom _) (Layer.ends_atom _)
        (fun _ _ _ _ _ hx => .identifier hs hx) hst⟩
  | @integer power t value ts us o hs hi _ ih =>
      obtain ⟨vs, hts, hv, hst⟩ := ih ho
      obtain ⟨u, vs, rfl⟩ := List.exists_cons_of_ne_nil (hv rfl)
      obtain ⟨rfl, rfl⟩ := List.cons.inj hts
      have hd : Derives .atom [t] _ := .integer (Rules.standard_starting_integer.mp hs) hi
      exact ⟨[] ++ t :: vs, rfl, nofun, .behind hd (Layer.rank_le_rank_atom _) (Layer.ends_atom _)
        (fun _ _ _ _ _ hx => .integer hs hi hx) hst⟩
  | @badInteger power t ts hs hi =>
      cases ho
      refine ⟨[], rfl, nofun, ?_, completes_nil⟩
      intro v us hr ts'
      cases hr
      exact ⟨_, .badInteger hs hi⟩
  | @unary power t x ts us vs o hs hx _ _ ihc =>
      obtain ⟨vs, rfl, hv, hst⟩ := ihc ho
      obtain ⟨u, vs, rfl⟩ := List.exists_cons_of_ne_nil (hv rfl)
      obtain ⟨ws, rfl, hd, -, hx⟩ := hx.exists_operand he vs
      have ht := Rules.standard_starting_unary.mp hs
      exact ⟨t :: ws ++ u :: vs, by simp, nofun, .behind (.unary ht hd)
        (Layer.rank_ofPower_le power) (Layer.ends_signed _)
        (fun v ts hr ts' _ hn => .unary hs (hx v ts hr ts') hn) hst⟩
  | unaryFails hs _ ih =>
      obtain ⟨vs, rfl, -, hst⟩ := ih ho
      exact ⟨_ :: vs, rfl, nofun, hst.unary hs⟩
  | @group power t u c x ts us vs o hs hx hk _ _ ihc =>
      obtain ⟨vs, hts, hv, hst⟩ := ihc ho
      obtain ⟨v, vs, rfl⟩ := List.exists_cons_of_ne_nil (hv rfl)
      obtain ⟨rfl, rfl⟩ := List.cons.inj hts
      obtain ⟨ws, rfl, hd, -, hx⟩ := hx.exists_operand he (c :: vs)
      have ht := Rules.standard_starting_grouping.mp hs
      exact ⟨t :: (ws ++ [u]) ++ c :: vs, by simp, nofun, .behind (.group ht hd hk)
        (Layer.rank_le_rank_atom _) (Layer.ends_atom _)
        (fun v ts hr ts' _ hn => by simpa using Reads.group hs (hx v ts hr ts') hk hn) hst⟩
  | @groupOpen power t x ts us hs hx hk _ =>
      cases ho
      obtain ⟨u, us, rfl⟩ := List.exists_cons_of_ne_nil hx.ne_nil
      obtain ⟨ws, rfl, hd, -, hx⟩ := hx.exists_operand he []
      refine ⟨t :: (ws ++ [u]), by simp, nofun, ?_, ?_⟩
      · rintro v ts hr ts'
        obtain rfl : us = v :: ts := hr
        have hg : Reads .standard ending none power (t :: (ws ++ u :: v :: ts')) _ _ :=
          .groupOpen hs (hx v ts rfl ts') hk
        exact ⟨_, by simpa using hg⟩
      · have ht := Rules.standard_starting_grouping.mp hs
        exact Completes.group ht ⟨[], x, nofun, by simpa using hd⟩
  | groupFails hs _ ih =>
      obtain ⟨vs, rfl, -, hst⟩ := ih ho
      exact ⟨_ :: vs, rfl, nofun, hst.group hs⟩
  | finish => cases ho
  | @binary power left x t ts us vs o hb hx _ _ ihc =>
      obtain ⟨vs, rfl, hv, hst⟩ := ihc ho
      obtain ⟨u, vs, rfl⟩ := List.exists_cons_of_ne_nil (hv rfl)
      obtain ⟨o, ts, rfl⟩ := List.exists_cons_of_ne_nil (hb.ne_nil_of_eof he)
      obtain ⟨ws, rfl, hd, hn, hx⟩ := Reads.exists_operand he vs hx
      exact ⟨t :: o :: (ws ++ u :: vs), by simp, nofun, .longer hb hd hn hx hst⟩
  | @binaryFails power left t d ts us hb _ ih =>
      obtain ⟨vs, hts, -, hst⟩ := ih ho
      obtain ⟨o, ts, rfl⟩ := List.exists_cons_of_ne_nil (hb.ne_nil_of_eof he)
      obtain rfl : ts = _ := hts
      exact ⟨t :: o :: vs, rfl, nofun, hst.binary hb⟩

end FrontEnd
