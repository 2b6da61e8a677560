import FrontEnd.Proofs.Adequacy

/-!
The loop that reads a source, one round after the other. Each round reads an item from the tokens
that the window shows and leaves the window at the last token that it takes; the next one starts
behind that token.
-/

namespace FrontEnd

/-- One round of the loop: the window before it, the item that is read, and the window before the
step to the next round. -/
structure Round where
  start : Window
  item : Item
  stop : Window

def Rules.rounds (r : Rules) (values : Values) (depth : Nat) : Nat → Window → List Round
  | 0, _ => []
  | n + 1, w =>
      if w.current.kind = .eof then
        []
      else
        match r.item values depth w with
        | .ok item stop => ⟨w, item, stop⟩ :: r.rounds values depth n stop.advance
        | .error _ _ => []

def rounds (text : String) (name : Option String) (values : Values) : List Round :=
  let p := Parser.ofText text name values
  p.rules.rounds values p.budget p.budget p.window

/-- What a round reads from a list of tokens, and the tokens it leaves from its last one on. -/
inductive ReadsItem (r : Rules) (ending : Token) (values : Values) (ts : List Token) :
    Item → List Token → Prop
  | statement {s : Stmt} {us : List Token} :
      ReadsStatement r ending values ts (.ok s) us →
      ReadsItem r ending values ts (.statement s) us
  | diagnostic {d : Diagnostic} {us : List Token} :
      ReadsStatement r ending values ts (.error d) us →
      ReadsItem r ending values ts (.diagnostic d) (fromSemicolon us)

inductive ReadsRounds (r : Rules) (ending : Token) (values : Values) :
    List Token → List Round → Prop
  | done : ReadsRounds r ending values [] []
  | round {t : Token} {ts us : List Token} {rd : Round} {rds : List Round} :
      rd.start.Shows (t :: ts) ending →
      ReadsItem r ending values (t :: ts) rd.item us →
      rd.stop.Shows us ending →
      ReadsRounds r ending values us.tail rds →
      ReadsRounds r ending values (t :: ts) (rd :: rds)

variable {r : Rules} {ending : Token} {values : Values} {ts us : List Token} {item : Item}
  {w : Window} {depth n : Nat}

theorem Rules.items_of_eof (he : w.current.kind = .eof) :
    r.items values depth (n + 1) w = .ok [] w := by
  rw [items]
  change (if w.current.kind = .eof then pure [] else _ : Parse (List Item)) w = _
  rw [if_pos he]
  rfl

/-- Before the end of the text, a loop reads an item and goes on behind its last token. -/
theorem Rules.items_of_ne_eof (he : w.current.kind ≠ .eof) :
    r.items values depth (n + 1) w =
      match r.item values depth w with
      | .ok item stop =>
          match r.items values depth n stop.advance with
          | .ok rest w' => .ok (item :: rest) w'
          | .error e w' => .error e w'
      | .error e w' => .error e w' := by
  rw [items]
  change (if w.current.kind = .eof then pure [] else _ : Parse (List Item)) w = _
  rw [if_neg he]
  simp only [bind, EStateM.bind, Parse.advance, pure, EStateM.pure]
  cases r.item values depth w with
  | error => rfl
  | ok item stop => cases hr : r.items values depth n stop.advance <;> simp only [hr]

/-- The rounds are those of the loop: what it returns are their items, whatever the rules. -/
theorem Rules.map_item_rounds {items : List Item} {w' : Window}
    (h : r.items values depth n w = .ok items w') :
    (r.rounds values depth n w).map Round.item = items := by
  induction n generalizing w items with
  | zero => cases h
  | succ n ih =>
      rw [rounds]
      split
      · next he =>
          rw [items_of_eof he] at h
          cases h
          rfl
      · next he =>
          rw [items_of_ne_eof he] at h
          cases hi : r.item values depth w with
          | error => simp [hi] at h
          | ok item stop =>
              cases hr : r.items values depth n stop.advance with
              | error => simp [hi, hr] at h
              | ok rest =>
                  simp only [hi, hr] at h
                  cases h
                  rw [List.map_cons, ih hr]

namespace ReadsItem

theorem suffix (h : ReadsItem r ending values ts item us) : us <:+ ts := by
  cases h with
  | statement hs => exact ReadsBy.suffix hs
  | diagnostic hs => exact (fromSemicolon_suffix _).trans (ReadsBy.suffix hs)

theorem tail_suffix (h : ReadsItem r ending values ts item us) : us.tail <:+ ts :=
  (List.tail_suffix us).trans h.suffix

theorem returns (h : ReadsItem r ending values ts item us) (hw : w.Shows ts ending)
    (hd : ts.length < depth) : Returns ending (r.item values depth w) (.ok item) us := by
  cases h with
  | statement hs => exact hs.returns_item hw hd
  | diagnostic hs => exact hs.returns_item_error hw hd

end ReadsItem

theorem exists_readsItem (he : ending.kind = .eof) (hr : r.starting .eof = none)
    (values : Values) (ts : List Token) : ∃ item us, ReadsItem r ending values ts item us := by
  obtain ⟨o, us, h⟩ : ∃ o us, ReadsStatement r ending values ts o us :=
    exists_readsBy he hr values _ ts
  cases o with
  | ok s => exact ⟨_, _, .statement h⟩
  | error d => exact ⟨_, _, .diagnostic h⟩

theorem ReadsRounds.readsItems {rds : List Round} (h : ReadsRounds r ending values ts rds) :
    ReadsItems r ending values ts (rds.map Round.item) := by
  induction h with
  | done => exact .done
  | round _ hi _ _ ih =>
      rw [List.map_cons]
      generalize Round.item _ = item at hi
      cases hi with
      | statement hs => exact .statement hs ih
      | diagnostic hs => exact .diagnostic hs ih

theorem Rules.items_of_shows_nil (hw : w.Shows [] ending) :
    r.items values depth (n + 1) w = .ok [] w :=
  items_of_eof (hw.current_kind_eof_iff.mpr rfl)

theorem Rules.rounds_of_shows_nil (hw : w.Shows [] ending) :
    r.rounds values depth (n + 1) w = [] := by
  rw [rounds, if_pos (hw.current_kind_eof_iff.mpr rfl)]

/-- A loop reads all the tokens that its window shows. -/
theorem Rules.readsRounds (he : ending.kind = .eof) (hr : r.starting .eof = none)
    (hw : w.Shows ts ending) (hd : ts.length < depth) (hn : ts.length ≤ n) :
    ReadsRounds r ending values ts (r.rounds values depth (n + 1) w) := by
  induction n generalizing w ts with
  | zero =>
      obtain rfl : ts = [] := List.eq_nil_of_length_eq_zero (Nat.le_zero.mp hn)
      rw [rounds_of_shows_nil hw]
      exact .done
  | succ n ih =>
      cases ts with
      | nil =>
          rw [rounds_of_shows_nil hw]
          exact .done
      | cons t ts =>
          obtain ⟨item, us, hi⟩ := exists_readsItem he hr values (t :: ts)
          have hl := length_tail_lt hi.suffix
          have hret := hi.returns hw hd
          have hc : w.current.kind ≠ .eof := by
            rw [hw.current]
            exact hw.proper t (List.mem_cons_self ..)
          rw [rounds, if_neg hc]
          generalize r.item values depth w = result at hret
          cases hret with
          | ok hstop => exact .round hw hi hstop (ih hstop.advance (by omega) (by omega))

theorem readsRounds (text : String) (name : Option String) (values : Values) :
    ReadsRounds .standard (sourceEnd text name) values (sourceTokens text name)
      (rounds text name values) := by
  have hy := yields_source text name
  have hw : (Parser.ofText text name values).window.Shows _ _ := Window.shows_ofLexer hy
  exact Rules.readsRounds hy.ends rfl hw (Parser.length_lt_budget hw) hw.length_le_size

/-- The statements and diagnostics of a text are those of its rounds. -/
theorem parse_eq_rounds (text : String) (name : Option String) (values : Values) :
    (parse text name values).1.statements =
        ((rounds text name values).map Round.item).filterMap Item.statement? ∧
      (parse text name values).2.diagnostics =
        ((rounds text name values).map Round.item).filterMap Item.diagnostic? :=
  parse_of_readsItems (yields_source text name) (readsRounds text name values).readsItems

end FrontEnd
