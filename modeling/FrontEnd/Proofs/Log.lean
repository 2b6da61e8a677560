import FrontEnd.Proofs.Blame
import FrontEnd.Proofs.Blocks

/-!
The log of a parser. Tokens are lexed one by one, each of them when the window first shows it, and
nothing else is recorded while a statement is read. So the log holds every token of its source and
every item that it is read as, and an item comes behind the token after the current one.
-/

namespace FrontEnd

def Item.record : Item → Record
  | .statement s => .parsed s
  | .diagnostic d => .failed d

def Cause.ahead : Cause → Nat
  | .expectedToken _ _ => 1
  | .noStart _ | .badInteger _ => 0

/-- The index of the token that is current when the item of a block is recorded. For a statement
this is its last one, or the end of the text if its value runs out; for a diagnostic it is the token
that is to blame, or the one in front of it if another kind was expected there. -/
inductive Block.RecordedAt (text : String) (name : Option String) (values : Values) (b : Block) :
    Item → Nat → Prop
  | statement {s : Stmt} :
      ¬ b.RunsOut text name values s → RecordedAt text name values b (.statement s) (b.next - 1)
  | runsOut {s : Stmt} :
      b.RunsOut text name values s →
      RecordedAt text name values b (.statement s) (sourceTokens text name).length
  | diagnostic {d : Diagnostic} {i : Nat} :
      b.fault = some (i + d.cause.ahead) → d.Concerns text name (i + d.cause.ahead) →
      RecordedAt text name values b (.diagnostic d) i

/-- A round, the tokens that it takes, and where it records its item. -/
structure Entry (text : String) (name : Option String) (values : Values) where
  round : Round
  block : Block
  index : Nat
  takes : round.Takes text name values block
  recorded : block.RecordedAt text name values round.item index

namespace Record

def token? : Record → Option Token
  | .lexed t => some t
  | .parsed _ | .failed _ | .started _ => none

/-- The tokens in a log that has the latest record first, the earliest first. -/
def lexedTokens (log : List Record) : List Token :=
  (log.filterMap token?).reverse

/-- What a log that has the latest record first tells about items, and how many tokens it has had
before. -/
def marks : List Record → List (Nat × Record)
  | [] => []
  | r :: log =>
      if r.level = .debug then (log.countP (·.level = .trace), r) :: marks log else marks log

theorem filter_trace (log : List Record) :
    log.filter (·.level = .trace) = (log.filterMap token?).map Record.lexed := by
  induction log with
  | nil => rfl
  | cons r log ih =>
      cases r with
      | lexed t => exact congrArg (Record.lexed t :: ·) ih
      | parsed | failed | started => exact ih

theorem countP_trace (log : List Record) :
    log.countP (·.level = .trace) = (lexedTokens log).length := by
  rw [List.countP_eq_length_filter, filter_trace, lexedTokens, List.length_map, List.length_reverse]

theorem map_snd_marks (log : List Record) :
    (marks log).map Prod.snd = log.filter (·.level = .debug) := by
  induction log with
  | nil => rfl
  | cons r log ih =>
      rw [marks, List.filter_cons]
      by_cases hr : r.level = .debug <;> simp [hr, ih]

theorem length_marks (log : List Record) :
    (marks log).length = log.countP (·.level = .debug) := by
  rw [List.countP_eq_length_filter, ← map_snd_marks, List.length_map]

theorem marks_suffix (newer log : List Record) : marks log <:+ marks (newer ++ log) := by
  induction newer with
  | nil => exact List.suffix_rfl
  | cons r newer ih =>
      rw [List.cons_append, marks]
      split
      · exact ih.trans (List.suffix_cons _ _)
      · exact ih

/-- The marks of a log stand in its order, each with the tokens that are recorded before it. -/
theorem getElem?_reverse_marks {log before after : List Record} {r : Record}
    (h : log.reverse = before ++ r :: after) (hr : r.level = .debug) :
    (marks log).reverse[before.countP (·.level = .debug)]? =
      some (before.countP (·.level = .trace), r) := by
  have hlog : log = after.reverse ++ r :: before.reverse := by
    rw [← List.reverse_reverse log, h, List.reverse_append, List.reverse_cons, List.append_assoc]
    rfl
  have hl : before.countP (·.level = .debug) = (marks before.reverse).reverse.length := by
    rw [List.length_reverse, length_marks, List.countP_reverse]
  obtain ⟨newer, hm⟩ := marks_suffix after.reverse (r :: before.reverse)
  rw [marks, if_pos hr, List.countP_reverse] at hm
  rw [hlog, ← hm, List.reverse_append, List.reverse_cons, List.append_assoc, hl,
    List.getElem?_append_right (Nat.le_refl _), Nat.sub_self]
  rfl

theorem lexedTokens_append (ts : List Token) (log : List Record) :
    lexedTokens ((ts.map Record.lexed).reverse ++ log) = lexedTokens log ++ ts := by
  have ht : (ts.map Record.lexed).filterMap token? = ts := by
    rw [List.filterMap_map]
    exact List.filterMap_some
  rw [lexedTokens, List.filterMap_append, List.filterMap_reverse, ht, List.reverse_append,
    List.reverse_reverse]
  rfl

theorem marks_append (ts : List Token) (log : List Record) :
    marks ((ts.map Record.lexed).reverse ++ log) = marks log := by
  induction ts generalizing log with
  | nil => rfl
  | cons t ts ih =>
      rw [List.map_cons, List.reverse_cons, List.append_assoc, ih]
      rfl

end Record

section

variable {ending : Token} {ts us tokens : List Token} {ms : List (Nat × Record)} {w : Window}

structure Window.Traces (w : Window) (tokens : List Token) (ending : Token)
    (ms : List (Nat × Record)) (ts : List Token) : Prop where
  shows : w.Shows ts ending
  lexed : Record.lexedTokens w.log ++ ts.tail.tail = tokens
  marks : Record.marks w.log = ms

/-- The end of a text goes unrecorded. -/
theorem Record.ofToken_front (he : ending.kind = .eof) (hp : ∀ t ∈ ts, t.kind ≠ .eof) :
    ofToken (front ending ts) = ((ts.take 1).map Record.lexed).reverse := by
  cases ts with
  | nil => exact if_pos he
  | cons t ts => exact if_neg (hp t (List.mem_cons_self ..))

namespace Window.Traces

theorem ofLexer {l : Lexer} (h : l.Yields ts ending) : (ofLexer l).Traces ts ending [] ts := by
  have hl : (Window.ofLexer l).log = ((ts.tail.take 1).map Record.lexed).reverse ++
      (((ts.take 1).map Record.lexed).reverse ++ []) := by
    rw [← Record.ofToken_front h.ends h.proper,
      ← Record.ofToken_front h.ends h.next_snd.proper, ← h.next_fst, ← h.next_snd.next_fst,
      List.append_nil]
    rfl
  refine ⟨shows_ofLexer h, ?_, ?_⟩
  · rw [hl, Record.lexedTokens_append, Record.lexedTokens_append]
    cases ts with
    | nil => rfl
    | cons t ts => cases ts <;> rfl
  · rw [hl, Record.marks_append, Record.marks_append]
    rfl

theorem advance (h : w.Traces tokens ending ms ts) : w.advance.Traces tokens ending ms ts.tail := by
  have hy := h.shows.later
  have hl : w.advance.log = ((ts.tail.tail.take 1).map Record.lexed).reverse ++ w.log := by
    rw [← Record.ofToken_front hy.ends hy.proper, ← hy.next_fst]
    rfl
  refine ⟨h.shows.advance, ?_, ?_⟩
  · rw [hl, Record.lexedTokens_append, List.append_assoc, ← List.drop_one (l := ts.tail.tail),
      List.take_append_drop]
    exact h.lexed
  · rw [hl, Record.marks_append]
    exact h.marks

theorem record (h : w.Traces tokens ending ms ts) {r : Record} (hr : r.level = .debug) :
    (w.record r).Traces tokens ending ((tokens.length - ts.tail.tail.length, r) :: ms) ts := by
  have hl : (w.record r).log = r :: w.log := rfl
  refine ⟨h.shows.record r, ?_, ?_⟩
  · rw [← h.lexed, hl, Record.lexedTokens, List.filterMap_cons]
    cases r with
    | lexed => cases hr
    | parsed | failed | started => rfl
  · rw [hl, Record.marks, if_pos hr, h.marks, Record.countP_trace, ← h.lexed, List.length_append,
      Nat.add_sub_cancel]

theorem skipToSemicolon (h : w.Traces tokens ending ms ts) :
    w.skipToSemicolon.Traces tokens ending ms (fromSemicolon ts) := by
  have hk := Keeps.skipToSemicolon (P := fun w => ∃ us, w.Traces tokens ending ms us)
    (fun w ⟨us, h⟩ => ⟨us.tail, h.advance⟩) w ⟨ts, h⟩
  obtain ⟨us, hu⟩ := hk
  rwa [hu.shows.unique h.shows.skipToSemicolon] at hu

end Window.Traces

/-- Reading a statement records nothing but tokens, and the window that it leaves shows which. -/
theorem ReadsStatement.traces {r : Rules} {values : Values} {depth : Nat}
    {o : Except Diagnostic Stmt} (h : ReadsStatement r ending values ts o us)
    (hw : w.Traces tokens ending ms ts) (hd : ts.length < depth) :
    ∃ w', w'.Traces tokens ending ms us ∧ r.readStatement values depth w = match o with
      | .ok s => .ok s w'
      | .error d => .error (.diagnostic d) w' := by
  -- That some tokens are left is all that advancing keeps; which ones, the relation tells.
  have hk := Keeps.readStatement (P := fun w => ∃ us, w.Traces tokens ending ms us)
    (fun w ⟨us, h⟩ => ⟨us.tail, h.advance⟩) r values depth w ⟨ts, hw⟩
  have hr := h.returns hw.shows hd
  generalize r.readStatement values depth w = result at hk hr
  cases hr with
  | ok hu | error hu =>
      obtain ⟨us', hu'⟩ := hk
      rw [hu'.shows.unique hu] at hu'
      exact ⟨_, hu', rfl⟩

/-- A diagnostic is about the token that it points at. -/
theorem Diagnostic.Blames.fits {r : Rules} {d : Diagnostic} (h : d.Blames r w)
    (hw : w.Shows us ending) :
    d.position = (front ending (d.fault us)).span.start ∧
      d.cause.Fits (front ending (d.fault us)) := by
  cases h with
  | expectedToken hk =>
      rw [fault_expectedToken, ← hw.upcoming]
      exact ⟨rfl, rfl, hk⟩
  | noStart | badInteger =>
      simp only [fault]
      rw [← hw.current]
      exact ⟨rfl, rfl⟩

end

section

variable {text : String} {name : Option String} {values : Values} {ts us : List Token}

def Entry.mark (e : Entry text name values) : Nat × Record :=
  (min (sourceTokens text name).length (e.index + 2), e.round.item.record)

theorem lexed_eq (h : us <:+ sourceTokens text name) :
    (sourceTokens text name).length - us.tail.tail.length =
      min (sourceTokens text name).length (place text name us + 2) := by
  have hle := h.length_le
  simp only [place, List.length_tail]
  omega

theorem ReadsStatement.recordedAt {s : Stmt}
    (h : ReadsStatement .standard (sourceEnd text name) values ts (.ok s) us)
    (hts : ts <:+ sourceTokens text name) (hn : ts ≠ []) :
    Block.RecordedAt text name values ⟨place text name ts, place text name us.tail, none⟩
      (.statement s) (place text name us) := by
  cases us with
  | nil => exact .runsOut (h.runsOut hts hn rfl)
  | cons u us =>
      rw [← place_pred u us]
      exact .statement (h.not_runsOut hts rfl)

/-- Where the token that is to blame is ahead, there is one in front of it. -/
theorem Diagnostic.exists_index (d : Diagnostic) (h : us <:+ sourceTokens text name)
    (hn : sourceTokens text name ≠ []) :
    ∃ i, i + d.cause.ahead = place text name (d.fault us) ∧
      (sourceTokens text name).length - us.tail.tail.length =
        min (sourceTokens text name).length (i + 2) := by
  have hle := h.length_le
  have hpos := List.length_pos_iff.mpr hn
  unfold fault
  cases d.cause with
  | expectedToken expected got =>
      refine ⟨place text name us.tail - 1, ?_, ?_⟩ <;>
        simp only [Cause.ahead, place, List.length_tail] <;> omega
  | noStart | badInteger => exact ⟨place text name us, rfl, lexed_eq h⟩

theorem Diagnostic.Blames.concerns {r : Rules} {w : Window} {d : Diagnostic} (h : d.Blames r w)
    (hw : w.Shows us (sourceEnd text name)) (hus : us <:+ sourceTokens text name) :
    d.Concerns text name (place text name (d.fault us)) := by
  have ht := tokenAt_place ((d.fault_suffix us).trans hus)
  obtain ⟨hp, hc⟩ := h.fits hw
  rw [← ht] at hp hc
  exact ⟨hp, hc⟩

/-- What a round records, it records where its entry says. -/
theorem ReadsItem.exists_entry {t : Token} {item : Item} {ms : List (Nat × Record)} {w : Window}
    {depth : Nat} (h : ReadsItem .standard (sourceEnd text name) values (t :: ts) item us)
    (hts : t :: ts <:+ sourceTokens text name)
    (hw : w.Traces (sourceTokens text name) (sourceEnd text name) ms (t :: ts))
    (hd : (t :: ts).length < depth) :
    ∃ e : Entry text name values, e.round.start = w ∧ e.round.item = item ∧
      Rules.standard.item values depth w = .ok item e.round.stop ∧
      e.block.first = place text name (t :: ts) ∧ e.block.next = place text name us.tail ∧
      e.round.stop.Traces (sourceTokens text name) (sourceEnd text name) (e.mark :: ms) us := by
  have hi := h
  have hn : t :: ts ≠ [] := List.cons_ne_nil t ts
  cases h with
  | @statement s us hs =>
      obtain ⟨w', hw', hr⟩ := hs.traces hw hd
      have hstop := hw'.record (r := .parsed s) rfl
      rw [lexed_eq ((ReadsBy.suffix hs).trans hts)] at hstop
      have ht : Round.Takes text name values ⟨w, .statement s, w'.record (.parsed s)⟩ _ :=
        hi.takes hts hw.shows hstop.shows (hs.parsed hts hn)
      refine ⟨⟨_, _, _, ht, hs.recordedAt hts hn⟩, rfl, rfl, ?_, rfl, rfl, hstop⟩
      rw [Rules.item, hr]
  | @diagnostic d us hs =>
      obtain ⟨w', hw', hr⟩ := hs.traces hw hd
      have hb := Accounts.readStatement .standard values depth w
      rw [hr] at hb
      have hus := (ReadsBy.suffix hs).trans hts
      have hc : d.Concerns text name _ := Diagnostic.Blames.concerns hb hw'.shows hus
      have hnil : sourceTokens text name ≠ [] := fun hnil => hn (List.suffix_nil.mp (hnil ▸ hts))
      obtain ⟨i, hi', hl⟩ := d.exists_index hus hnil
      rw [← hi'] at hc
      have hstop := (hw'.record (r := .failed d) rfl).skipToSemicolon
      rw [hl] at hstop
      have ht : Round.Takes text name values
          ⟨w, .diagnostic d, (w'.record (.failed d)).skipToSemicolon⟩ _ :=
        hi.takes hts hw.shows hstop.shows (hs.broken hts)
      refine ⟨⟨_, _, i, ht, .diagnostic (congrArg some hi'.symm) hc⟩, rfl, rfl, ?_, rfl, rfl, hstop⟩
      rw [Rules.item, hr]

variable (values) in
/-- The rounds of a loop have entries, and the log is marked by these alone. -/
theorem Rules.exists_entries {ms : List (Nat × Record)} {w : Window} {depth n : Nat}
    (hw : w.Traces (sourceTokens text name) (sourceEnd text name) ms ts)
    (hts : ts <:+ sourceTokens text name) (hd : ts.length < depth) (hn : ts.length ≤ n) :
    ∃ (es : List (Entry text name values)) (w' : Window),
      standard.items values depth (n + 1) w = .ok (es.map (·.round.item)) w' ∧
        standard.rounds values depth (n + 1) w = es.map Entry.round ∧
        w'.Traces (sourceTokens text name) (sourceEnd text name)
          ((es.map Entry.mark).reverse ++ ms) [] ∧
        Consecutive (place text name ts) (es.map Entry.block) (sourceTokens text name).length := by
  induction n generalizing w ts ms with
  | zero =>
      obtain rfl : ts = [] := List.eq_nil_of_length_eq_zero (Nat.le_zero.mp hn)
      exact ⟨[], w, items_of_shows_nil hw.shows, rounds_of_shows_nil hw.shows, hw, rfl⟩
  | succ n ih =>
      cases ts with
      | nil => exact ⟨[], w, items_of_shows_nil hw.shows, rounds_of_shows_nil hw.shows, hw, rfl⟩
      | cons t ts =>
          obtain ⟨item, us, hi⟩ := exists_readsItem (yields_source text name).ends
            (r := .standard) rfl values (t :: ts)
          obtain ⟨e, rfl, rfl, he, hfirst, hnext, hstop⟩ := hi.exists_entry hts hw hd
          have hl := length_tail_lt hi.suffix
          have hc : e.round.start.current.kind ≠ .eof := by
            rw [hw.shows.current]
            exact hw.shows.proper t (List.mem_cons_self ..)
          obtain ⟨es, w', hr, hrs, hw', hes⟩ :=
            ih hstop.advance (hi.tail_suffix.trans hts) (by omega) (by omega)
          refine ⟨e :: es, w', ?_, ?_, ?_, hfirst, ?_, hnext ▸ hes⟩
          · simp only [items_of_ne_eof hc, he, hr]
            rfl
          · rw [rounds, if_neg hc, he, List.map_cons]
            exact congrArg (_ :: ·) hrs
          · rw [List.map_cons, List.reverse_cons, List.append_assoc]
            exact hw'
          · rw [hnext]
            exact place_lt_place hl hts

end

/-- The parser that has read a text stands where the loop stops. -/
theorem parse_window {text : String} {name : Option String} {values : Values} {items : List Item}
    {w : Window} {p : Parser} (hp : p = .ofText text name values)
    (h : p.rules.items p.values p.budget p.budget p.window = .ok items w) :
    (parse text name values).2.window = w := by
  rw [parse, ← hp, Parser.program, Parser.run, h]

/-- The parser that has read a text has logged all its tokens, and an entry for each round. -/
theorem parse_traces (text : String) (name : Option String) (values : Values) :
    ∃ es : List (Entry text name values),
      es.map Entry.round = rounds text name values ∧
        (parse text name values).2.window.Traces (sourceTokens text name) (sourceEnd text name)
          (es.map Entry.mark).reverse [] ∧
        Consecutive 0 (es.map Entry.block) (sourceTokens text name).length := by
  have hw : (Parser.ofText text name values).window.Traces _ _ [] _ :=
    .ofLexer (yields_source text name)
  obtain ⟨es, w, hr, hrs, ht, hc⟩ := Rules.exists_entries values hw List.suffix_rfl
    (Parser.length_lt_budget hw.shows) hw.shows.length_le_size
  rw [List.append_nil] at ht
  rw [place, Nat.sub_self] at hc
  rw [← parse_window rfl hr] at ht
  exact ⟨es, hrs.symm, ht, hc⟩

/-- How the log goes with the reading of a text. It has each token of the text once and one record
for each item, both in their order. When an item is recorded, the tokens up to the one behind the
current one have been lexed, and no more. -/
theorem parse_log (text : String) (name : Option String) (values : Values) :
    let tokens := sourceTokens text name
    let items := (rounds text name values).map Round.item
    let program := (parse text name values).1
    let parser := (parse text name values).2
    (parser.log.filter (·.level = .trace)).map Record.message = tokens.map ("lexed " ++ ·.text) ∧
      parser.log.filter (·.level = .debug) = items.map Item.record ∧
      program.statements = items.filterMap Item.statement? ∧
      parser.diagnostics = items.filterMap Item.diagnostic? ∧
      ∃ es : List (Entry text name values),
        es.map Entry.round = rounds text name values ∧
          Consecutive 0 (es.map Entry.block) tokens.length ∧
          ∀ before r after, parser.log = before ++ r :: after → r.level = .debug →
            ∃ e, es[before.countP (·.level = .debug)]? = some e ∧ r = e.round.item.record ∧
              before.countP (·.level = .trace) = min tokens.length (e.index + 2) := by
  intro tokens items program parser
  obtain ⟨es, hes, hw, hc⟩ := parse_traces text name values
  obtain ⟨hs, hd⟩ := parse_eq_rounds text name values
  have hlexed : Record.lexedTokens parser.window.log = tokens :=
    (List.append_nil _).symm.trans hw.lexed
  refine ⟨?_, ?_, hs, hd, es, hes, hc, ?_⟩
  · rw [Parser.log, List.filter_reverse, Record.filter_trace, ← List.map_reverse, ← hlexed,
      List.map_map]
    rfl
  · rw [Parser.log, List.filter_reverse, ← Record.map_snd_marks, hw.marks, List.map_reverse,
      List.reverse_reverse, List.map_map]
    simp only [items, ← hes, List.map_map]
    rfl
  · intro before r after hlog hr
    have he := Record.getElem?_reverse_marks hlog hr
    rw [hw.marks, List.reverse_reverse, List.getElem?_map] at he
    obtain ⟨e, hget, hmark⟩ := Option.map_eq_some_iff.mp he
    obtain ⟨hn, hr⟩ := Prod.ext_iff.mp hmark
    exact ⟨e, hget, hr.symm, hn.symm⟩

example : (parse "let 7; b" none .parsed).2.log.map Record.level =
    [.trace, .trace, .debug, .trace, .trace, .debug] := by
  cbv

end FrontEnd
