import FrontEnd.Proofs.Invariant
import FrontEnd.Proofs.Tiling

/-!
What a parser goes through when it is used. Its window stands at the tokens of its source from some
index on, and no action takes it back; its lexer stands where the upcoming token ends. An action
leaves everything else alone that it is not about. Nothing that happened before bears on how a
program is read: reading goes on at an index as it begins on the text from there on.
-/

namespace FrontEnd

/-- The place of the token at an index. The token that ends a text stands behind all its bytes. -/
def placeAt (text : String) (places : List (Nat × Nat)) (i : Nat) : Nat × Nat :=
  let stop := Text.byteLength text.toList
  places.getD i (stop, stop)

/-- The window shows the tokens at an index and behind it, and its lexer stands at the end of these,
in front of the text that is left there. -/
structure Window.StandsAt (w : Window) (text : String) (name : Option String)
    (places : List (Nat × Nat)) (i : Nat) : Prop where
  current : w.current = tokenAt text name i
  upcoming : w.upcoming = tokenAt text name (i + 1)
  source : w.lexer.source = name.getD shellName
  pos : w.lexer.pos = (placeAt text places (i + 1)).2
  rest : Text.dropBytes? w.lexer.pos text.toList = some w.lexer.rest

def Action.SetsRule : Action → Prop
  | .setStarting .. | .setContinuing .. | .setStatement .. => True
  | _ => False

/-- What an action leaves alone: what becomes of values, the rules unless it sets one, and the
diagnostics unless it reads a program, which adds to them. -/
structure Action.Frame (a : Action) (before after : Parser) : Prop where
  values : after.values = before.values
  rules : ¬ a.SetsRule → after.rules = before.rules
  diagnostics : a ≠ .program → after.diagnostics = before.diagnostics
  earlier : before.diagnostics <+: after.diagnostics

namespace Parser

def history (p : Parser) : List Action → List Parser
  | [] => [p]
  | a :: actions => p :: (p.perform a).2.history actions

/-- From here a program is read as from a fresh parser on the text from an offset on, but for the
positions and the diagnostics that are there already. -/
def Resumes (p : Parser) (text : String) (name : Option String) (values : Values)
    (start : Nat) : Prop :=
  ∃ rest, Text.dropBytes? start text.toList = some rest ∧
    let fresh := parse (String.ofList rest) name values
    let resumed := p.perform .program
    resumed.1 = .ok (.program ⟨fresh.1.statements.map (Stmt.relocate (.shift start))⟩) ∧
      resumed.2.diagnostics =
        p.diagnostics ++ fresh.2.diagnostics.map (Diagnostic.relocate (.shift start))

end Parser

namespace Lexer

def after (l : Lexer) : Nat → Lexer
  | 0 => l
  | n + 1 => (l.after n).next.2

variable {l : Lexer} {cs : List Char} {ts : List Token} {ending : Token}

theorem after_next (l : Lexer) (n : Nat) : l.next.2.after n = l.after (n + 1) := by
  induction n with
  | zero => rfl
  | succ n ih => exact congrArg (·.next.2) ih

theorem after_source (l : Lexer) (n : Nat) : (l.after n).source = l.source := by
  induction n with
  | zero => rfl
  | succ n ih => exact (next_source _).trans ih

theorem StandsIn.after (h : l.StandsIn cs) (n : Nat) : (l.after n).StandsIn cs := by
  induction n with
  | zero => exact h
  | succ n ih => exact ih.next

theorem StandsIn.dropBytes? (h : l.StandsIn cs) : Text.dropBytes? l.pos cs = some l.rest := by
  obtain ⟨before, rfl, hp⟩ := h
  rw [hp, Text.dropBytes?_byteLength]

theorem Yields.after (h : l.Yields ts ending) (n : Nat) :
    (l.after n).Yields (ts.drop n) ending := by
  induction n with
  | zero => exact h
  | succ n ih =>
      rw [← List.tail_drop]
      exact ih.next_snd

/-- Behind the end of a text there is nothing but its end. -/
theorem next_after_of_eof (h : l.next.1.kind = .eof) (n : Nat) : (l.after n).next = l.next := by
  induction n with
  | zero => rfl
  | succ n ih => rw [Lexer.after, ih, next_next_of_eof h]

theorem StandsIn.pos_of_eof (h : l.StandsIn cs) (hk : l.next.1.kind = .eof) :
    l.skipBlanks.pos = Text.byteLength cs ∧ l.next.2.pos = Text.byteLength cs := by
  have hr := skipBlanks_rest_nil_of_eof hk
  have hp := h.skipBlanks.pos_of_rest_nil hr
  rw [next_of_rest_nil hr]
  exact ⟨hp, hp⟩

theorem StandsIn.getD_places_of_eof (h : l.StandsIn cs) (hk : l.next.1.kind = .eof) (n : Nat) :
    l.places.getD n (Text.byteLength cs, Text.byteLength cs) =
      ((l.after n).skipBlanks.pos, (l.after (n + 1)).pos) := by
  obtain ⟨hp, hp'⟩ := (h.after n).pos_of_eof (next_after_of_eof hk n ▸ hk)
  rw [places_of_eof hk, Lexer.after, hp, hp']
  rfl

/-- A token lies between where the lexer has skipped the blanks in front of it and where it ends. -/
theorem StandsIn.getD_places (h : l.StandsIn cs) (n : Nat) :
    l.places.getD n (Text.byteLength cs, Text.byteLength cs) =
      ((l.after n).skipBlanks.pos, (l.after (n + 1)).pos) := by
  induction n generalizing l with
  | zero =>
      by_cases hk : l.next.1.kind = .eof
      · exact h.getD_places_of_eof hk 0
      · rw [places_of_ne_eof hk]
        rfl
  | succ n ih =>
      by_cases hk : l.next.1.kind = .eof
      · exact h.getD_places_of_eof hk (n + 1)
      · rw [places_of_ne_eof hk, List.getD_cons_succ, ih h.next, after_next, after_next]

theorem skipBlanks_of_rest_cons {c : Char} {rest : List Char} (hr : l.rest = c :: rest)
    (hb : isBlank c = false) : l.skipBlanks = l := by
  cases l
  cases hr
  simp [skipBlanks, hb]

theorem skipBlanks_skipBlanks (l : Lexer) : l.skipBlanks.skipBlanks = l.skipBlanks := by
  cases hr : l.skipBlanks.rest with
  | nil => exact skipBlanks_of_rest_nil hr
  | cons c rest => exact skipBlanks_of_rest_cons hr (isBlank_eq_false_of_skipBlanks hr)

/-- A lexer can be started afresh on the text from its next token on. It yields the same tokens, but
for their positions. -/
theorem exists_yields_fresh {name : Option String} (hs : l.source = name.getD shellName) :
    ∃ us e, (ofText (String.ofList l.skipBlanks.rest) name).Yields us e ∧
      l.Yields (us.map (Token.relocate (.shift l.skipBlanks.pos)))
        (e.relocate (.shift l.skipBlanks.pos)) := by
  obtain ⟨us, e, hu⟩ := (ofText (String.ofList l.skipBlanks.rest) name).exists_yields
  have hl : (ofText (String.ofList l.skipBlanks.rest) name).shift l.skipBlanks.pos =
      l.skipBlanks := by
    simp only [ofText, shift, String.toList_ofList, ← hs, Nat.zero_add]
    rfl
  have hy := hu.shift l.skipBlanks.pos
  rw [hl] at hy
  exact ⟨us, e, hu, hy.congr (next_congr l.skipBlanks_skipBlanks.symm)⟩

end Lexer

namespace Window

structure Follows (w : Window) (l : Lexer) (i : Nat) : Prop where
  current : w.current = (l.after i).next.1
  upcoming : w.upcoming = (l.after (i + 1)).next.1
  lexer : w.lexer = l.after (i + 2)

namespace Follows

variable {w : Window} {l : Lexer} {i : Nat}

theorem ofLexer (l : Lexer) : (Window.ofLexer l).Follows l 0 :=
  ⟨rfl, rfl, rfl⟩

theorem advance (h : w.Follows l i) : w.advance.Follows l (i + 1) :=
  ⟨h.upcoming, congrArg (·.next.1) h.lexer, congrArg (·.next.2) h.lexer⟩

theorem record (h : w.Follows l i) (r : Record) : (w.record r).Follows l i :=
  ⟨h.current, h.upcoming, h.lexer⟩

theorem shows {ts : List Token} {ending : Token} (h : w.Follows l i)
    (hy : (l.after i).Yields ts ending) : w.Shows ts ending :=
  ⟨h.current.trans hy.next_fst, h.upcoming.trans hy.next_snd.next_fst,
    h.lexer ▸ hy.next_snd.next_snd, hy.proper⟩

/-- No step takes a window back. -/
theorem stable (l : Lexer) (i : Nat) : Stable fun w => ∃ j, i ≤ j ∧ w.Follows l j := by
  constructor
  · rintro w ⟨j, hj, h⟩
    exact ⟨j + 1, Nat.le_succ_of_le hj, h.advance⟩
  · rintro w r ⟨j, hj, h⟩
    exact ⟨j, hj, h.record r⟩

theorem standsAt {text : String} {name : Option String} (h : w.Follows (.ofText text name) i) :
    w.StandsAt text name (Lexer.ofText text name).places i := by
  have hy := yields_source text name
  have hl := Lexer.standsIn_ofText text name
  refine ⟨?_, ?_, ?_, ?_, ?_⟩
  · exact h.current.trans (hy.after i).next_fst
  · exact h.upcoming.trans (hy.after (i + 1)).next_fst
  · rw [h.lexer]
    exact Lexer.after_source _ _
  · rw [h.lexer, placeAt, hl.getD_places]
  · rw [h.lexer]
    exact (hl.after (i + 2)).dropBytes?

theorem toAt {text : String} {name : Option String} (h : w.Follows (.ofText text name) i) :
    w.At text name i :=
  h.shows ((yields_source text name).after i)

end Follows

end Window

namespace Parser

theorem exists_run {α : Type} (p : Parser) (x : Parse α) :
    ∃ w, (p.run x).2 = { p with window := w } := by
  rw [run]
  cases x p.window with
  | ok _ w | error _ w => exact ⟨w, rfl⟩

theorem program_frame (p : Parser) : Action.program.Frame p p.program.2 := by
  obtain ⟨w, hw⟩ := p.exists_run (p.rules.items p.values p.budget p.budget)
  rw [program]
  split
  · next hr =>
      rw [hr] at hw
      subst hw
      exact ⟨rfl, fun _ => rfl, fun h => absurd rfl h, List.prefix_append _ _⟩
  · next hr =>
      rw [hr] at hw
      subst hw
      exact ⟨rfl, fun _ => rfl, fun _ => rfl, List.prefix_rfl⟩

theorem run_frame {α : Type} (p : Parser) (x : Parse α) (a : Action) : a.Frame p (p.run x).2 := by
  obtain ⟨w, hw⟩ := p.exists_run x
  rw [hw]
  exact ⟨rfl, fun _ => rfl, fun _ => rfl, List.prefix_rfl⟩

theorem perform_frame (p : Parser) (a : Action) : a.Frame p (p.perform a).2 := by
  cases a with
  | program => exact p.program_frame
  | setStarting | setContinuing | setStatement =>
      exact ⟨rfl, fun h => absurd trivial h, fun _ => rfl, List.prefix_rfl⟩
  | _ => exact p.run_frame _ _

/-- A program is read from the tokens that are left, and these are the tokens of the text that is
left. -/
theorem resumes {p : Parser} {text : String} {name : Option String} {i : Nat}
    (h : p.window.Follows (.ofText text name) i) (hr : p.rules = .standard) :
    p.Resumes text name p.values (placeAt text (Lexer.ofText text name).places i).1 := by
  have hl := Lexer.standsIn_ofText text name
  have hs := Lexer.after_source (.ofText text name) i
  obtain ⟨us, e, hu, hy⟩ := Lexer.exists_yields_fresh hs
  obtain ⟨items, hi⟩ := exists_readsItems (r := .standard) hu.ends rfl p.values us
  obtain ⟨w, -, hp⟩ := program_of_readsItems (h.shows hy) (hr ▸ hi.relocate (.shift _))
  obtain ⟨hstmts, hdiags⟩ := parse_of_readsItems hu hi
  rw [filterMap_statement?_relocate, filterMap_diagnostic?_relocate, ← hstmts, ← hdiags] at hp
  rw [placeAt, hl.getD_places]
  refine ⟨_, (hl.after i).skipBlanks.dropBytes?, ?_⟩
  rw [perform, hp]
  exact ⟨rfl, rfl⟩

variable {p : Parser} {l : Lexer} {i : Nat}

/-- What every action keeps, the whole history has. -/
theorem forall_mem_history {P : Parser → Prop} {actions : List Action} (hp : P p)
    (ha : ∀ a ∈ actions, ∀ q : Parser, P q → P (q.perform a).2) : ∀ q ∈ p.history actions, P q := by
  induction actions generalizing p with
  | nil => exact List.forall_mem_singleton.mpr hp
  | cons a actions ih =>
      obtain ⟨ha, hrest⟩ := List.forall_mem_cons.mp ha
      exact List.forall_mem_cons.mpr ⟨hp, ih (ha p hp) hrest⟩

theorem exists_indices {values : Values} (h : p.window.Follows l i) (hp : p.values = values)
    (actions : List Action) :
    ∃ indices, (i :: indices).Pairwise (· ≤ ·) ∧
      List.Forall₂ (fun q j => q.window.Follows l j ∧ q.values = values) (p.history actions)
        (i :: indices) := by
  induction actions generalizing p i with
  | nil => exact ⟨[], List.pairwise_singleton .., .cons ⟨h, hp⟩ .nil⟩
  | cons a actions ih =>
      obtain ⟨j, hij, hj⟩ := perform_keeps (Window.Follows.stable l i) p a ⟨i, Nat.le_refl i, h⟩
      obtain ⟨indices, hle, hf⟩ := ih hj ((p.perform_frame a).values.trans hp)
      refine ⟨j :: indices, .cons ?_ hle, .cons ⟨h, hp⟩ hf⟩
      intro k hk
      rcases List.mem_cons.mp hk with rfl | hk
      · exact hij
      · exact Nat.le_trans hij (List.rel_of_pairwise_cons hle hk)

/-- Whatever is done to a parser, its window moves along the tokens of its source and never back,
and nothing else changes that the action is not about. With the rules of the language, the parser
reads a program from where it stands as a fresh one reads the text from there on. -/
theorem history_stands (text : String) (name : Option String) (values : Values) :
    (∀ (p : Parser) (a : Action), a.Frame p (p.perform a).2) ∧
      ∃ places, Tiles text.toList 0 (sourceTokens text name) places ∧
        ∀ actions, ∃ indices, indices.Pairwise (· ≤ ·) ∧
          List.Forall₂
            (fun (p : Parser) i => p.window.StandsAt text name places i ∧ p.values = values ∧
              (p.rules = .standard → p.Resumes text name values (placeAt text places i).1))
            ((ofText text name values).history actions) indices := by
  have hy := yields_source text name
  have ht := (hy.tiles (Lexer.standsIn_ofText text name)).1
  refine ⟨perform_frame, _, ht, fun actions => ?_⟩
  have hw : (ofText text name values).window.Follows (.ofText text name) 0 := .ofLexer _
  have hv : (ofText text name values).values = values := rfl
  obtain ⟨indices, hle, hf⟩ := exists_indices hw hv actions
  refine ⟨_, hle, hf.imp fun p i ⟨h, hv⟩ => ⟨h.standsAt, hv, fun hr => ?_⟩⟩
  rw [← hv]
  exact resumes h hr

end Parser

end FrontEnd
