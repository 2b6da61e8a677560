import FrontEnd.Proofs.Blocks
import FrontEnd.Proofs.Concatenation

/-!
The layout of a source means nothing. With other blanks between its tokens and around them, a source
has the same tokens and is read as the same program. Positions go with the tokens, so a diagnostic
points at the token that it pointed at before.
-/

namespace FrontEnd

/-- Blanks to lay tokens out with, if any, in front of the first token and behind each one. -/
structure Spacing (ts : List Token) where
  lead : List Char
  gaps : List (List Char)
  length_gaps : gaps.length = ts.length
  blank : ∀ gap ∈ lead :: gaps, ∀ c ∈ gap, isBlank c = true

structure Layout (ts : List Token) extends Spacing ts where
  apart : ∀ gap ∈ gaps.dropLast, gap ≠ []

def spread (ts : List Token) (gaps : List (List Char)) : List Char :=
  (List.zipWith (fun t gap => t.literal.toList ++ gap) ts gaps).flatten

def Spacing.text {ts : List Token} (spacing : Spacing ts) : String :=
  String.ofList (spacing.lead ++ spread ts spacing.gaps)

/-- Any tokens can be laid out, with a space behind each one. -/
instance (ts : List Token) : Inhabited (Layout ts) :=
  ⟨{ lead := []
     gaps := ts.map fun _ => [' ']
     length_gaps := List.length_map _
     blank := by
      intro gap hm c hc
      rcases List.mem_cons.mp hm with rfl | hm
      · cases hc
      · obtain ⟨-, -, rfl⟩ := List.mem_map.mp hm
        rw [List.mem_singleton.mp hc]
        rfl
     apart := by
      intro gap hm
      obtain ⟨-, -, rfl⟩ := List.mem_map.mp ((List.dropLast_sublist _).subset hm)
      exact List.cons_ne_nil ' ' [] }⟩

example : (default : Layout (sourceTokens "let x=-1;" none)).text = "let x = - 1 ; " := by
  decide +kernel

def Diagnostic.PointsAt (text : String) (name : Option String) (d : Diagnostic) (i : Nat) : Prop :=
  ∃ t, (tokenize text name)[i]? = some t ∧ d.position = t.span.start

def Alike (ts us : List Token) : Prop :=
  ts.map (Token.relocate unplace) = us.map (Token.relocate unplace)

theorem joins_of_isBlank {d : Char} (text : List Char) (h : isBlank d = true) :
    joins text d = false := by
  cases text with
  | nil => rfl
  | cons c cs => rcases isBlank_iff.mp h with rfl | rfl | rfl | rfl <;> simp [joins, isWordChar]

section Spreading

variable {ts : List Token} {gaps : List (List Char)}

theorem spread_cons (t : Token) (ts : List Token) (gap : List Char) (gaps : List (List Char)) :
    spread (t :: ts) (gap :: gaps) = t.literal.toList ++ (gap ++ spread ts gaps) := by
  simp [spread]

/-- A text is its tokens with some spacing. -/
theorem Lexer.Yields.exists_spacing {l : Lexer} {ending : Token} (h : l.Yields ts ending) :
    ∃ spacing : Spacing ts, l.rest = spacing.lead ++ spread ts spacing.gaps := by
  induction ts generalizing l with
  | nil =>
      refine ⟨⟨l.rest, [], rfl, ?_⟩, (List.append_nil _).symm⟩
      exact List.forall_mem_singleton.mpr h.isBlank_of_nil
  | cons t ts ih =>
      obtain ⟨spacing, hs⟩ := ih h.next_snd
      have ht : l.next.1 = t := h.next_fst
      obtain ⟨blanks, hb, hr, -⟩ :=
        exists_blanks_of_next (ht ▸ h.proper t (List.mem_cons_self ..))
      refine ⟨⟨blanks, spacing.lead :: spacing.gaps, ?_,
        List.forall_mem_cons.mpr ⟨hb, spacing.blank⟩⟩, ?_⟩
      · rw [List.length_cons, List.length_cons, spacing.length_gaps]
      · rw [spread_cons, ← hs, ← ht]
        exact hr

theorem lexemes_of_blanks {blanks : List Char} (cs : List Char)
    (hb : ∀ c ∈ blanks, isBlank c = true) : lexemes (blanks ++ cs) = lexemes cs := by
  induction blanks with
  | nil => rfl
  | cons c blanks ih =>
      obtain ⟨hc, hb⟩ := List.forall_mem_cons.mp hb
      rw [List.cons_append, lexemes_of_blank _ hc, ih hb]

/-- A literal that does not go on is the next lexeme. -/
theorem lexemes_of_admits {k : Kind} {s : String} {after : List Char} (hk : k.Admits s)
    (hj : ∀ d ∈ after.head?, joins s.toList d = false) :
    lexemes (s.toList ++ after) = ⟨k, s, noSpan⟩ :: lexemes after := by
  obtain ⟨c, cs, hs, hb, hr⟩ := hk.exists_read
  have hread : Lexeme.read c (cs ++ after) = (⟨k, c :: cs⟩, after) := by
    rw [Lexeme.read_append (by rw [hr, ← hs]; exact fun _ => hj), hr]
    rfl
  rw [hs, List.cons_append, lexemes_of_read hb hread, Lexeme.token, ← hs, String.ofList_toList]
  rfl

/-- Blanks keep a literal from going on. Where there are none, no token follows. -/
theorem joins_of_apart {gap : List Char} (text : List Char) (hl : gaps.length = ts.length)
    (hb : ∀ c ∈ gap, isBlank c = true) (ha : gaps ≠ [] → gap ≠ []) :
    ∀ d ∈ (gap ++ spread ts gaps).head?, joins text d = false := by
  intro d hd
  cases gap with
  | cons c gap =>
      obtain rfl : c = d := by simpa using hd
      exact joins_of_isBlank text (hb c (List.mem_cons_self ..))
  | nil =>
      obtain rfl : gaps = [] := Classical.not_not.mp fun hn => ha hn rfl
      simp [spread] at hd

/-- Tokens that blanks keep apart are read again. -/
theorem lexemes_spread (hts : ∀ t ∈ ts, t.kind.Admits t.literal) (hl : gaps.length = ts.length)
    (hb : ∀ gap ∈ gaps, ∀ c ∈ gap, isBlank c = true) (ha : ∀ gap ∈ gaps.dropLast, gap ≠ []) :
    lexemes (spread ts gaps) = ts.map (Token.relocate unplace) := by
  induction ts generalizing gaps with
  | nil =>
      rw [spread, List.zipWith_nil_left]
      exact lexemes_nil
  | cons t ts ih =>
      obtain ⟨gap, gaps, rfl⟩ := List.exists_cons_of_length_eq_add_one hl
      obtain ⟨ht, hts⟩ := List.forall_mem_cons.mp hts
      obtain ⟨hgap, hb⟩ := List.forall_mem_cons.mp hb
      have hl : gaps.length = ts.length := Nat.succ.inj hl
      have hfirst : gaps ≠ [] → gap ≠ [] := fun hn =>
        ha gap (by rw [List.dropLast_cons_of_ne_nil hn]; exact List.mem_cons_self ..)
      have hrest : ∀ gap ∈ gaps.dropLast, gap ≠ [] := by
        intro gap' hm
        cases gaps with
        | nil => cases hm
        | cons g gaps => exact ha gap' (List.mem_cons_of_mem gap hm)
      have hj := joins_of_apart t.literal.toList hl hgap hfirst
      rw [spread_cons, lexemes_of_admits ht hj, lexemes_of_blanks _ hgap, ih hts hl hb hrest]
      rfl

theorem lexemes_layout {text : String} {name : Option String}
    (layout : Layout (sourceTokens text name)) :
    lexemes layout.text.toList = lexemes text.toList := by
  have hy := yields_source text name
  obtain ⟨hlead, hb⟩ := List.forall_mem_cons.mp layout.blank
  rw [Spacing.text, String.toList_ofList, lexemes_of_blanks _ hlead,
    lexemes_spread hy.admits layout.length_gaps hb layout.apart]
  exact hy.lexemes

end Spreading

/-- What a text is listed as, but for the positions. -/
theorem map_unplace_tokenize (text : String) (name : Option String) :
    (tokenize text name).map (Token.relocate unplace) =
      lexemes text.toList ++ [⟨.eof, "", noSpan⟩] := by
  have hy := yields_source text name
  have he := (hy.tiles (Lexer.standsIn_ofText text name)).2
  rw [tokenize_eq, List.map_append, he]
  exact congrArg (· ++ _) hy.lexemes

section Reading

variable {ts ts' us us' : List Token}

theorem Alike.length_eq (h : Alike ts us) : ts.length = us.length := by
  simpa using congrArg List.length h

theorem Alike.tail (h : Alike ts us) : Alike ts.tail us.tail := by
  rw [Alike, List.map_tail, List.map_tail, h]

theorem Alike.fromSemicolon (h : Alike ts us) :
    Alike (FrontEnd.fromSemicolon ts) (FrontEnd.fromSemicolon us) := by
  rw [Alike, ← fromSemicolon_relocate, ← fromSemicolon_relocate, h]

theorem Alike.fault {d d' : Diagnostic} (h : Alike us us') (hd : d.cause = d'.cause) :
    Alike (d.fault us) (d'.fault us') := by
  unfold Diagnostic.fault
  rw [← hd]
  cases d.cause with
  | expectedToken expected got => exact h.tail
  | noStart kind => exact h
  | badInteger literal => exact h

variable {r : Rules} {ending ending' : Token} {values : Values}

/-- Tokens that differ in their positions alone are read alike. -/
theorem Alike.readsStatement {o o' : Except Diagnostic Stmt} (h : Alike ts ts')
    (he : ending.relocate unplace = ending'.relocate unplace)
    (hr : ReadsStatement r ending values ts o us)
    (hr' : ReadsStatement r ending' values ts' o' us') :
    relocateOutcome unplace (Stmt.relocate unplace) o =
        relocateOutcome unplace (Stmt.relocate unplace) o' ∧ Alike us us' := by
  have hu := hr.relocate unplace
  rw [h, he] at hu
  exact ReadsBy.unique hu (hr'.relocate unplace)

theorem Alike.readsItems {items items' : List Item} (h : Alike ts ts')
    (he : ending.relocate unplace = ending'.relocate unplace)
    (hr : ReadsItems r ending values ts items) (hr' : ReadsItems r ending' values ts' items') :
    items.map (Item.relocate unplace) = items'.map (Item.relocate unplace) := by
  have hu := hr.relocate unplace
  rw [h, he] at hu
  exact hu.unique (hr'.relocate unplace)

end Reading

section Pointing

variable {text text' : String} {name : Option String} {values : Values} {ts ts' us us' : List Token}

theorem getElem?_tokenize {i : Nat} (h : i ≤ (sourceTokens text name).length) :
    (tokenize text name)[i]? = some (tokenAt text name i) := by
  rw [tokenize_eq, tokenAt]
  rcases Nat.lt_or_eq_of_le h with hlt | rfl
  · rw [List.getElem?_append_left hlt, List.getElem?_eq_getElem hlt, List.drop_eq_getElem_cons hlt]
    rfl
  · rw [List.getElem?_concat_length, List.drop_length]
    rfl

theorem ReadsStatement.pointsAt {d : Diagnostic}
    (h : ReadsStatement .standard (sourceEnd text name) values ts (.error d) us)
    (hts : ts <:+ sourceTokens text name) :
    d.PointsAt text name (place text name (d.fault us)) := by
  have hf := ((d.fault_suffix us).trans (ReadsBy.suffix h)).trans hts
  refine ⟨_, getElem?_tokenize (Nat.sub_le ..), ?_⟩
  rw [tokenAt_place hf]
  exact ReadsBy.position_eq h

/-- Where two sources have the same tokens, the same ones are pointed at. -/
theorem Alike.exists_indices {items items' : List Item} (h : Alike ts ts')
    (hs : Alike (sourceTokens text name) (sourceTokens text' name))
    (he : (sourceEnd text name).relocate unplace = (sourceEnd text' name).relocate unplace)
    (hr : ReadsItems .standard (sourceEnd text name) values ts items)
    (hr' : ReadsItems .standard (sourceEnd text' name) values ts' items')
    (hts : ts <:+ sourceTokens text name) (hts' : ts' <:+ sourceTokens text' name) :
    ∃ indices,
      List.Forall₂ (Diagnostic.PointsAt text name) (items.filterMap Item.diagnostic?) indices ∧
        List.Forall₂ (Diagnostic.PointsAt text' name) (items'.filterMap Item.diagnostic?)
          indices := by
  induction hr generalizing ts' items' with
  | done =>
      obtain rfl : ts' = [] := List.eq_nil_of_length_eq_zero h.length_eq.symm
      cases hr'
      exact ⟨[], .nil, .nil⟩
  | statement hst hi ih =>
      cases hr' with
      | done => cases h
      | statement hst' hi' =>
          obtain ⟨-, hu⟩ := h.readsStatement he hst hst'
          have hrest := (ReadsItem.statement hst).tail_suffix.trans hts
          have hrest' := (ReadsItem.statement hst').tail_suffix.trans hts'
          simpa [List.filterMap_cons, Item.diagnostic?] using ih hu.tail hi' hrest hrest'
      | diagnostic hst' hi' => cases (h.readsStatement he hst hst').1
  | @diagnostic t d ts us items hst hi ih =>
      cases hr' with
      | done => cases h
      | statement hst' hi' => cases (h.readsStatement he hst hst').1
      | @diagnostic t' d' ts' us' items' hst' hi' =>
          obtain ⟨ho, hu⟩ := h.readsStatement he hst hst'
          injection ho with ho
          injection ho with hd
          have hplace : place text' name (d'.fault us') = place text name (d.fault us) := by
            rw [place, place, ← hs.length_eq, ← (hu.fault hd).length_eq]
          have hrest := (ReadsItem.diagnostic hst).tail_suffix.trans hts
          have hrest' := (ReadsItem.diagnostic hst').tail_suffix.trans hts'
          obtain ⟨indices, hf, hf'⟩ := ih hu.fromSemicolon.tail hi' hrest hrest'
          exact ⟨_, .cons (hst.pointsAt hts) hf, .cons (hplace ▸ hst'.pointsAt hts') hf'⟩

end Pointing

theorem map_kind_literal_relocate (f : Position → Position) (ts : List Token) :
    (ts.map (Token.relocate f)).map (fun t => (t.kind, t.literal)) =
      ts.map fun t => (t.kind, t.literal) :=
  List.map_map

theorem map_cause_relocate (f : Position → Position) (ds : List Diagnostic) :
    (ds.map (Diagnostic.relocate f)).map Diagnostic.cause = ds.map Diagnostic.cause :=
  List.map_map

/-- A source is its tokens with some spacing, and laying them out anew changes nothing but
positions. The tokens have the same kinds and literals, the program is the same, and as many
diagnostics have the same causes and point at the tokens with the same indices. -/
theorem parse_layout (text : String) (name : Option String) (values : Values)
    (layout : Layout (sourceTokens text name)) :
    let p := parse text name values
    let q := parse layout.text name values
    (∃ spacing : Spacing (sourceTokens text name), spacing.text = text) ∧
      (tokenize layout.text name).map (fun t => (t.kind, t.literal)) =
          (tokenize text name).map (fun t => (t.kind, t.literal)) ∧
      q.1.statements.map (Stmt.relocate unplace) = p.1.statements.map (Stmt.relocate unplace) ∧
      q.2.diagnostics.map Diagnostic.cause = p.2.diagnostics.map Diagnostic.cause ∧
      ∃ indices, List.Forall₂ (Diagnostic.PointsAt text name) p.2.diagnostics indices ∧
        List.Forall₂ (Diagnostic.PointsAt layout.text name) q.2.diagnostics indices := by
  dsimp only
  have hy := yields_source text name
  have hy' := yields_source layout.text name
  have ht : (tokenize layout.text name).map (Token.relocate unplace) =
      (tokenize text name).map (Token.relocate unplace) := by
    rw [map_unplace_tokenize, map_unplace_tokenize, lexemes_layout]
  have htokens := congrArg (List.map fun t : Token => (t.kind, t.literal)) ht
  rw [map_kind_literal_relocate, map_kind_literal_relocate] at htokens
  rw [tokenize_eq, tokenize_eq, List.map_append, List.map_append] at ht
  obtain ⟨hs, he⟩ := List.append_inj' ht.symm rfl
  replace he := List.singleton_inj.mp he
  obtain ⟨items, hi⟩ := exists_readsItems (r := .standard) hy.ends rfl values _
  obtain ⟨items', hi'⟩ := exists_readsItems (r := .standard) hy'.ends rfl values _
  obtain ⟨hp, hd⟩ := parse_of_readsItems hy hi
  obtain ⟨hp', hd'⟩ := parse_of_readsItems hy' hi'
  have hitems := Alike.readsItems hs he hi hi'
  have hstatements := congrArg (List.filterMap Item.statement?) hitems
  have hdiagnostics := congrArg (List.filterMap Item.diagnostic?) hitems
  rw [filterMap_statement?_relocate, filterMap_statement?_relocate, ← hp, ← hp'] at hstatements
  rw [filterMap_diagnostic?_relocate, filterMap_diagnostic?_relocate, ← hd, ← hd'] at hdiagnostics
  have hcauses := congrArg (List.map Diagnostic.cause) hdiagnostics
  rw [map_cause_relocate, map_cause_relocate] at hcauses
  obtain ⟨indices, hf, hf'⟩ :=
    Alike.exists_indices hs hs he hi hi' List.suffix_rfl List.suffix_rfl
  rw [← hd] at hf
  rw [← hd'] at hf'
  obtain ⟨spacing, hspacing⟩ := hy.exists_spacing
  have htext : spacing.text = text := by
    rw [Spacing.text, ← hspacing]
    exact String.ofList_toList
  exact ⟨⟨spacing, htext⟩, htokens, hstatements.symm, hcauses.symm, indices, hf, hf'⟩

end FrontEnd
