import FrontEnd.Lexer.Cursor
import FrontEnd.Proofs.History

/-!
Reading at a cursor, round by round. A round looks at the text from the cursor on and takes blanks
or a token off it. Only a first round can fail: blanks end between two characters, so that whatever
is refused has moved nothing, and everything that is read is what the lexer at the cursor yields.
-/

namespace FrontEnd

def Text.IsBoundary (cs : List Char) (n : Nat) : Prop :=
  ∃ before after, cs = before ++ after ∧ byteLength before = n

namespace Lexer

variable {l : Lexer} {cs : List Char} {ts : List Token} {ending : Token}

/-- Draining takes all tokens and meets the end. -/
theorem Yields.drain (h : l.Yields ts ending) : l.drain = (ts, l.after (ts.length + 1)) := by
  induction ts generalizing l with
  | nil => rw [Lexer.drain, if_pos (h.eq_nil_iff.mpr rfl)]; rfl
  | cons t ts ih =>
      have ht : l.next.1 = t := h.next_fst
      have hk : l.next.1.kind ≠ .eof := ht ▸ h.proper t (List.mem_cons_self ..)
      rw [Lexer.drain, if_neg hk, ih h.next_snd, after_next, ht]
      rfl

theorem pos_le_next (l : Lexer) : l.pos ≤ l.next.2.pos := by
  have hs : l.pos ≤ l.skipBlanks.pos := Nat.le_add_right ..
  by_cases hk : l.next.1.kind = .eof
  · rw [next_of_rest_nil (skipBlanks_rest_nil_of_eof hk)]
    exact hs
  · have hp := (next_cut hk).2.2.1
    omega

theorem pos_le_after (l : Lexer) (n : Nat) : l.pos ≤ (l.after n).pos := by
  induction n with
  | zero => exact Nat.le_refl _
  | succ n ih => exact Nat.le_trans ih (pos_le_next _)

theorem StandsIn.isBoundary (h : l.StandsIn cs) : Text.IsBoundary cs l.pos := by
  obtain ⟨before, rfl, hp⟩ := h
  exact ⟨before, l.rest, rfl, hp.symm⟩

end Lexer

namespace Cursor

variable {c c' : Cursor} {l : Lexer} {t : Token}

theorem atEnd_iff : c.atEnd = true ↔ Text.byteLength c.text ≤ c.pos :=
  decide_eq_true_iff

theorem lexer?_of_standsIn (hs : l.source = c.source) (hp : l.pos = c.pos)
    (hl : l.StandsIn c.text) : c.lexer? = some l := by
  obtain ⟨source, pos, rest⟩ := l
  obtain rfl : source = c.source := hs
  obtain rfl : pos = c.pos := hp
  rw [lexer?]
  split
  · next he =>
      obtain ⟨before, ht, hp⟩ := hl
      replace ht : c.text = before ++ rest := ht
      replace hp : c.pos = Text.byteLength before := hp
      have hr : rest = [] := by
        by_contra hn
        have hpos := Text.byteLength_pos hn
        have hle := atEnd_iff.mp he
        rw [ht, Text.byteLength_append] at hle
        omega
      rw [hr]
  · rw [remainder?, hl.dropBytes?]
    rfl

theorem lexer?_of_lt (h : Text.byteLength c.text < c.pos) :
    c.lexer? = some ⟨c.source, c.pos, []⟩ :=
  if_pos (atEnd_iff.mpr (Nat.le_of_lt h))

/-- The lexer at a cursor stands in its text, or behind all of it. -/
theorem standsIn_or_of_lexer? (h : c.lexer? = some l) :
    l.source = c.source ∧ l.pos = c.pos ∧
      (l.StandsIn c.text ∨ Text.byteLength c.text < c.pos ∧ l.rest = []) := by
  rw [lexer?] at h
  split at h
  · next he =>
      cases h
      refine ⟨rfl, rfl, ?_⟩
      rcases Nat.eq_or_lt_of_le (atEnd_iff.mp he) with heq | hlt
      · exact .inl ⟨c.text, (List.append_nil _).symm, heq.symm⟩
      · exact .inr ⟨hlt, rfl⟩
  · obtain ⟨rest, hr, rfl⟩ := Option.map_eq_some_iff.mp h
    obtain ⟨before, ht, hp⟩ := Text.eq_append_of_dropBytes? hr
    exact ⟨rfl, rfl, .inl ⟨before, ht, hp.symm⟩⟩

theorem follow_of_lexer? (h : c.lexer? = some l) : c.follow l = c := by
  rw [follow, (standsIn_or_of_lexer? h).2.1]

theorem lexer?_follow_next (h : c.lexer? = some l) :
    (c.follow l.next.2).lexer? = some l.next.2 := by
  obtain ⟨hs, -, hl | ⟨-, hr⟩⟩ := standsIn_or_of_lexer? h
  · exact lexer?_of_standsIn (l.next_source.trans hs) rfl hl.next
  · have hn : l.next.2 = l := by
      rw [Lexer.next_of_rest_nil (by rw [Lexer.skipBlanks_of_rest_nil hr, hr]),
        Lexer.skipBlanks_of_rest_nil hr]
    rw [hn, follow_of_lexer? h, h]

theorem lexer?_follow_after (h : c.lexer? = some l) (n : Nat) :
    (c.follow (l.after n)).lexer? = some (l.after n) := by
  induction n with
  | zero => rw [Lexer.after, follow_of_lexer? h, h]
  | succ n ih => exact lexer?_follow_next (c := c.follow (l.after n)) ih

/-- The next token, found in rounds. A round that finds blanks only moves on behind them, and a
round inside a character fails and leaves the cursor where it has got to. -/
def scan (c : Cursor) : Option Token × Cursor :=
  if c.atEnd then (some ⟨.eof, "", c.spanFrom c.pos⟩, c)
  else
    match c.remainder? with
    | none => (none, c)
    | some [] => (some ⟨.eof, "", c.spanFrom c.pos⟩, c)
    | some (d :: ds) =>
        if isBlank d then
          (c.moveBy (Text.byteLength ((d :: ds).takeWhile isBlank))).scan
        else
          let lexeme := (Lexeme.read d ds).1
          let after := c.moveBy (Text.byteLength lexeme.text)
          (some ⟨lexeme.kind, String.ofList lexeme.text, after.spanFrom c.pos⟩, after)
termination_by Text.byteLength c.text - c.pos
decreasing_by
  next hend hb =>
    have hlt := Nat.lt_of_not_le (mt atEnd_iff.mpr hend)
    have hpos := d.utf8Size_pos
    simp only [moveBy, List.takeWhile_cons_of_pos hb, Text.byteLength_cons]
    omega

theorem scan_eq (c : Cursor) :
    c.scan = (c.next?.map Prod.fst, (c.next?.map Prod.snd).getD c) := by
  induction c using scan.induct with
  | case1 c he =>
      rw [scan, if_pos he, next?, lexer?, if_pos he]
      rfl
  | case2 c he hr =>
      rw [scan, if_neg he, hr, next?, lexer?, if_neg he, hr]
      rfl
  | case3 c he hr =>
      obtain ⟨before, ht, hp⟩ := Text.eq_append_of_dropBytes? hr
      rw [List.append_nil] at ht
      exact absurd (atEnd_iff.mpr (by rw [ht, hp])) he
  | case4 c he d ds hr hb ih =>
      obtain ⟨before, ht, hp⟩ := Text.eq_append_of_dropBytes? hr
      have hl : Lexer.StandsIn ⟨c.source, c.pos, d :: ds⟩ c.text := ⟨before, ht, hp.symm⟩
      have hskip := lexer?_of_standsIn (c := c.moveBy (Text.byteLength _)) rfl rfl hl.skipBlanks
      have hn := Lexer.next_congr (Lexer.skipBlanks_skipBlanks ⟨c.source, c.pos, d :: ds⟩)
      rw [scan, if_neg he, hr]
      simp only [if_pos hb]
      rw [ih, next?, next?, hskip, lexer?_of_standsIn rfl rfl hl, Option.map_some, Option.map_some,
        hn]
      rfl
  | case5 c he d ds hr hb =>
      obtain ⟨before, ht, hp⟩ := Text.eq_append_of_dropBytes? hr
      have hl : Lexer.StandsIn ⟨c.source, c.pos, d :: ds⟩ c.text := ⟨before, ht, hp.symm⟩
      have hskip := Lexer.skipBlanks_of_rest_cons (l := ⟨c.source, c.pos, d :: ds⟩) rfl
        (Bool.eq_false_iff.mpr hb)
      have hn := Lexer.next_of_rest_cons (congrArg Lexer.rest hskip)
      rw [scan, if_neg he, hr, next?, lexer?_of_standsIn rfl rfl hl, Option.map_some, hn, hskip]
      simp only [if_neg hb]
      rfl

def scanOne (c : Cursor) : Option (Option Token) × Cursor :=
  if c.drained then (some none, c)
  else
    match c.scan with
    | (none, c') => (none, c')
    | (some t, c') =>
        if t.kind = .eof then (some none, { c' with drained := true }) else (some (some t), c')

theorem scanOne_eq (c : Cursor) :
    c.scanOne = (c.drainOne?.map Prod.fst, (c.drainOne?.map Prod.snd).getD c) := by
  rw [scanOne, drainOne?]
  split
  · rfl
  · rw [scan_eq, next?]
    cases c.lexer? with
    | none => rfl
    | some l =>
        simp only [Option.map_some, Option.getD_some]
        split <;> rfl

/-- A token is drained while there is text left, and the cursor follows it. -/
theorem drainOne?_eq_some_some (h : c.drainOne? = some (some t, c')) :
    c.drained = false ∧ ∃ l, c.lexer? = some l ∧ l.next.1 = t ∧ t.kind ≠ .eof ∧
      c' = c.follow l.next.2 := by
  rw [drainOne?] at h
  split at h
  · cases h
  · next hd =>
      obtain ⟨l, hl, h⟩ := Option.map_eq_some_iff.mp h
      split at h
      · cases h
      · next hk =>
          cases h
          exact ⟨Bool.eq_false_iff.mpr hd, l, hl, rfl, hk, rfl⟩

theorem pos_lt_of_drainOne? (h : c.drainOne? = some (some t, c')) :
    c'.text = c.text ∧ c.pos < c'.pos ∧ c'.pos ≤ Text.byteLength c.text := by
  obtain ⟨-, l, hl, rfl, hk, rfl⟩ := drainOne?_eq_some_some h
  obtain ⟨-, hp, hs | ⟨-, hr⟩⟩ := standsIn_or_of_lexer? hl
  · obtain ⟨hn, -, hpos, -⟩ := Lexer.next_cut hk
    have hlit := Text.byteLength_pos hn
    have hskip : l.pos ≤ l.skipBlanks.pos := Nat.le_add_right ..
    obtain ⟨before, ht, hbefore⟩ := hs.next
    refine ⟨rfl, ?_, ?_⟩
    · rw [← hp]
      change l.pos < l.next.2.pos
      omega
    · rw [ht, Text.byteLength_append]
      exact hbefore ▸ Nat.le_add_right ..
  · rw [Lexer.next_of_rest_nil (by rw [Lexer.skipBlanks_of_rest_nil hr, hr])] at hk
    contradiction

/-- Draining goes on behind the token. -/
theorem exists_drain?_of_drainOne? (h : c.drainOne? = some (some t, c')) :
    ∃ ts c'', c'.drain? = some (ts, c'') ∧ c.drain? = some (t :: ts, c'') := by
  obtain ⟨hd, l, hl, rfl, hk, rfl⟩ := drainOne?_eq_some_some h
  have hd' : ¬ (c.follow l.next.2).drained = true := Bool.eq_false_iff.mp hd
  refine ⟨_, _, by rw [drain?, if_neg hd', lexer?_follow_next hl]; rfl, ?_⟩
  rw [drain?, if_neg (Bool.eq_false_iff.mp hd), hl, Option.map_some, Lexer.drain, if_neg hk]
  rfl

theorem drain?_of_drainOne?_none (h : c.drainOne? = some (none, c')) :
    c.drain? = some ([], c') := by
  rw [drainOne?] at h
  rw [drain?]
  split at h
  · next hd =>
      cases h
      rw [if_pos hd]
  · next hd =>
      obtain ⟨l, hl, h⟩ := Option.map_eq_some_iff.mp h
      rw [if_neg hd, hl, Option.map_some]
      split at h
      · next hk =>
          cases h
          rw [Lexer.drain, if_pos hk]
      · cases h

theorem drain?_of_drainOne?_eq_none (h : c.drainOne? = none) : c.drain? = none := by
  rw [drainOne?] at h
  split at h
  · cases h
  · next hd => rw [drain?, if_neg hd, Option.map_eq_none_iff.mp h, Option.map_none]

theorem drainOne?_of_scanOne {o : Option Token} (h : c.scanOne = (some o, c')) :
    c.drainOne? = some (o, c') := by
  rw [scanOne_eq] at h
  obtain ⟨h₁, h₂⟩ := Prod.ext_iff.mp h
  cases hd : c.drainOne? with
  | none =>
      rw [hd] at h₁
      cases h₁
  | some x =>
      rw [hd] at h₁ h₂
      exact congrArg some (Prod.ext (Option.some.inj h₁) h₂)

def scanAll (c : Cursor) : Option (List Token) × Cursor :=
  match _h : c.scanOne with
  | (none, c') => (none, c')
  | (some none, c') => (some [], c')
  | (some (some t), c') => (c'.scanAll.1.map (t :: ·), c'.scanAll.2)
termination_by Text.byteLength c.text - c.pos
decreasing_by
  all_goals
    obtain ⟨ht, hlt, hle⟩ := pos_lt_of_drainOne? (drainOne?_of_scanOne _h)
    rw [ht]
    omega

theorem scanAll_of_none (h : c.scanOne = (none, c')) : c.scanAll = (none, c') := by
  rw [scanAll]
  split <;> simp_all

theorem scanAll_of_some_none (h : c.scanOne = (some none, c')) : c.scanAll = (some [], c') := by
  rw [scanAll]
  split <;> simp_all

theorem scanAll_of_some_some (h : c.scanOne = (some (some t), c')) :
    c.scanAll = (c'.scanAll.1.map (t :: ·), c'.scanAll.2) := by
  rw [scanAll]
  split <;> simp_all

theorem scanAll_eq (c : Cursor) :
    c.scanAll = (c.drain?.map Prod.fst, (c.drain?.map Prod.snd).getD c) := by
  induction c using scanAll.induct with
  | case1 c c' h =>
      obtain ⟨hd, hc⟩ := Prod.ext_iff.mp (c.scanOne_eq.symm.trans h)
      replace hd : c.drainOne? = none := Option.map_eq_none_iff.mp hd
      rw [hd] at hc
      obtain rfl : c = c' := hc
      rw [scanAll_of_none h, drain?_of_drainOne?_eq_none hd]
      rfl
  | case2 c c' h =>
      rw [scanAll_of_some_none h, drain?_of_drainOne?_none (drainOne?_of_scanOne h)]
      rfl
  | case3 c t c' h ih =>
      obtain ⟨ts, c'', hd', hd⟩ := exists_drain?_of_drainOne? (drainOne?_of_scanOne h)
      rw [scanAll_of_some_some h, ih, hd', hd]
      rfl

end Cursor

end FrontEnd
