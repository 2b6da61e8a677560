import FrontEnd.Proofs.InputLines
import FrontEnd.Proofs.LongestMatch

/-!
What a line is answered with at the prompt. The reports of its diagnostics are shown one by one, and
the answer breaks off at the first whose caret is too far to the right. That takes nothing more than
a line with a mistake far enough behind its beginning.
-/

namespace FrontEnd

def Diagnostic.IsShowable (d : Diagnostic) (source : String) : Prop :=
  ∀ l, locate? source d.position.offset = some l → l.caret ≤ Location.caretLimit

namespace Diagnostic

variable {d : Diagnostic} {source : String}

theorem exists_report (h : d.IsShowable source) : ∃ report, d.report source = .ok report := by
  rw [report]
  cases hl : locate? source d.position.offset with
  | none => exact ⟨_, rfl⟩
  | some l =>
      rw [Option.map_some, Option.getD_some, Location.excerpt, if_pos (h l hl)]
      exact ⟨_, rfl⟩

theorem report_of_not_isShowable (h : ¬ d.IsShowable source) :
    d.report source = .error .caretTooFar := by
  simp only [IsShowable, not_forall] at h
  obtain ⟨l, hl, hc⟩ := h
  rw [report, hl, Option.map_some, Option.getD_some, Location.excerpt, if_neg hc]
  rfl

theorem reports_of_isShowable {ds : List Diagnostic} (h : ∀ d ∈ ds, d.IsShowable source) :
    (reports source ds).2 = none := by
  induction ds with
  | nil => rfl
  | cons d ds ih =>
      rw [List.forall_mem_cons] at h
      obtain ⟨report, hr⟩ := exists_report h.1
      rw [reports, hr]
      exact ih h.2

/-- Nothing is shown from the first diagnostic on that is not showable. -/
theorem exists_reports {ds : List Diagnostic} (h : ¬ ∀ d ∈ ds, d.IsShowable source) :
    ∃ shown d others, ds = shown ++ d :: others ∧ (∀ e ∈ shown, e.IsShowable source) ∧
      ¬ d.IsShowable source ∧
      reports source ds = ((reports source shown).1, some .caretTooFar) := by
  induction ds with
  | nil => exact absurd (List.forall_mem_nil _) h
  | cons e ds ih =>
      by_cases he : e.IsShowable source
      · obtain ⟨report, hr⟩ := exists_report he
        have hds : ¬ ∀ d ∈ ds, d.IsShowable source := fun hds =>
          h (List.forall_mem_cons.mpr ⟨he, hds⟩)
        obtain ⟨shown, d, others, rfl, hs, hd, hreports⟩ := ih hds
        refine ⟨e :: shown, d, others, rfl, List.forall_mem_cons.mpr ⟨he, hs⟩, hd, ?_⟩
        simp only [reports, hr, hreports]
      · refine ⟨[], e, ds, rfl, List.forall_mem_nil _, he, ?_⟩
        simp only [reports, report_of_not_isShowable he]

end Diagnostic

open Text

namespace Prompt

def IsAnswered (mode : Mode) (values : Values) (line : String) : Prop :=
  mode = .program → ∀ d ∈ (parse line none values).2.diagnostics, d.IsShowable line

/-- The answer to a line ends behind some diagnostics, for the next one cannot be shown. -/
def BreaksOff (mode : Mode) (values : Values) (line : String) (shown : List Diagnostic) : Prop :=
  mode = .program ∧ ∃ d others,
    (parse line none values).2.diagnostics = shown ++ d :: others ∧
      (∀ e ∈ shown, e.IsShowable line) ∧ ¬ d.IsShowable line

def answered (mode : Mode) (values : Values) (line : String) : String :=
  mark ++ (answer mode values line).output

section

variable {mode : Mode} {values : Values} {line : String}

theorem failure_of_isAnswered (h : IsAnswered mode values line) :
    (answer mode values line).failure = none := by
  cases mode with
  | tokens => rfl
  | program =>
      simp only [answer]
      split
      · rfl
      · exact congrArg (Option.map Failure.unshown) (Diagnostic.reports_of_isShowable (h rfl))

theorem exists_breaksOff (h : ¬ IsAnswered mode values line) :
    ∃ shown, BreaksOff mode values line shown ∧
      (answer mode values line).output = (Diagnostic.reports line shown).1 ∧
      (answer mode values line).failure = some (.unshown .caretTooFar) := by
  simp only [IsAnswered, Classical.not_imp] at h
  obtain ⟨rfl, hd⟩ := h
  obtain ⟨shown, d, others, hds, hs, hn, hr⟩ := Diagnostic.exists_reports hd
  refine ⟨shown, ⟨rfl, d, others, hds, hs, hn⟩, ?_⟩
  simp only [answer]
  rw [if_neg (by simp [hds]), hr]
  exact ⟨rfl, rfl⟩

theorem BreaksOff.not_isAnswered {shown : List Diagnostic}
    (h : BreaksOff mode values line shown) : ¬ IsAnswered mode values line := by
  obtain ⟨hm, d, others, hds, -, hn⟩ := h
  exact fun ha => hn (ha hm d (by simp [hds]))

theorem isAnswered_of_failure (h : (answer mode values line).failure = none) :
    IsAnswered mode values line := by
  by_contra ha
  obtain ⟨-, -, -, hf⟩ := exists_breaksOff ha
  rw [hf] at h
  contradiction

end

section Stray

variable {n : Nat}

/-- A line that goes wrong at its end, with blanks in front of that. -/
def stray (n : Nat) : String :=
  String.ofList ('a' :: (List.replicate n ' ' ++ [')']))

theorem byteLength_blanks (n : Nat) : byteLength (List.replicate n ' ') = n := by
  induction n with
  | zero => rfl
  | succ n ih =>
      rw [List.replicate_succ, byteLength_cons, ih]
      exact Nat.add_comm 1 n

theorem exists_yields_stray (n : Nat) :
    ∃ t u ending, (Lexer.ofText (stray n) none).Yields [t, u] ending ∧ t.kind = .identifier ∧
      u.kind = .closeParen ∧ u.span.start = .ofOffset shellName (n + 1) := by
  have hb : ∀ c ∈ List.replicate n ' ', isBlank c = true := by
    intro c hc
    rw [List.eq_of_mem_replicate hc]
    rfl
  have hj : ∀ d ∈ (List.replicate n ' ' ++ [')']).head?, joins "a".toList d = false := by
    cases n with
    | zero | succ => simp [List.replicate_succ, joins, isWordChar]
  have hrest : (Lexer.ofText (stray n) none).rest =
      [] ++ ("a".toList ++ (List.replicate n ' ' ++ (")".toList ++ []))) := by
    simp [Lexer.ofText, stray]
  have hn := Lexer.next_of_admits hrest (List.forall_mem_nil _)
    (.name ⟨by decide, List.forall_mem_singleton.mpr rfl, rfl⟩) hj
  have hn' := Lexer.next_of_admits (l := (Lexer.ofText (stray n) none).next.2)
    (congrArg (·.2.rest) hn) hb (.spelled (k := .closeParen) rfl) (by simp)
  have ht : (Lexer.ofText (stray n) none).next.1.kind = .identifier := by rw [hn]
  have hu : (Lexer.ofText (stray n) none).next.2.next.1.kind = .closeParen := by rw [hn']
  have hend : (Lexer.ofText (stray n) none).next.2.next.2.next.1.kind = .eof := by
    rw [hn']
    rfl
  have hy := Lexer.Yields.cons rfl (by rw [ht]; decide)
    (.cons rfl (by rw [hu]; decide) (.nil rfl hend))
  refine ⟨_, _, _, hy, ht, hu, ?_⟩
  rw [hn', hn, byteLength_blanks, Nat.add_comm n]
  rfl

theorem diagnostics_stray (n : Nat) (values : Values) :
    (parse (stray n) none values).2.diagnostics =
      [⟨.noStart .closeParen, .ofOffset shellName (n + 1)⟩] := by
  obtain ⟨t, u, ending, hy, ht, hu, hp⟩ := exists_yields_stray n
  have hne : u.kind ≠ .semicolon := by
    rw [hu]
    nofun
  have hx : Reads .standard ending none .lowest [t, u] (.ok (.identifier (.ofToken t))) [t, u] := by
    refine .identifier (by rw [ht]; rfl) (.finish ?_)
    rw [front_cons, hu]
    exact fun hc => absurd hc.2.2 nofun
  have hs : ReadsStatement .standard ending values [t, u] _ _ :=
    ReadsBy.readsStatement (by rw [ht]; rfl) (.expression hx)
  rw [pastSemicolon, if_neg hne] at hs
  have hd : Reads .standard ending none .lowest [u] (.error ⟨.noStart u.kind, u.span.start⟩) [u] :=
    .noStart (by rw [front_cons, hu]; rfl)
  have hf : ReadsStatement .standard ending values [u] _ _ :=
    ReadsBy.readsStatement (by rw [hu]; rfl) (.expressionFails hd)
  have hi : ReadsItems .standard ending values [u] [.diagnostic _] :=
    .diagnostic hf (by rw [fromSemicolon_cons_of_ne [] hne]; exact .done)
  rw [(parse_of_readsItems hy (.statement hs hi)).2, ← hp, ← hu]
  rfl

theorem toList_stray (n : Nat) : (stray n).toList = 'a' :: List.replicate n ' ' ++ [')'] := by
  rw [stray, String.toList_ofList]
  rfl

theorem hasLines_stray (n : Nat) : HasLines (stray n ++ "\n") [stray n] := by
  have hf : '\n' ∉ (stray n).toList := by simp [toList_stray]
  have hr : (stray n).toList.getLast? ≠ some '\r' := by
    rw [toList_stray, List.getLast?_concat]
    simp
  have h := HasLines.feed hf hr .none
  rwa [String.append_empty] at h

theorem not_isAnswered_stray (values : Values) (h : Location.caretLimit ≤ n)
    (hn : n + 1 < UInt32.size) : ¬ IsAnswered .program values (stray n) := by
  intro ha
  have hlead : byteLength ('a' :: List.replicate n ' ') = n + 1 := by
    rw [byteLength_cons, byteLength_blanks]
    exact Nat.add_comm 1 n
  have hsize : n + 1 ≤ byteLength (stray n).toList := by
    rw [toList_stray, byteLength_append, hlead]
    exact Nat.le_add_right ..
  have hoffset : (Position.ofOffset shellName (n + 1)).offset.toNat = n + 1 :=
    UInt32.toNat_ofNat.trans (Nat.mod_eq_of_lt hn)
  have hl : locate? (stray n) (Position.ofOffset shellName (n + 1)).offset =
      some ⟨1, (stray n).toList, n + 1⟩ := by
    rw [locate?, hoffset, if_pos hsize, Location.seek_last (by simp [toList_stray]) hsize]
  have hdrop : dropBytes? (n + 1) ('a' :: List.replicate n ' ' ++ [')']) = some [')'] := by
    rw [← hlead]
    exact dropBytes?_byteLength ..
  have hcaret : Location.caret ⟨1, (stray n).toList, n + 1⟩ = n + 1 := by
    simp only [Location.caret, Location.charColumn, Location.indent, toList_stray, hdrop]
    simp [Location.isIndent]
  have hc := ha rfl _ (by rw [diagnostics_stray]; exact List.mem_singleton_self _) _ hl
  rw [hcaret] at hc
  exact absurd (Nat.lt_of_lt_of_le (Nat.lt_succ_self n) hc) (Nat.not_lt_of_le h)

end Stray

end Prompt

end FrontEnd
