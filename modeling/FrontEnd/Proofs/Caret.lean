import Mathlib.Data.List.DropRight
import FrontEnd.Report
import FrontEnd.Proofs.Blame
import FrontEnd.Proofs.Lines

/-!
Where the caret of a report stands. A report shows a line without the blanks around it, and a caret
as many characters behind the first one shown as the place is behind the indentation; where these
are too many there is no report. So wherever both reach that far, the caret is under the character
of the place. No token begins with a blank, hence the place of a recorded diagnostic is never inside
the indentation.
-/

namespace FrontEnd

open Text

def gutter (number : Nat) : String :=
  toString number ++ " | "

namespace Location

theorem isIndent_eq_false {c : Char} (h : isBlank c = false) : isIndent c = false := by
  simp only [isBlank, Bool.or_eq_false_iff] at h
  simp only [isIndent, Bool.or_eq_false_iff]
  exact h.1.1

variable (l : Location)

def margin : String :=
  String.ofList (List.replicate ((toString l.number).length + 1) ' ') ++ "|"

def pointer : String :=
  l.margin ++ " " ++ String.ofList (List.replicate l.caret '-')

theorem excerpt_eq (h : l.caret ≤ caretLimit) : l.excerpt = .ok (l.margin ++ "\n" ++
    gutter l.number ++ String.ofList l.shown ++ "\n" ++ l.pointer ++ "^\n") := by
  unfold excerpt gutter pointer margin
  simp only [if_pos h, String.append_assoc]

theorem excerpt_eq_error (h : caretLimit < l.caret) : l.excerpt = .error .caretTooFar :=
  if_neg (Nat.not_le_of_lt h)

theorem length_pointer : l.pointer.length = (gutter l.number).length + l.caret := by
  have hm : l.margin.length + " ".length = (gutter l.number).length := by
    simp only [margin, gutter, String.length_append, String.length_ofList, List.length_replicate]
    rfl
  rw [pointer, String.length_append, String.length_append, hm, String.length_ofList,
    List.length_replicate]

theorem mem_pointer : ∀ c ∈ l.pointer.toList, c = ' ' ∨ c = '|' ∨ c = '-' := by
  intro c hc
  simp only [pointer, margin, String.toList_append, String.toList_ofList, String.reduceToList,
    List.mem_append, List.mem_replicate, List.mem_singleton] at hc
  tauto

end Location

/-- A text around a place in it. The line of the place is cut there, into `lead` and `rest`, and cut
once more into what is shown of it and the blanks in front of and behind that. -/
structure Excerpt where
  earlier : List (List Char)
  lead : List Char
  rest : List Char
  later : List Char
  indent : List Char
  shown : List Char
  trailing : List Char
  earlier_feed : ∀ line ∈ earlier, EndsInFeed line
  lead_feed : '\n' ∉ lead
  rest_feed : EndsInFeed rest ∨ '\n' ∉ rest ∧ later = []
  line_eq : lead ++ rest = indent ++ (shown ++ trailing)
  indent_blank : ∀ c ∈ indent, Location.isIndent c = true
  indent_end : ∀ c ∈ (shown ++ trailing).head?, Location.isIndent c = false
  trailing_blank : ∀ c ∈ trailing, isWhiteSpace c = true
  shown_end : ∀ c ∈ shown.getLast?, isWhiteSpace c = false

namespace Excerpt

def before (e : Excerpt) : List Char :=
  e.earlier.flatten ++ e.lead

def after (e : Excerpt) : List Char :=
  e.rest ++ e.later

/-- From the end of the indentation to the place, in characters. -/
def caret (e : Excerpt) : Nat :=
  e.lead.length - e.indent.length

/-- The report has the line with its number, and on the next line nothing but a caret and what is
in front of it. -/
def Drawn (e : Excerpt) (report : String) : Prop :=
  ∃ heading margin tip,
    report = heading ++ "\n" ++ gutter (e.before.count '\n' + 1) ++ String.ofList e.shown ++ "\n" ++
      margin ++ "^\n" ++ tip ∧
    margin.length = (gutter (e.before.count '\n' + 1)).length + e.caret ∧
    '\n' ∉ e.shown ∧ '\n' ∉ margin.toList ∧ '^' ∉ margin.toList

/-- A report comes to its drawing, unless the caret is too far to the right. -/
inductive Gives (e : Excerpt) : Except ReportError String → Prop
  | drawn {report : String} : e.caret ≤ Location.caretLimit → e.Drawn report → e.Gives (.ok report)
  | caretTooFar : Location.caretLimit < e.caret → e.Gives (.error .caretTooFar)

def location (e : Excerpt) : Location :=
  ⟨e.earlier.length + 1, e.lead ++ e.rest, byteLength e.lead⟩

variable (e : Excerpt)

theorem liesIn : e.location.LiesIn e.earlier e.later (e.before ++ e.after) := by
  refine ⟨?_, rfl, e.earlier_feed, ?_⟩
  · simp [before, after, location]
  · rcases e.rest_feed with ⟨body, hr, hb⟩ | ⟨hr, hl⟩
    · refine .inl ⟨⟨e.lead ++ body, ?_, ?_⟩, ?_⟩
      · rw [location, hr, List.append_assoc]
      · simpa using ⟨e.lead_feed, hb⟩
      · rw [location, hr, byteLength_append]
        exact Nat.lt_add_of_pos_right (byteLength_pos (by simp))
    · refine .inr ⟨?_, hl, ?_⟩
      · simpa [location] using ⟨e.lead_feed, hr⟩
      · simp [location]

theorem number_location : e.location.number = e.before.count '\n' + 1 := by
  rw [before, List.count_append, Location.LiesIn.count_flatten e.earlier_feed,
    List.count_eq_zero.mpr e.lead_feed]
  rfl

theorem charColumn_location : e.location.charColumn = e.lead.length := by
  simp [Location.charColumn, location, dropBytes?_byteLength]

/-- The line feed at the end of a line is white space, so it is not shown. -/
theorem shown_feed : '\n' ∉ e.shown := by
  intro h
  rcases e.liesIn.line with ⟨⟨body, ht, hb⟩, -⟩ | ⟨ht, -⟩
  · obtain ⟨as, bs, hs⟩ := List.append_of_mem h
    have hl : body ++ '\n' :: [] = e.indent ++ as ++ '\n' :: (bs ++ e.trailing) := by
      rw [← ht, location, e.line_eq, hs]
      simp
    obtain ⟨-, -, hz⟩ := (List.append_cons_inj_of_notMem hb List.not_mem_nil).mp hl
    have hw := e.shown_end '\n' (by simp [hs, (List.append_eq_nil_iff.mp hz.symm).1])
    exact absurd hw (by decide)
  · rw [location, e.line_eq] at ht
    exact ht (List.mem_append_right _ (List.mem_append_left _ h))

theorem locate?_eq {source : String} {offset : UInt32} (hs : source.toList = e.before ++ e.after)
    (ho : offset.toNat = byteLength e.before) : locate? source offset = some e.location := by
  refine locate?_eq_some_iff.mpr ⟨e.earlier, e.later, hs ▸ e.liesIn, ?_⟩
  rw [ho, before, byteLength_append, sum_byteLength]
  rfl

variable {e}

/-- Behind the indentation, the line up to the place and the line from there on are cut anew. -/
theorem exists_middle (h : e.indent.length ≤ e.lead.length) :
    ∃ middle, e.lead = e.indent ++ middle ∧ middle ++ e.rest = e.shown ++ e.trailing := by
  obtain ⟨middle, hm⟩ : e.indent <+: e.lead :=
    List.prefix_of_prefix_length_le ⟨_, e.line_eq.symm⟩ (List.prefix_append ..) h
  refine ⟨middle, hm.symm, ?_⟩
  have hl := e.line_eq
  rw [← hm, List.append_assoc] at hl
  exact List.append_cancel_left hl

theorem caret_eq_length {middle : List Char} (h : e.lead = e.indent ++ middle) :
    e.caret = middle.length := by
  rw [caret, h, List.length_append, Nat.add_sub_cancel_left]

theorem head?_after : e.after.head? = e.rest.head? := by
  cases hr : e.rest with
  | nil =>
      rcases e.rest_feed with ⟨body, hb, -⟩ | ⟨-, hl⟩
      · simp [hr] at hb
      · simp [after, hr, hl]
  | cons c cs => simp [after, hr]

/-- The caret is under the character of the place, unless the line that is shown is too short. -/
theorem getElem?_caret (h : e.indent.length ≤ e.lead.length) (hc : e.caret < e.shown.length) :
    e.shown[e.caret]? = e.after.head? := by
  obtain ⟨middle, hm, hr⟩ := exists_middle h
  have hs : (e.shown ++ e.trailing)[e.caret]? = e.shown[e.caret]? := List.getElem?_append_left hc
  rw [← hs, ← hr, caret_eq_length hm, List.getElem?_append_right (Nat.le_refl _), Nat.sub_self,
    head?_after, List.head?_eq_getElem?]

/-- A line that is shown is too short only where nothing but white space follows. -/
theorem isWhiteSpace_of_mem_rest (h : e.indent.length ≤ e.lead.length)
    (hc : e.shown.length ≤ e.caret) : ∀ c ∈ e.rest, isWhiteSpace c = true := by
  obtain ⟨middle, hm, hr⟩ := exists_middle h
  rw [caret_eq_length hm] at hc
  have hs : e.rest <:+ e.trailing := by
    refine List.suffix_of_suffix_length_le ⟨middle, hr⟩ (List.suffix_append ..) ?_
    have hl := congrArg List.length hr
    simp only [List.length_append] at hl
    omega
  exact fun c hm => e.trailing_blank c (hs.subset hm)

/-- Where the text goes on with another character than a blank, the indentation is over. -/
theorem indent_le (h : ∀ c ∈ e.after.head?, Location.isIndent c = false) :
    e.indent.length ≤ e.lead.length := by
  refine Nat.le_of_not_lt fun hlt => ?_
  obtain ⟨middle, hm⟩ : e.lead <+: e.indent :=
    List.prefix_of_prefix_length_le (List.prefix_append ..) ⟨_, e.line_eq.symm⟩ (Nat.le_of_lt hlt)
  have hl := e.line_eq
  rw [← hm, List.append_assoc] at hl
  have hr := List.append_cancel_left hl
  cases middle with
  | nil => simp [← hm] at hlt
  | cons c cs =>
      have hb := e.indent_blank c (hm ▸ List.mem_append_right _ (List.mem_cons_self ..))
      rw [h c (by simp [head?_after, hr])] at hb
      contradiction

end Excerpt

theorem eq_false_of_mem_head?_dropWhile {p : Char → Bool} {c : Char} {cs : List Char}
    (h : c ∈ (cs.dropWhile p).head?) : p c = false := by
  have hb := List.head?_dropWhile_not p cs
  rw [Option.mem_def.mp h] at hb
  exact hb

theorem exists_lines (before : List Char) :
    ∃ (earlier : List (List Char)) (lead : List Char), before = earlier.flatten ++ lead ∧
      (∀ line ∈ earlier, EndsInFeed line) ∧ '\n' ∉ lead := by
  -- By the last character: either it ends the line, or the line goes on with it.
  induction before using List.reverseRecOn with
  | nil => exact ⟨[], [], rfl, List.forall_mem_nil _, List.not_mem_nil⟩
  | append_singleton cs c ih =>
      obtain ⟨earlier, lead, rfl, he, hl⟩ := ih
      by_cases hc : c = '\n'
      · subst hc
        refine ⟨earlier ++ [lead ++ ['\n']], [], by simp, ?_, List.not_mem_nil⟩
        exact List.forall_mem_append.mpr ⟨he, List.forall_mem_singleton.mpr ⟨lead, rfl, hl⟩⟩
      · refine ⟨earlier, lead ++ [c], by simp, he, ?_⟩
        simpa using ⟨hl, Ne.symm hc⟩

theorem exists_rest (after : List Char) :
    ∃ rest later, after = rest ++ later ∧ (EndsInFeed rest ∨ '\n' ∉ rest ∧ later = []) := by
  by_cases hf : '\n' ∈ after
  · obtain ⟨body, later, rfl, hb⟩ := List.eq_append_cons_of_mem hf
    exact ⟨body ++ ['\n'], later, by simp, .inl ⟨body, rfl, hb⟩⟩
  · exact ⟨after, [], by simp, .inr ⟨hf, rfl⟩⟩

/-- Around every place there is an excerpt that shows its line as it is located. -/
theorem exists_excerpt (before after : List Char) :
    ∃ e : Excerpt, e.before = before ∧ e.after = after ∧
      e.location.indent = e.indent.length ∧ e.location.shown = e.shown := by
  obtain ⟨earlier, lead, rfl, he, hl⟩ := exists_lines before
  obtain ⟨rest, later, rfl, hr⟩ := exists_rest after
  have hline : (lead ++ rest).takeWhile Location.isIndent ++
      (lead ++ rest).dropWhile Location.isIndent = lead ++ rest :=
    List.takeWhile_append_dropWhile
  generalize htrim : (lead ++ rest).dropWhile Location.isIndent = trimmed at hline
  refine ⟨{
    earlier, lead, rest, later
    indent := (lead ++ rest).takeWhile Location.isIndent
    shown := trimmed.rdropWhile isWhiteSpace
    trailing := trimmed.rtakeWhile isWhiteSpace
    earlier_feed := he
    lead_feed := hl
    rest_feed := hr
    line_eq := ?_
    indent_blank := fun c => List.mem_takeWhile_imp
    indent_end := ?_
    trailing_blank := fun c => List.mem_rtakeWhile_imp
    shown_end := ?_ }, rfl, rfl, rfl, ?_⟩
  · rw [List.rdropWhile_append_rtakeWhile, hline]
  · intro c hc
    rw [List.rdropWhile_append_rtakeWhile, ← htrim] at hc
    exact eq_false_of_mem_head?_dropWhile hc
  · intro c hc
    rw [List.rdropWhile, List.getLast?_reverse] at hc
    exact eq_false_of_mem_head?_dropWhile hc
  · exact congrArg (List.rdropWhile isWhiteSpace) htrim

theorem Diagnostic.report_of_locate? {d : Diagnostic} {source : String} {l : Location}
    (h : locate? source d.position.offset = some l) :
    d.report source = l.excerpt.map fun excerpt =>
      "Error: " ++ d.cause.name ++ " (" ++ d.cause.message ++ ")\n" ++ "-> " ++
        d.position.source ++ "\n" ++ excerpt ++
        (d.cause.tip?.map fun tip => "tip: " ++ tip ++ "\n").getD "" := by
  rw [report, h]
  rfl

/-- A report about a place in a source is drawn as its excerpt says. -/
theorem Diagnostic.exists_gives {d : Diagnostic} {source : String} {before after : List Char}
    (hs : source.toList = before ++ after) (ho : d.position.offset.toNat = byteLength before) :
    ∃ e : Excerpt, e.before = before ∧ e.after = after ∧ e.Gives (d.report source) := by
  obtain ⟨e, rfl, rfl, hi, hsh⟩ := exists_excerpt before after
  have hc : e.location.caret = e.caret := by
    rw [Location.caret, e.charColumn_location, hi, Excerpt.caret]
  refine ⟨e, rfl, rfl, ?_⟩
  rw [report_of_locate? (e.locate?_eq hs ho)]
  rcases Nat.lt_or_ge Location.caretLimit e.caret with hlt | hle
  · rw [e.location.excerpt_eq_error (hc ▸ hlt)]
    exact .caretTooFar hlt
  · have hl := e.location.length_pointer
    rw [e.number_location, hc] at hl
    rw [e.location.excerpt_eq (hc ▸ hle), e.number_location, hsh]
    refine .drawn hle ⟨"Error: " ++ d.cause.name ++ " (" ++ d.cause.message ++ ")\n" ++ "-> " ++
      d.position.source ++ "\n" ++ e.location.margin, e.location.pointer,
      (d.cause.tip?.map fun tip => "tip: " ++ tip ++ "\n").getD "", ?_, hl, e.shown_feed, ?_, ?_⟩
    · simp only [String.append_assoc]
    · intro h
      simpa using e.location.mem_pointer _ h
    · intro h
      simpa using e.location.mem_pointer _ h

/-- The text from some place on begins with the token, or is empty if the token ends the text. -/
def Token.Heads (t : Token) (after : List Char) : Prop :=
  t.kind = .eof ∧ after = [] ∨
    t.kind ≠ .eof ∧ ∃ c, t.literal.toList.head? = some c ∧ isBlank c = false ∧
      t.literal.toList <+: after

/-- The caret is under the first character of the token. Otherwise the token ends the text, or there
is nothing but white space from it to the end of the line. -/
def Excerpt.Marks (e : Excerpt) (t : Token) : Prop :=
  t.kind = .eof ∧ e.after = [] ∨
    t.kind ≠ .eof ∧ ∃ c, t.literal.toList.head? = some c ∧ t.literal.toList <+: e.after ∧
      (e.shown[e.caret]? = some c ∨ ∀ d ∈ e.rest, isWhiteSpace d = true)

theorem Lexer.next_start (l : Lexer) :
    l.next.1.span.start = .ofOffset l.source l.skipBlanks.pos := by
  unfold next
  simp only
  split <;> rfl

/-- The next token heads the text from where it starts. -/
theorem Lexer.StandsIn.exists_heads {l : Lexer} {cs : List Char} (h : l.StandsIn cs)
    (hc : byteLength cs < UInt32.size) :
    ∃ before after, cs = before ++ after ∧
      l.next.1.span.start.offset.toNat = byteLength before ∧ l.next.1.Heads after := by
  obtain ⟨before, hcs, hp⟩ := h.skipBlanks
  refine ⟨before, l.skipBlanks.rest, hcs, ?_, ?_⟩
  · have hlt : l.skipBlanks.pos < UInt32.size := by
      rw [hcs, byteLength_append] at hc
      omega
    rw [next_start, ← hp]
    exact UInt32.toNat_ofNat.trans (Nat.mod_eq_of_lt hlt)
  · by_cases hk : l.next.1.kind = .eof
    · exact .inl ⟨hk, skipBlanks_rest_nil_of_eof hk⟩
    · obtain ⟨hn, hr, -, -⟩ := next_cut hk
      obtain ⟨c, literal, hl⟩ := List.exists_cons_of_ne_nil hn
      refine .inr ⟨hk, c, by rw [hl]; rfl, ?_, ⟨_, hr.symm⟩⟩
      rw [hl, List.cons_append] at hr
      exact isBlank_eq_false_of_skipBlanks hr

theorem exists_heads_tokenAt {text : String} (name : Option String) (i : Nat)
    (hc : byteLength text.toList < UInt32.size) :
    ∃ before after, text.toList = before ++ after ∧
      (tokenAt text name i).span.start.offset.toNat = byteLength before ∧
      (tokenAt text name i).Heads after := by
  rw [tokenAt, ← ((yields_source text name).after i).next_fst]
  exact ((Lexer.standsIn_ofText text name).after i).exists_heads hc

theorem Token.Heads.marks {t : Token} {e : Excerpt} (h : t.Heads e.after) :
    e.indent.length ≤ e.lead.length ∧ e.Marks t := by
  rcases h with ⟨hk, hn⟩ | ⟨hk, c, hl, hb, hp⟩
  · exact ⟨e.indent_le (by simp [hn]), .inl ⟨hk, hn⟩⟩
  · have ha : e.after.head? = some c := by
      obtain ⟨rest, hr⟩ := hp
      rw [← hr, List.head?_append, hl]
      rfl
    have hi : e.indent.length ≤ e.lead.length := by
      refine e.indent_le fun d hd => ?_
      cases ha.symm.trans hd
      exact Location.isIndent_eq_false hb
    refine ⟨hi, .inr ⟨hk, c, hl, hp, ?_⟩⟩
    -- A token like a no-break space may itself be trimmed off at the end of its line.
    rcases Nat.lt_or_ge e.caret e.shown.length with hlt | hle
    · exact .inl ((e.getElem?_caret hi hlt).trans ha)
    · exact .inr (e.isWhiteSpace_of_mem_rest hi hle)

/-- A caret is where it should be. For whatever place between two characters of a source, a report
shows the line of the place and a caret that is under the character there, if both reach that far;
there is no report where the caret would have to stand beyond its limit.
For a diagnostic that was recorded there is such a place, it is not inside the indentation, and the
caret is under the first character of a token that the diagnostic is about. -/
theorem Diagnostic.report_marks_token :
    (∀ (d : Diagnostic) (source : String) (before after : List Char),
      source.toList = before ++ after → d.position.offset.toNat = byteLength before →
        ∃ e : Excerpt, e.before = before ∧ e.after = after ∧ e.Gives (d.report source) ∧
          (e.indent.length ≤ e.lead.length → e.caret < e.shown.length →
            e.shown[e.caret]? = e.after.head?)) ∧
      ∀ (text : String) (name : Option String) (values : Values),
        byteLength text.toList < UInt32.size → ∀ d ∈ (parse text name values).2.diagnostics,
          ∃ e : Excerpt, text.toList = e.before ++ e.after ∧
            d.position.offset.toNat = byteLength e.before ∧ e.Gives (d.report text) ∧
            e.indent.length ≤ e.lead.length ∧
            ∃ t ∈ tokenize text name, d.position = t.span.start ∧ d.cause.Fits t ∧ e.Marks t := by
  refine ⟨fun d source before after hs ho => ?_, fun text name values hc d hd => ?_⟩
  · obtain ⟨e, hb, ha, hr⟩ := d.exists_gives hs ho
    exact ⟨e, hb, ha, hr, e.getElem?_caret⟩
  · obtain ⟨i, hposition, hcause⟩ := parse_concerns text name values d hd
    obtain ⟨before, after, hs, ho, hh⟩ := exists_heads_tokenAt name i hc
    rw [← hposition] at ho
    obtain ⟨e, rfl, rfl, hr⟩ := d.exists_gives hs ho
    exact ⟨e, hs, ho, hr, hh.marks.1, _, tokenAt_mem_tokenize text name i, hposition, hcause,
      hh.marks.2⟩

example : ((⟨.noStart .star, ⟨9, "test.cok"⟩⟩ : Diagnostic).report "a;\n\té + *;\r\n").toOption =
    some ("Error: NoPrefixParseFn (no prefix parse function for Star found)\n-> test.cok\n  |\n" ++
      "2 | é + *;\n  | ----^\ntip: an expression cannot start with this token\n") := by
  decide +kernel

end FrontEnd
