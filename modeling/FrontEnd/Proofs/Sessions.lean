import FrontEnd.Proofs.Answers

/-!
Sessions at the prompt, line by line. A line is answered from its own text alone, so that behind a
line feed a session goes on as one that begins there. Two things end it early: a line that is not
UTF-8, and a line whose answer breaks off. A line feed is a character of its own, hence an input is
UTF-8 if all its lines are.
-/

namespace FrontEnd

namespace Text

def IsUtf8 (input : List UInt8) : Prop :=
  ∃ text : String, bytes text.toList = input

variable {input more : List UInt8}

theorem isUtf8_bytes (cs : List Char) : IsUtf8 (bytes cs) :=
  ⟨String.ofList cs, by rw [String.toList_ofList]⟩

theorem IsUtf8.append (h : IsUtf8 input) (h' : IsUtf8 more) : IsUtf8 (input ++ more) := by
  obtain ⟨text, rfl⟩ := h
  obtain ⟨text', rfl⟩ := h'
  rw [← bytes_append]
  exact isUtf8_bytes _

theorem decode_of_not_isUtf8 (h : ¬ IsUtf8 input) : decode input = .error .notUtf8 := by
  cases hd : decode input with
  | ok text => exact absurd ⟨text, (decode_eq_ok_iff.mp hd).symm⟩ h
  | error e => cases e; rfl

end Text

open Text

namespace Prompt

/-- The input has no last line that is left without a line feed. -/
def IsComplete (input : List UInt8) : Prop :=
  input = [] ∨ input.getLast? = some lineFeed

def IsLine (line later : List UInt8) : Prop :=
  (∃ body, line = body ++ [lineFeed] ∧ lineFeed ∉ body) ∨
    line ≠ [] ∧ lineFeed ∉ line ∧ later = []

/-- Behind complete lines that are all answered comes another line. -/
structure Reaches (mode : Mode) (values : Values) (input : List UInt8) (texts : List String)
    (line later : List UInt8) : Prop where
  before : ∃ text, HasLines text texts ∧ IsComplete (bytes text.toList) ∧
    input = bytes text.toList ++ (line ++ later)
  answered : ∀ text ∈ texts, IsAnswered mode values text
  isLine : IsLine line later

/-- How a session ends, and what it has printed by then. -/
inductive Ends (mode : Mode) (values : Values) (input : List UInt8) : Option Failure → String → Prop
  | atEnd {text : String} {texts : List String} :
      input = bytes text.toList → HasLines text texts →
      (∀ line ∈ texts, IsAnswered mode values line) →
      Ends mode values input none (String.join (texts.map (answered mode values)) ++ mark)
  | unreadable {texts : List String} {line later : List UInt8} :
      Reaches mode values input texts line later → ¬ IsUtf8 line →
      Ends mode values input (some (.unreadable .notUtf8))
        (String.join (texts.map (answered mode values)) ++ mark)
  | unshown {texts : List String} {text line : String} {shown : List Diagnostic}
      {later : List UInt8} :
      Reaches mode values input texts (bytes text.toList) later → HasLines text [line] →
      BreaksOff mode values line shown →
      Ends mode values input (some (.unshown .caretTooFar))
        (String.join (texts.map (answered mode values)) ++
          (mark ++ (Diagnostic.reports line shown).1))

section Lines

variable {input more body rest : List UInt8}

/-- A line feed is no part of another character. -/
theorem isUtf8_feed (h : lineFeed ∉ body) :
    IsUtf8 (body ++ lineFeed :: rest) ↔ IsUtf8 body ∧ IsUtf8 rest := by
  constructor
  · rintro ⟨text, ht⟩
    have hm : '\n' ∈ text.toList := by
      rw [← lineFeed_mem_bytes, ht]
      exact List.mem_append_right _ (List.mem_cons_self ..)
    obtain ⟨cs, ds, hcs, hf⟩ := List.eq_append_cons_of_mem hm
    rw [hcs, bytes_feed] at ht
    obtain ⟨rfl, rfl⟩ := cut_inj (mt lineFeed_mem_bytes.mp hf) h ht
    exact ⟨isUtf8_bytes cs, isUtf8_bytes ds⟩
  · rintro ⟨hb, hr⟩
    exact hb.append ((isUtf8_bytes ['\n']).append hr)

theorem isUtf8_dropReturn : IsUtf8 (dropReturn body) ↔ IsUtf8 body := by
  rw [dropReturn]
  split
  · next hr =>
      obtain ⟨line, rfl⟩ := List.getLast?_eq_some_iff.mp hr
      rw [List.dropLast_concat]
      constructor
      · exact fun h => h.append (isUtf8_bytes ['\r'])
      · rintro ⟨text, ht⟩
        rw [← ht] at hr
        have hl := (getLast?_bytes (a := '\r') (by decide)).mp hr
        obtain ⟨cs, hcs⟩ := List.getLast?_eq_some_iff.mp hl
        rw [hcs, bytes_append] at ht
        exact List.append_cancel_right ht ▸ isUtf8_bytes cs
  · rfl

theorem isComplete_feed : IsComplete (body ++ lineFeed :: rest) ↔ IsComplete rest := by
  cases rest with
  | nil => exact ⟨fun _ => .inl rfl, fun _ => .inr List.getLast?_concat⟩
  | cons b rest => simp [IsComplete]

/-- Behind the last line feed, an input is UTF-8 for itself. -/
theorem isUtf8_append_iff (h : IsComplete input) :
    IsUtf8 (input ++ more) ↔ IsUtf8 input ∧ IsUtf8 more := by
  induction input using cut_induction lineFeed with
  | last body hf =>
      obtain rfl := h.resolve_right fun hl => hf (List.mem_of_getLast? hl)
      exact (and_iff_right (isUtf8_bytes [])).symm
  | cut body rest hf ih =>
      rw [List.append_assoc, List.cons_append, isUtf8_feed hf, isUtf8_feed hf,
        ih (isComplete_feed.mp h), and_assoc]

/-- The lines of what follows begin behind the last line feed. -/
theorem lines_append (h : IsComplete input) (more : List UInt8) :
    lines (input ++ more) = lines input ++ lines more := by
  induction input using cut_induction lineFeed with
  | last body hf =>
      obtain rfl := h.resolve_right fun hl => hf (List.mem_of_getLast? hl)
      rw [lines_nil]
      rfl
  | cut body rest hf ih =>
      rw [List.append_assoc, List.cons_append, lines_feed hf, lines_feed hf,
        ih (isComplete_feed.mp h), List.cons_append]

/-- A line in UTF-8 that a line feed ends is a line of a text. -/
theorem exists_hasLines_feed (hf : lineFeed ∉ body) (h : IsUtf8 body) :
    ∃ text line, bytes text.toList = body ++ [lineFeed] ∧ dropReturn body = bytes line.toList ∧
      HasLines text [line] := by
  have hnil : IsUtf8 [] := isUtf8_bytes []
  obtain ⟨text, ht⟩ := (isUtf8_feed hf).mpr ⟨h, hnil⟩
  obtain ⟨texts, hl⟩ := exists_hasLines text
  have hlines := hl.lines_bytes
  rw [ht, lines_feed hf, lines_nil] at hlines
  obtain ⟨line, rfl, hb⟩ := List.map_eq_singleton_iff.mp hlines.symm
  exact ⟨text, line, ht, hb.symm, hl⟩

end Lines

section Answers

variable {mode : Mode} {values : Values} {line : String} {ls : List (List UInt8)}

theorem converse_unreadable {line : List UInt8} (h : ¬ IsUtf8 line) :
    converse mode values (line :: ls) = ⟨mark, some (.unreadable .notUtf8), []⟩ := by
  rw [converse, decode_of_not_isUtf8 h]

theorem converse_answered (h : IsAnswered mode values line) (ls : List (List UInt8)) :
    (converse mode values (bytes line.toList :: ls)).output =
        answered mode values line ++ (converse mode values ls).output ∧
      (converse mode values (bytes line.toList :: ls)).failure =
        (converse mode values ls).failure := by
  rw [converse, decode_eq_ok_iff.mpr rfl]
  simp only [failure_of_isAnswered h]
  exact ⟨rfl, trivial⟩

theorem exists_converse_unshown (h : ¬ IsAnswered mode values line) :
    ∃ shown, BreaksOff mode values line shown ∧ ∀ ls : List (List UInt8),
      (converse mode values (bytes line.toList :: ls)).output =
          mark ++ (Diagnostic.reports line shown).1 ∧
        (converse mode values (bytes line.toList :: ls)).failure =
          some (.unshown .caretTooFar) := by
  obtain ⟨shown, hb, ho, hf⟩ := exists_breaksOff h
  refine ⟨shown, hb, fun ls => ?_⟩
  rw [converse, decode_eq_ok_iff.mpr rfl]
  simp only [hf, ho]
  exact ⟨trivial, trivial⟩

/-- Whatever follows, a line is answered and the session goes on, or else the session ends. -/
theorem converse_step (mode : Mode) (values : Values) (line : List UInt8) :
    (∃ printed, ∀ ls,
      (converse mode values (line :: ls)).output = printed ++ (converse mode values ls).output ∧
        (converse mode values (line :: ls)).failure = (converse mode values ls).failure) ∨
      ∃ printed e, ∀ ls,
        (converse mode values (line :: ls)).output = printed ∧
          (converse mode values (line :: ls)).failure = some e := by
  by_cases hl : IsUtf8 line
  · obtain ⟨line, rfl⟩ := hl
    by_cases ha : IsAnswered mode values line
    · exact .inl ⟨_, converse_answered ha⟩
    · obtain ⟨shown, -, hc⟩ := exists_converse_unshown ha
      exact .inr ⟨_, _, hc⟩
  · refine .inr ⟨mark, .unreadable .notUtf8, fun ls => ?_⟩
    rw [converse_unreadable hl]
    exact ⟨rfl, rfl⟩

/-- A session that has not failed goes on as if it began behind its last line. -/
theorem exists_printed (h : (converse mode values ls).failure = none) :
    ∃ printed, (converse mode values ls).output = printed ++ mark ∧
      ∀ ms, (converse mode values (ls ++ ms)).output =
          printed ++ (converse mode values ms).output ∧
        (converse mode values (ls ++ ms)).failure = (converse mode values ms).failure := by
  induction ls with
  | nil => exact ⟨"", rfl, fun ms => ⟨String.empty_append.symm, rfl⟩⟩
  | cons line ls ih =>
      rcases converse_step mode values line with ⟨out, hc⟩ | ⟨out, e, hc⟩
      · obtain ⟨printed, hp, hms⟩ := ih ((hc ls).2 ▸ h)
        refine ⟨out ++ printed, ?_, fun ms => ?_⟩
        · rw [(hc ls).1, hp, String.append_assoc]
        · obtain ⟨ho, hf⟩ := hms ms
          rw [List.cons_append, (hc _).1, (hc _).2, ho, String.append_assoc]
          exact ⟨rfl, hf⟩
      · rw [(hc ls).2] at h
        contradiction

/-- Behind a line that ended the session, nothing matters. -/
theorem converse_append_of_failure (h : (converse mode values ls).failure ≠ none)
    (ms : List (List UInt8)) :
    (converse mode values (ls ++ ms)).output = (converse mode values ls).output ∧
      (converse mode values (ls ++ ms)).failure = (converse mode values ls).failure := by
  induction ls with
  | nil => exact absurd rfl h
  | cons line ls ih =>
      rcases converse_step mode values line with ⟨out, hc⟩ | ⟨out, e, hc⟩
      · obtain ⟨ho, hf⟩ := ih ((hc ls).2 ▸ h)
        rw [List.cons_append, (hc _).1, (hc _).2, (hc ls).1, (hc ls).2, ho]
        exact ⟨rfl, hf⟩
      · rw [List.cons_append, (hc _).1, (hc _).2, (hc ls).1, (hc ls).2]
        exact ⟨rfl, rfl⟩

end Answers

section Ends

variable {mode : Mode} {values : Values} {input body line later : List UInt8} {texts : List String}

theorem IsComplete.append {more : List UInt8} (h : IsComplete input) (h' : IsComplete more) :
    IsComplete (input ++ more) := by
  rcases h' with rfl | h'
  · rwa [List.append_nil]
  · exact .inr (List.mem_getLast?_append_of_mem_getLast? h')

theorem hasLines_append {text rest : String} {others : List String} (h : HasLines text texts)
    (hc : IsComplete (bytes text.toList)) (h' : HasLines rest others) :
    HasLines (text ++ rest) (texts ++ others) := by
  obtain ⟨all, ha⟩ := exists_hasLines (text ++ rest)
  have hl := ha.lines_bytes
  rw [String.toList_append, bytes_append, lines_append hc, h.lines_bytes, h'.lines_bytes,
    ← List.map_append] at hl
  exact (List.map_inj_right bytes_injective).mp hl ▸ ha

theorem join_answered_cons (first : String) (output : String) :
    answered mode values first ++ (String.join (texts.map (answered mode values)) ++ output) =
      String.join ((first :: texts).map (answered mode values)) ++ output := by
  rw [List.map_cons, String.join_cons, String.append_assoc]

theorem Reaches.first (mode : Mode) (values : Values) (h : IsLine line later) :
    Reaches mode values (line ++ later) [] line later :=
  ⟨⟨"", .none, .inl rfl, rfl⟩, List.forall_mem_nil _, h⟩

section

variable {text first : String} (hl : HasLines text [first]) (hc : IsComplete (bytes text.toList))
  (ha : IsAnswered mode values first)
include hl hc ha

theorem Reaches.cons (h : Reaches mode values input texts line later) :
    Reaches mode values (bytes text.toList ++ input) (first :: texts) line later := by
  obtain ⟨rest, hr, hrc, rfl⟩ := h.before
  have ht : bytes (text ++ rest).toList = bytes text.toList ++ bytes rest.toList := by
    rw [String.toList_append, bytes_append]
  refine ⟨⟨text ++ rest, hasLines_append hl hc hr, ht ▸ hc.append hrc, ?_⟩,
    List.forall_mem_cons.mpr ⟨ha, h.answered⟩, h.isLine⟩
  rw [ht, List.append_assoc]

theorem Ends.cons {failure : Option Failure} {output : String}
    (h : Ends mode values input failure output) :
    Ends mode values (bytes text.toList ++ input) failure
      (answered mode values first ++ output) := by
  cases h with
  | @atEnd rest texts hi hr hall =>
      have ht : bytes text.toList ++ input = bytes (text ++ rest).toList := by
        rw [hi, String.toList_append, bytes_append]
      rw [join_answered_cons]
      exact .atEnd ht (hasLines_append hl hc hr) (List.forall_mem_cons.mpr ⟨ha, hall⟩)
  | unreadable hr hu =>
      rw [join_answered_cons]
      exact .unreadable (hr.cons hl hc ha) hu
  | unshown hr ht hb =>
      rw [join_answered_cons]
      exact .unshown (hr.cons hl hc ha) ht hb

end

theorem ends_unreadable (mode : Mode) (values : Values) (hs : IsLine line later)
    (hl : ¬ IsUtf8 line) (hb : ¬ IsUtf8 body) (ls : List (List UInt8)) :
    Ends mode values (line ++ later) (converse mode values (body :: ls)).failure
      (converse mode values (body :: ls)).output := by
  rw [converse_unreadable hb]
  exact .unreadable (.first mode values hs) hl

theorem ends_unshown {text line : String} (hs : IsLine (bytes text.toList) later)
    (hl : HasLines text [line]) (ha : ¬ IsAnswered mode values line) (ls : List (List UInt8)) :
    Ends mode values (bytes text.toList ++ later)
      (converse mode values (bytes line.toList :: ls)).failure
      (converse mode values (bytes line.toList :: ls)).output := by
  obtain ⟨shown, hb, hc⟩ := exists_converse_unshown ha
  rw [(hc ls).1, (hc ls).2]
  exact .unshown (.first mode values hs) hl hb

theorem ends_converse (mode : Mode) (values : Values) (input : List UInt8) :
    Ends mode values input (converse mode values (lines input)).failure
      (converse mode values (lines input)).output := by
  induction input using cut_induction lineFeed with
  | last body hf =>
      by_cases hn : body = []
      · subst hn
        rw [lines_nil]
        exact .atEnd (congrArg bytes String.toList_empty).symm .none (List.forall_mem_nil _)
      · have hs : IsLine body [] := .inr ⟨hn, hf, rfl⟩
        rw [lines_last hn hf]
        by_cases hu : IsUtf8 body
        · obtain ⟨line, rfl⟩ := hu
          have hl : HasLines line [line] :=
            .last (fun h => hn (h ▸ rfl)) (mt lineFeed_mem_bytes.mpr hf)
          by_cases ha : IsAnswered mode values line
          · obtain ⟨ho, hfail⟩ := converse_answered ha []
            rw [ho, hfail]
            have h : Ends mode values _ none _ :=
              .atEnd rfl hl (List.forall_mem_singleton.mpr ha)
            rwa [← join_answered_cons] at h
          · have h := ends_unshown hs hl ha []
            rwa [List.append_nil] at h
        · have h := ends_unreadable mode values hs hu hu []
          rwa [List.append_nil] at h
  | cut body rest hf ih =>
      have hs : IsLine (body ++ [lineFeed]) rest := .inl ⟨body, rfl, hf⟩
      rw [lines_feed hf, ← List.singleton_append, ← List.append_assoc]
      by_cases hu : IsUtf8 body
      · obtain ⟨text, line, ht, hd, hl⟩ := exists_hasLines_feed hf hu
        rw [← ht] at hs ⊢
        rw [hd]
        by_cases ha : IsAnswered mode values line
        · obtain ⟨ho, hfail⟩ := converse_answered ha (lines rest)
          rw [ho, hfail]
          exact ih.cons hl (ht ▸ .inr List.getLast?_concat) ha
        · exact ends_unshown hs hl ha _
      · exact ends_unreadable mode values hs (fun h => hu ((isUtf8_feed hf).mp h).1)
          (mt isUtf8_dropReturn.mp hu) _

theorem Reaches.not_isUtf8 (h : Reaches mode values input texts line later)
    (hl : ¬ IsUtf8 line) : ¬ IsUtf8 input := by
  obtain ⟨text, -, hc, rfl⟩ := h.before
  rw [isUtf8_append_iff hc]
  rintro ⟨-, hu⟩
  rcases h.isLine with ⟨body, rfl, hf⟩ | ⟨-, -, rfl⟩
  · exact hl ((isUtf8_append_iff (.inr List.getLast?_concat)).mp hu).1
  · rw [List.append_nil] at hu
    exact hl hu

theorem Reaches.mem_lines {text first : String}
    (h : Reaches mode values input texts (bytes text.toList) later) (hl : HasLines text [first]) :
    bytes first.toList ∈ lines input := by
  have hm : bytes first.toList ∈ lines (bytes text.toList) := by
    rw [hl.lines_bytes]
    exact List.mem_singleton_self _
  obtain ⟨before, -, hc, rfl⟩ := h.before
  rw [lines_append hc]
  refine List.mem_append_right _ ?_
  rcases h.isLine with ⟨body, hb, -⟩ | ⟨-, -, rfl⟩
  · rw [lines_append (hb ▸ .inr List.getLast?_concat)]
    exact List.mem_append_left _ hm
  · rwa [List.append_nil]

theorem Ends.eq_none_iff {failure : Option Failure} {output : String}
    (h : Ends mode values input failure output) :
    failure = none ↔
      IsUtf8 input ∧ ∀ line, bytes line.toList ∈ lines input → IsAnswered mode values line := by
  cases h with
  | atEnd hi hl ha =>
      refine iff_of_true rfl ⟨⟨_, hi.symm⟩, fun line hm => ?_⟩
      rw [hi, hl.lines_bytes] at hm
      obtain ⟨line', hm', hb⟩ := List.mem_map.mp hm
      exact bytes_injective hb ▸ ha line' hm'
  | unreadable hr hu => exact iff_of_false nofun fun h => hr.not_isUtf8 hu h.1
  | unshown hr hl hb =>
      exact iff_of_false nofun fun h => hb.not_isAnswered (h.2 _ (hr.mem_lines hl))

end Ends

/-- A session keeps nothing in mind from one line to the next. Behind complete lines that are all
answered, it goes on as one that begins there; behind a line that ended it, nothing makes a
difference. It ends with the mark at the end of the input; with the mark alone for the first line
that is not UTF-8; or in the middle of an answer, at the first diagnostic that cannot be shown. So
it fails on the inputs that are not UTF-8, and on those with a line that has such a diagnostic. -/
theorem session_lines (mode : Mode) (values : Values) :
    (∀ input more, IsComplete input →
      ((session mode values input).failure = none →
        ∃ printed, (session mode values input).output = printed ++ mark ∧
          (session mode values (input ++ more)).output =
            printed ++ (session mode values more).output ∧
          (session mode values (input ++ more)).failure = (session mode values more).failure) ∧
      ((session mode values input).failure ≠ none →
        (session mode values (input ++ more)).output = (session mode values input).output ∧
          (session mode values (input ++ more)).failure =
            (session mode values input).failure)) ∧
      (∀ input,
        Ends mode values input (session mode values input).failure
          (session mode values input).output) ∧
      ∀ input, (session mode values input).failure = none ↔
        IsUtf8 input ∧ ∀ line, bytes line.toList ∈ lines input → IsAnswered mode values line := by
  refine ⟨fun input more hc => ⟨fun hf => ?_, fun hf => ?_⟩, ends_converse mode values,
    fun input => ?_⟩
  · obtain ⟨printed, ho, hp⟩ := exists_printed hf
    rw [session, session, lines_append hc]
    exact ⟨printed, ho, hp (lines more)⟩
  · rw [session, lines_append hc]
    exact converse_append_of_failure hf (lines more)
  · exact (ends_converse mode values input).eq_none_iff

/-- The diagnostic of the first line has no bearing on the second. The third line has a byte that no
text has, and so the fourth is never read. -/
theorem session_lines_unreadable :
    let first := bytes "let\n".toList
    let more := bytes "a\n".toList ++ [255, lineFeed] ++ bytes "b\n".toList
    IsComplete first ∧ (session .program .parsed first).failure = none ∧
      (∀ line, bytes line.toList ∈ lines (first ++ more) → IsAnswered .program .parsed line) ∧
      (∃ printed, (session .program .parsed first).output = printed ++ mark ∧
        (session .program .parsed (first ++ more)).output = printed ++ ">> a\n>> ") ∧
      (session .program .parsed (first ++ more)).failure = some (.unreadable .notUtf8) ∧
      ¬ IsUtf8 (first ++ more) ∧
      ∀ later, (session .program .parsed (first ++ more ++ later)).output =
        (session .program .parsed (first ++ more)).output := by
  intro first more
  have hc : IsComplete first := .inr rfl
  have hf : (session .program .parsed first).failure = none := by decide +kernel
  have hm : (session .program .parsed more).output = ">> a\n>> " ∧
      (session .program .parsed more).failure = some (.unreadable .notUtf8) := by decide +kernel
  have hl : lines (first ++ more) =
      [bytes "let".toList, bytes "a".toList, [255], bytes "b".toList] := by decide +kernel
  have ha : ∀ line, bytes line.toList ∈ lines (first ++ more) →
      IsAnswered .program .parsed line := by
    intro line hline
    refine isAnswered_of_failure ?_
    rw [hl] at hline
    simp only [List.mem_cons, List.not_mem_nil, or_false] at hline
    rcases hline with h | h | h | h
    · rw [bytes_injective h]
      decide +kernel
    · rw [bytes_injective h]
      decide +kernel
    · have hd : decode [255] = .ok line := decode_eq_ok_iff.mpr h.symm
      exact absurd hd nofun
    · rw [bytes_injective h]
      decide +kernel
  obtain ⟨happend, -, hiff⟩ := session_lines .program .parsed
  obtain ⟨printed, ho, hout, hfail⟩ := (happend first more hc).1 hf
  rw [hm.1] at hout
  rw [hm.2] at hfail
  have hne : (session .program .parsed (first ++ more)).failure ≠ none := by
    rw [hfail]
    nofun
  have hcm : IsComplete (first ++ more) := .inr rfl
  exact ⟨hc, hf, ha, ⟨printed, ho, hout⟩, hfail, fun hu => hne ((hiff _).mpr ⟨hu, ha⟩),
    fun later => ((happend (first ++ more) later hcm).2 hne).1⟩

theorem session_stray {n : Nat} (values : Values) (h : Location.caretLimit ≤ n)
    (hn : n + 1 < UInt32.size) :
    (session .program values (bytes (stray n ++ "\n").toList)).output = mark ∧
      (session .program values (bytes (stray n ++ "\n").toList)).failure =
        some (.unshown .caretTooFar) := by
  obtain ⟨shown, ⟨-, d, others, hd, -, -⟩, hc⟩ :=
    exists_converse_unshown (not_isAnswered_stray values h hn)
  rw [diagnostics_stray] at hd
  have hs : shown = [] := by
    rcases List.append_eq_singleton_iff.mp hd.symm with ⟨hs, -⟩ | ⟨-, hnil⟩
    · exact hs
    · exact absurd hnil (List.cons_ne_nil _ _)
  rw [session, (hasLines_stray n).lines_bytes, List.map_singleton]
  rw [hs] at hc
  exact hc []

/-- A line in UTF-8 that ends its session. -/
theorem session_unshown :
    let input := bytes (stray 65535 ++ "\n").toList
    IsComplete input ∧ IsUtf8 input ∧
      (session .program .parsed input).failure = some (.unshown .caretTooFar) ∧
      (session .program .parsed input).output = mark ∧
      ¬ ((session .program .parsed input).failure ≠ none ↔ ¬ IsUtf8 input) := by
  intro input
  obtain ⟨ho, hf⟩ := session_stray .parsed (n := 65535) (by decide) (by decide)
  have hc : IsComplete input := by
    rw [show input = bytes ((stray 65535).toList ++ '\n' :: []) from
      congrArg bytes String.toList_append, bytes_feed]
    exact .inr List.getLast?_concat
  have hu : IsUtf8 input := ⟨_, rfl⟩
  refine ⟨hc, hu, hf, ho, fun h => h.mp ?_ hu⟩
  rw [hf]
  nofun

end Prompt

end FrontEnd
