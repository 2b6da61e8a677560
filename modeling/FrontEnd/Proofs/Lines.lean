import Mathlib.Algebra.GroupWithZero.Nat
import Mathlib.Data.List.TakeWhile
import FrontEnd.Line

/-!
Lines and offsets. The lines before an offset all end in a line feed, and the line of the offset has
none in front of its end, so the number of a line counts the line feeds before the offset. An
offset is the length of the lines before its own and its column. Hence locations come in the order
of their offsets, and no two offsets share one.
-/

namespace FrontEnd

namespace Text

def bytes (cs : List Char) : List UInt8 :=
  cs.flatMap String.utf8EncodeChar

theorem toList_toUTF8 (s : String) : s.toUTF8.data.toList = bytes s.toList := by
  rw [String.toUTF8_eq_toByteArray, ← String.utf8Encode_toList, List.utf8Encode]
  simp [bytes]

@[simp] theorem bytes_append (cs ds : List Char) : bytes (cs ++ ds) = bytes cs ++ bytes ds :=
  List.flatMap_append

@[simp] theorem length_bytes (cs : List Char) : (bytes cs).length = byteLength cs := by
  induction cs with
  | nil => rfl
  | cons c cs ih =>
      rw [bytes, List.flatMap_cons, List.length_append, String.length_utf8EncodeChar,
        byteLength_cons, ← ih]
      rfl

/-- A character of one byte is found in no other. -/
theorem mem_utf8EncodeChar {a c : Char} (ha : a.val.toNat < 128) :
    a.toUInt8 ∈ String.utf8EncodeChar c ↔ c = a := by
  have hc : c = a ↔ c.val.toNat = a.val.toNat := by
    rw [Char.ext_iff, ← UInt32.toNat_inj]
  have hb : a.toUInt8.toNat = a.val.toNat := by
    rw [Char.toUInt8, UInt32.toNat_toUInt8]
    omega
  rw [hc, String.utf8EncodeChar]
  simp only [apply_ite (fun bs : List UInt8 => a.toUInt8 ∈ bs), List.mem_cons,
    List.not_mem_nil, or_false, ← UInt8.toNat_inj, hb, UInt8.toNat_ofNat']
  -- Beyond one byte, each has its highest bit set.
  grind

/-- No byte of another character is a line feed. -/
theorem count_utf8EncodeChar (c : Char) :
    (String.utf8EncodeChar c).count '\n'.toUInt8 = if c = '\n' then 1 else 0 := by
  split
  · next h =>
      subst h
      decide
  · next h => exact List.count_eq_zero.mpr (mt (mem_utf8EncodeChar (by decide)).mp h)

theorem count_bytes (cs : List Char) : (bytes cs).count '\n'.toUInt8 = cs.count '\n' := by
  induction cs with
  | nil => rfl
  | cons c cs ih =>
      rw [bytes, List.flatMap_cons, List.count_append, count_utf8EncodeChar, List.count_cons,
        ← ih]
      simp [bytes, Nat.add_comm]

def EndsInFeed (line : List Char) : Prop :=
  ∃ body, line = body ++ ['\n'] ∧ '\n' ∉ body

end Text

open Text

/-- The location lies in a text, between the lines before its own and what comes after it. Its line
ends in its only line feed, or it is the last one and has none; only there the column may be behind
all of the line. -/
structure Location.LiesIn (l : Location) (earlier : List (List Char)) (later cs : List Char) :
    Prop where
  text : cs = earlier.flatten ++ l.text ++ later
  number : l.number = earlier.length + 1
  earlier : ∀ line ∈ earlier, EndsInFeed line
  line : EndsInFeed l.text ∧ l.column < byteLength l.text ∨
    '\n' ∉ l.text ∧ later = [] ∧ l.column ≤ byteLength l.text

section Cut

variable {α : Type} [DecidableEq α] {a : α} {body : List α}

theorem decide_ne_of_not_mem (h : a ∉ body) : ∀ b ∈ body, decide (b ≠ a) = true := by
  intro b hm
  simpa using ne_of_mem_of_not_mem hm h

theorem takeWhile_ne_append (h : a ∉ body) (rest : List α) :
    (body ++ a :: rest).takeWhile (· ≠ a) = body := by
  rw [List.takeWhile_append_of_pos (decide_ne_of_not_mem h)]
  simp

theorem dropWhile_ne_append (h : a ∉ body) (rest : List α) :
    (body ++ a :: rest).dropWhile (· ≠ a) = a :: rest := by
  rw [List.dropWhile_append_of_pos (decide_ne_of_not_mem h)]
  simp

theorem dropWhile_ne_eq_nil (h : a ∉ body) : body.dropWhile (· ≠ a) = [] :=
  List.dropWhile_eq_nil_iff.mpr (decide_ne_of_not_mem h)

/-- A list is cut at its first `a` in one way. -/
theorem cut_inj {body' rest rest' : List α} (h : a ∉ body) (h' : a ∉ body')
    (heq : body ++ a :: rest = body' ++ a :: rest') : body = body' ∧ rest = rest' := by
  have ht := congrArg (List.takeWhile (· ≠ a)) heq
  have hd := congrArg (List.dropWhile (· ≠ a)) heq
  rw [takeWhile_ne_append h, takeWhile_ne_append h'] at ht
  rw [dropWhile_ne_append h, dropWhile_ne_append h'] at hd
  exact ⟨ht, List.tail_eq_of_cons_eq hd⟩

/-- Induction along the places where a list is cut. -/
@[elab_as_elim]
theorem cut_induction (a : α) {motive : List α → Prop}
    (last : ∀ body, a ∉ body → motive body)
    (cut : ∀ body rest, a ∉ body → motive rest → motive (body ++ a :: rest)) (l : List α) :
    motive l := by
  induction hn : l.length using Nat.strongRecOn generalizing l with
  | ind n ih =>
      by_cases hm : a ∈ l
      · obtain ⟨body, rest, rfl, hb⟩ := List.eq_append_cons_of_mem hm
        exact cut body rest hb (ih rest.length (by simp at hn; omega) rest rfl)
      · exact last l hm

end Cut

section

variable {body rest cs ds : List Char} {earlier earlier' : List (List Char)} {n offset k : Nat}

theorem firstLine_feed (h : '\n' ∉ body) :
    firstLine (body ++ '\n' :: rest) = (body ++ ['\n'], rest) := by
  rw [firstLine, dropWhile_ne_append h, takeWhile_ne_append h]

theorem firstLine_last (h : '\n' ∉ body) : firstLine body = (body, []) := by
  rw [firstLine, dropWhile_ne_eq_nil h]

namespace Location

theorem seek_feed (h : '\n' ∉ body) (hk : offset < byteLength (body ++ ['\n'])) :
    seek n (body ++ '\n' :: rest) offset = ⟨n, body ++ ['\n'], offset⟩ := by
  rw [seek, if_neg (by simp), firstLine_feed h]
  exact if_pos (.inl hk)

theorem seek_next (h : '\n' ∉ body) :
    seek n (body ++ '\n' :: rest) (byteLength (body ++ ['\n']) + k) = seek (n + 1) rest k := by
  rw [seek, if_neg (by simp), firstLine_feed h]
  refine (if_neg ?_).trans ?_
  · simp
  · rw [Nat.add_sub_cancel_left]

theorem seek_last (h : '\n' ∉ body) (hk : offset ≤ byteLength body) :
    seek n body offset = ⟨n, body, offset⟩ := by
  rw [seek]
  split
  · next hb =>
      subst hb
      rw [Nat.le_zero.mp hk]
  · have hl : body.getLast? ≠ some '\n' := fun hl => h (List.mem_of_getLast? hl)
    rw [firstLine_last h]
    exact if_pos ((Nat.lt_or_eq_of_le hk).imp_right fun he => ⟨he, hl⟩)

/-- The lines before an offset are passed one by one. -/
theorem seek_flatten (he : ∀ line ∈ earlier, EndsInFeed line) :
    seek n (earlier.flatten ++ rest) ((earlier.map byteLength).sum + k) =
      seek (n + earlier.length) rest k := by
  induction earlier generalizing n with
  | nil => simp
  | cons line earlier ih =>
      obtain ⟨⟨body, rfl, hb⟩, hrest⟩ := List.forall_mem_cons.mp he
      simp only [List.flatten_cons, List.append_assoc, List.cons_append, List.map_cons,
        List.sum_cons, List.length_cons, Nat.add_assoc]
      rw [List.nil_append, seek_next hb, ih hrest, Nat.add_assoc, Nat.add_comm 1]

end Location

theorem sum_byteLength (lines : List (List Char)) :
    (lines.map byteLength).sum = byteLength lines.flatten := by
  induction lines with
  | nil => rfl
  | cons line lines ih => rw [List.map_cons, List.sum_cons, ih, List.flatten_cons, byteLength_append]

/-- A line put in front of a text moves each location one line down. -/
theorem Location.LiesIn.below {l : Location} {later line : List Char}
    (h : l.LiesIn earlier later cs) (hline : EndsInFeed line) :
    LiesIn ⟨l.number + 1, l.text, l.column⟩ (line :: earlier) later (line ++ cs) := by
  refine ⟨?_, ?_, List.forall_mem_cons.mpr ⟨hline, h.earlier⟩, h.line⟩
  · rw [h.text, List.flatten_cons, List.append_assoc, List.append_assoc, List.append_assoc]
  · rw [h.number, List.length_cons]

/-- Every offset up to the end of a text lies in a line. -/
theorem exists_liesIn (cs : List Char) (h : offset ≤ byteLength cs) :
    ∃ l earlier later, Location.LiesIn l earlier later cs ∧
      (earlier.map byteLength).sum + l.column = offset := by
  induction cs using cut_induction '\n' generalizing offset with
  | last cs hf =>
      exact ⟨⟨1, cs, offset⟩, [], [],
        ⟨by simp, rfl, List.forall_mem_nil _, .inr ⟨hf, rfl, h⟩⟩, Nat.zero_add _⟩
  | cut body rest hb ih =>
      have hfeed : EndsInFeed (body ++ ['\n']) := ⟨body, rfl, hb⟩
      by_cases hlt : offset < byteLength (body ++ ['\n'])
      · exact ⟨⟨1, body ++ ['\n'], offset⟩, [], rest,
          ⟨by simp, rfl, List.forall_mem_nil _, .inl ⟨hfeed, hlt⟩⟩, Nat.zero_add _⟩
      · obtain ⟨k, rfl⟩ := Nat.exists_eq_add_of_le (Nat.le_of_not_lt hlt)
        have hk : k ≤ byteLength rest := by
          simp only [byteLength_append, byteLength_cons, byteLength_nil] at h
          omega
        obtain ⟨l, earlier, later, hlies, rfl⟩ := ih hk
        have hbelow := hlies.below hfeed
        rw [List.append_assoc] at hbelow
        refine ⟨_, _, later, hbelow, ?_⟩
        rw [List.map_cons, List.sum_cons, Nat.add_assoc]

namespace Location.LiesIn

variable {l m : Location} {later later' : List Char}

/-- The column is in front of the end of its line. -/
theorem exists_body (h : l.LiesIn earlier later cs) :
    ∃ body rest, l.text ++ later = body ++ rest ∧ '\n' ∉ body ∧ l.column ≤ byteLength body := by
  rcases h.line with ⟨⟨body, ht, hb⟩, hc⟩ | ⟨hb, rfl, hc⟩
  · rw [ht, byteLength_append] at hc
    exact ⟨body, '\n' :: later, by simp [ht], hb, Nat.le_of_lt_succ hc⟩
  · exact ⟨l.text, [], rfl, hb, hc⟩

theorem offset_le (h : l.LiesIn earlier later cs) :
    (earlier.map byteLength).sum + l.column ≤ byteLength cs := by
  obtain ⟨body, rest, ht, -, hc⟩ := h.exists_body
  rw [h.text, List.append_assoc, ht, byteLength_append, byteLength_append, sum_byteLength]
  omega

theorem seek_eq (h : l.LiesIn earlier later cs) :
    seek 1 cs ((earlier.map byteLength).sum + l.column) = l := by
  obtain ⟨number, text, column⟩ := l
  obtain ⟨rfl, hn, he, hline⟩ := h
  simp only at hn hline
  rw [List.append_assoc, seek_flatten he, hn, Nat.add_comm 1]
  rcases hline with ⟨⟨body, rfl, hb⟩, hc⟩ | ⟨hb, rfl, hc⟩
  · rw [List.append_assoc]
    exact seek_feed hb hc
  · rw [List.append_nil]
    exact seek_last hb hc

theorem count_flatten (he : ∀ line ∈ earlier, EndsInFeed line) :
    earlier.flatten.count '\n' = earlier.length := by
  induction earlier with
  | nil => rfl
  | cons line earlier ih =>
      obtain ⟨⟨body, rfl, hb⟩, hrest⟩ := List.forall_mem_cons.mp he
      rw [List.flatten_cons, List.count_append, List.count_append, ih hrest,
        List.count_eq_zero.mpr hb, List.length_cons]
      exact Nat.add_comm ..

/-- The number counts the line feeds before the offset. -/
theorem number_eq (h : l.LiesIn earlier later cs) :
    l.number = 1 + ((bytes cs).take ((earlier.map byteLength).sum + l.column)).count
      '\n'.toUInt8 := by
  obtain ⟨body, rest, ht, hb, hc⟩ := h.exists_body
  have hbody : ((bytes body).take l.column).count '\n'.toUInt8 = 0 := by
    have hle := (List.take_sublist l.column (bytes body)).count_le '\n'.toUInt8
    rw [count_bytes, List.count_eq_zero.mpr hb] at hle
    exact Nat.le_zero.mp hle
  rw [h.text, List.append_assoc, ht, bytes_append, bytes_append, sum_byteLength, ← length_bytes,
    List.take_length_add_append, List.take_append_of_le_length (by rwa [length_bytes]),
    List.count_append, count_bytes, count_flatten h.earlier, hbody, h.number, Nat.add_comm,
    Nat.add_zero]

/-- A text has its lines in one way. -/
theorem flatten_inj (he : ∀ line ∈ earlier, EndsInFeed line)
    (he' : ∀ line ∈ earlier', EndsInFeed line) (hl : earlier.length = earlier'.length)
    (h : earlier.flatten ++ cs = earlier'.flatten ++ ds) : earlier = earlier' := by
  induction earlier generalizing earlier' with
  | nil => exact (List.eq_nil_of_length_eq_zero hl.symm).symm
  | cons line earlier ih =>
      obtain ⟨line', earlier', rfl⟩ := List.exists_cons_of_length_eq_add_one hl.symm
      obtain ⟨⟨body, rfl, hb⟩, hrest⟩ := List.forall_mem_cons.mp he
      obtain ⟨⟨body', rfl, hb'⟩, hrest'⟩ := List.forall_mem_cons.mp he'
      simp only [List.flatten_cons, List.append_assoc, List.cons_append, List.nil_append] at h
      have hf := congrArg firstLine h
      rw [firstLine_feed hb, firstLine_feed hb', Prod.mk.injEq] at hf
      rw [hf.1, ih hrest hrest' (Nat.succ.inj hl) hf.2]

/-- Locations in a text come in the order of their offsets. -/
theorem lt (h : l.LiesIn earlier later cs) (h' : m.LiesIn earlier' later' cs)
    (hlt : (earlier.map byteLength).sum + l.column < (earlier'.map byteLength).sum + m.column) :
    l.number < m.number ∨ l.number = m.number ∧ l.column < m.column := by
  have hle : l.number ≤ m.number := by
    rw [h.number_eq, h'.number_eq]
    have hle := List.take_sublist_take_left (l := bytes cs) (Nat.le_of_lt hlt)
    exact Nat.add_le_add_left (hle.count_le _) 1
  refine (Nat.lt_or_eq_of_le hle).imp_right fun hn => ⟨hn, ?_⟩
  have ht := h.text.symm.trans h'.text
  rw [List.append_assoc, List.append_assoc] at ht
  rw [h.number, h'.number] at hn
  rw [flatten_inj h.earlier h'.earlier (Nat.succ.inj hn) ht] at hlt
  exact Nat.lt_of_add_lt_add_left hlt

end Location.LiesIn

end

theorem locate?_eq_none_iff {source : String} {offset : UInt32} :
    locate? source offset = none ↔ byteLength source.toList < offset.toNat := by
  rw [locate?]
  split <;> simp <;> omega

/-- The location of an offset is the one that lies in the source there. -/
theorem locate?_eq_some_iff {source : String} {offset : UInt32} {l : Location} :
    locate? source offset = some l ↔
      ∃ earlier later, l.LiesIn earlier later source.toList ∧
        (earlier.map byteLength).sum + l.column = offset.toNat := by
  rw [locate?]
  constructor
  · intro h
    split at h
    · next hle =>
        obtain ⟨m, earlier, later, hm, ho⟩ := exists_liesIn source.toList hle
        rw [← ho, hm.seek_eq] at h
        cases h
        exact ⟨earlier, later, hm, ho⟩
    · cases h
  · rintro ⟨earlier, later, hl, ho⟩
    rw [← ho, if_pos hl.offset_le, hl.seek_eq]

theorem locate?_lt {source : String} {p q : UInt32} {l m : Location}
    (hl : locate? source p = some l) (hm : locate? source q = some m) (h : p < q) :
    l.number < m.number ∨ l.number = m.number ∧ l.column < m.column := by
  obtain ⟨earlier, later, hl, hp⟩ := locate?_eq_some_iff.mp hl
  obtain ⟨earlier', later', hm, hq⟩ := locate?_eq_some_iff.mp hm
  exact hl.lt hm (by rw [hp, hq]; exact h)

/-- Looking up lines keeps the order of offsets and loses nothing. Only beyond the end of a source
there is no line. The location of an offset is the one place in a line that is behind as many bytes,
its number counts the line feeds among them, and the greater of two offsets is the later place. -/
theorem locate?_ordered (source : String) :
    (∀ offset, locate? source offset = none ↔ source.toUTF8.size < offset.toNat) ∧
      (∀ offset l, locate? source offset = some l ↔
        ∃ earlier later, l.LiesIn earlier later source.toList ∧
          (earlier.map byteLength).sum + l.column = offset.toNat) ∧
      (∀ offset l, locate? source offset = some l →
        l.number = 1 + (source.toUTF8.data.toList.take offset.toNat).count '\n'.toUInt8) ∧
      ∀ p q l m, locate? source p = some l → locate? source q = some m →
        (p < q → l.number < m.number ∨ l.number = m.number ∧ l.column < m.column) ∧
          (l.number = m.number → l.column = m.column → p = q) := by
  refine ⟨fun offset => ?_, fun offset l => locate?_eq_some_iff, fun offset l hl => ?_, ?_⟩
  · rw [locate?_eq_none_iff, ← length_bytes, ← toList_toUTF8]
    rfl
  · obtain ⟨earlier, later, hl, ho⟩ := locate?_eq_some_iff.mp hl
    rw [toList_toUTF8, ← ho]
    exact hl.number_eq
  · intro p q l m hl hm
    refine ⟨locate?_lt hl hm, fun hn hc => ?_⟩
    -- Neither of the two offsets can be the greater one.
    refine UInt32.le_antisymm (UInt32.not_lt.mp fun hqp => ?_) (UInt32.not_lt.mp fun hpq => ?_)
    · have hlt := locate?_lt hm hl hqp
      omega
    · have hlt := locate?_lt hl hm hpq
      omega

end FrontEnd
