import FrontEnd.Proofs.Scanning

/-!
Cursors in use. Between two characters a cursor works as the list of the tokens that are left of its
text: each request takes tokens off the front of the list, and all requests are alike at its end. So
tokens can be asked for one by one and drained in any order, and none is lost or comes twice. Inside
a character every request is refused and moves nothing.
-/

namespace FrontEnd

inductive Request
  | next | drainOne | drain

inductive Reply
  | refused
  | token (t : Token)
  | one (t : Option Token)
  | all (ts : List Token)

namespace Reply

def tokens : Reply → List Token
  | .refused => []
  | .token t => if t.kind = .eof then [] else [t]
  | .one t => t.toList
  | .all ts => ts

def Ends : Reply → Prop
  | .refused => False
  | .token t => t.kind = .eof
  | .one t => t = none
  | .all _ => True

end Reply

namespace Request

def reply (ts : List Token) (ending : Token) : Request → Reply
  | .next => .token (front ending ts)
  | .drainOne => .one ts.head?
  | .drain => .all ts

def left (ts : List Token) : Request → List Token
  | .next | .drainOne => ts.tail
  | .drain => []

def replies (ending : Token) : List Token → List Request → List Reply
  | _, [] => []
  | ts, r :: rs => r.reply ts ending :: replies ending (r.left ts) rs

end Request

namespace Cursor

/-- The answer to a request and the cursor after it. A refusal leaves the cursor as it is. -/
def ask (c : Cursor) : Request → Reply × Cursor
  | .next => (c.next?.map fun x => (.token x.1, x.2)).getD (.refused, c)
  | .drainOne => (c.drainOne?.map fun x => (.one x.1, x.2)).getD (.refused, c)
  | .drain => (c.drain?.map fun x => (.all x.1, x.2)).getD (.refused, c)

/-- The answer that is found in rounds. A refusal leaves the cursor where the rounds have got to. -/
def work (c : Cursor) : Request → Reply × Cursor
  | .next => ((c.scan.1.map .token).getD .refused, c.scan.2)
  | .drainOne => ((c.scanOne.1.map .one).getD .refused, c.scanOne.2)
  | .drain => ((c.scanAll.1.map .all).getD .refused, c.scanAll.2)

def asked (c : Cursor) : List Request → List (Reply × Cursor)
  | [] => []
  | r :: rs => c.ask r :: (c.ask r).2.asked rs

end Cursor

namespace Request

variable {ts : List Token} {ending : Token}

theorem reply_ne_refused (ts : List Token) (ending : Token) (r : Request) :
    r.reply ts ending ≠ .refused := by
  cases r <;> nofun

/-- A request hands out what it takes off the list. -/
theorem tokens_reply_append (hp : ∀ t ∈ ts, t.kind ≠ .eof) (he : ending.kind = .eof)
    (r : Request) : (r.reply ts ending).tokens ++ r.left ts = ts := by
  cases r with
  | next => cases ts <;> simp_all [reply, Reply.tokens, left]
  | drainOne => cases ts <;> rfl
  | drain => exact List.append_nil ts

theorem left_eq_nil_of_ends (hp : ∀ t ∈ ts, t.kind ≠ .eof) {r : Request}
    (h : (r.reply ts ending).Ends) : r.left ts = [] := by
  cases r with
  | next | drainOne => cases ts <;> simp_all [reply, Reply.Ends, left]
  | drain => rfl

theorem forall_mem_left {p : Token → Prop} (hp : ∀ t ∈ ts, p t) (r : Request) :
    ∀ t ∈ r.left ts, p t := by
  cases r with
  | next | drainOne => exact fun t ht => hp t (List.mem_of_mem_tail ht)
  | drain => exact List.forall_mem_nil _

/-- Each reply is one from a list that was left then. -/
theorem exists_reply_of_mem {requests : List Request} {x : Reply}
    (h : x ∈ replies ending ts requests) :
    ∃ us r, (∀ t ∈ us, t ∈ ts) ∧ x = reply us ending r := by
  induction requests generalizing ts with
  | nil => cases h
  | cons r rs ih =>
      rcases List.mem_cons.mp h with rfl | h
      · exact ⟨ts, r, fun _ => id, rfl⟩
      · obtain ⟨us, r', hus, hx⟩ := ih h
        exact ⟨us, r', fun t ht => forall_mem_left (fun _ => id) r t (hus t ht), hx⟩

def leftAfter (ts : List Token) (requests : List Request) : List Token :=
  requests.foldl left ts

theorem leftAfter_nil (requests : List Request) : leftAfter [] requests = [] := by
  induction requests with
  | nil => rfl
  | cons r rs ih => cases r <;> exact ih

theorem replies_nil (requests : List Request) :
    replies ending [] requests = requests.map (·.reply [] ending) := by
  induction requests with
  | nil => rfl
  | cons r rs ih =>
      have hl : r.left [] = [] := leftAfter_nil [r]
      rw [replies, hl, ih, List.map_cons]

theorem replies_append (earlier later : List Request) :
    replies ending ts (earlier ++ later) =
      replies ending ts earlier ++ replies ending (leftAfter ts earlier) later := by
  induction earlier generalizing ts with
  | nil => rfl
  | cons r rs ih => exact congrArg (_ :: ·) ih

/-- What is handed out and what is left are the list. -/
theorem flatMap_replies_append (hp : ∀ t ∈ ts, t.kind ≠ .eof) (he : ending.kind = .eof)
    (requests : List Request) :
    (replies ending ts requests).flatMap Reply.tokens ++ leftAfter ts requests = ts := by
  induction requests generalizing ts with
  | nil => rfl
  | cons r rs ih =>
      have hi := ih (forall_mem_left hp r)
      rw [replies, List.flatMap_cons, List.append_assoc]
      exact (congrArg (_ ++ ·) hi).trans (tokens_reply_append hp he r)

/-- Once the end is told, nothing is left. -/
theorem leftAfter_eq_nil (hp : ∀ t ∈ ts, t.kind ≠ .eof) {requests : List Request}
    (h : ∃ x ∈ replies ending ts requests, x.Ends) : leftAfter ts requests = [] := by
  induction requests generalizing ts with
  | nil => simp [replies] at h
  | cons r rs ih =>
      obtain ⟨x, hx, hends⟩ := h
      rcases List.mem_cons.mp hx with rfl | hx
      · have hl := left_eq_nil_of_ends hp hends
        exact (congrArg (leftAfter · rs) hl).trans (leftAfter_nil rs)
      · exact ih (forall_mem_left hp r) ⟨x, hx, hends⟩

end Request

namespace Cursor

variable {c : Cursor} {l : Lexer} {ts : List Token} {ending : Token}

theorem work_eq (c : Cursor) (r : Request) : c.work r = c.ask r := by
  cases r with
  | next =>
      rw [work, scan_eq, ask]
      cases c.next? <;> rfl
  | drainOne =>
      rw [work, scanOne_eq, ask]
      cases c.drainOne? <;> rfl
  | drain =>
      rw [work, scanAll_eq, ask]
      cases c.drain? <;> rfl

/-- The cursor has the tokens of a list in front of it, and then the token that ends the text. It is
drained only if there are none. -/
structure Shows (c : Cursor) (ts : List Token) (ending : Token) : Prop where
  yields : ∃ l, c.lexer? = some l ∧ l.Yields ts ending
  drained : c.drained = true → ts = []

theorem Shows.of_yields (hd : c.drained = false) (hl : c.lexer? = some l)
    (hy : l.Yields ts ending) : c.Shows ts ending :=
  ⟨⟨l, hl, hy⟩, fun hc => absurd (hd.symm.trans hc) Bool.false_ne_true⟩

/-- A request takes tokens off the list that the cursor shows, and moves the cursor behind them. -/
theorem Shows.exists_ask (h : c.Shows ts ending) (hl : c.lexer? = some l) (r : Request) :
    ∃ n drained, c.ask r = (r.reply ts ending, { c.follow (l.after n) with drained }) ∧
      ts.drop n = r.left ts ∧ (drained = true → r.left ts = []) := by
  obtain ⟨⟨l', hl', hy⟩, hd⟩ := h
  cases hl.symm.trans hl'
  have hstay (hc : c.drained = true) : { c.follow (l.after 0) with drained := true } = c := by
    rw [Lexer.after, follow_of_lexer? hl, ← hc]
  cases r with
  | next =>
      refine ⟨1, c.drained, ?_, List.drop_one, fun hc => by rw [hd hc]; rfl⟩
      simp [ask, next?, hl, hy.next_fst, Request.reply, Lexer.after, follow]
  | drainOne =>
      cases hc : c.drained with
      | true =>
          obtain rfl := hd hc
          refine ⟨0, true, ?_, rfl, fun _ => rfl⟩
          rw [hstay hc]
          simp [ask, drainOne?, hc, Request.reply]
      | false =>
          cases ts with
          | nil =>
              refine ⟨1, true, ?_, rfl, fun _ => rfl⟩
              simp [ask, drainOne?, hc, hl, hy.eq_nil_iff.mpr, Request.reply, Lexer.after]
          | cons t ts =>
              refine ⟨1, false, ?_, rfl, fun hc => absurd hc Bool.false_ne_true⟩
              have hk := mt hy.eq_nil_iff.mp (List.cons_ne_nil t ts)
              have ht : l.next.1 = t := hy.next_fst
              rw [ht] at hk
              simp [ask, drainOne?, hc, hl, ht, hk, Request.reply, Lexer.after, follow]
  | drain =>
      cases hc : c.drained with
      | true =>
          obtain rfl := hd hc
          refine ⟨0, true, ?_, rfl, fun _ => rfl⟩
          rw [hstay hc]
          simp [ask, drain?, hc, Request.reply]
      | false =>
          refine ⟨ts.length + 1, true, ?_, List.drop_eq_nil_of_le (Nat.le_succ _), fun _ => rfl⟩
          simp [ask, drain?, hc, hl, hy.drain, Request.reply]

theorem Shows.ask (h : c.Shows ts ending) (r : Request) :
    (c.ask r).1 = r.reply ts ending ∧ (c.ask r).2.Shows (r.left ts) ending ∧
      (c.ask r).2.text = c.text ∧ c.pos ≤ (c.ask r).2.pos ∧
      (Text.IsBoundary c.text c.pos → Text.IsBoundary c.text (c.ask r).2.pos) := by
  obtain ⟨l, hl, hy⟩ := h.yields
  obtain ⟨n, drained, hask, hdrop, hd⟩ := h.exists_ask hl r
  obtain ⟨-, hp, hplace⟩ := standsIn_or_of_lexer? hl
  rw [hask]
  refine ⟨rfl, ⟨⟨_, lexer?_follow_after hl n, hdrop ▸ hy.after n⟩, hd⟩, rfl, ?_, fun hb => ?_⟩
  · rw [← hp]
    exact l.pos_le_after n
  · rcases hplace with hs | ⟨hlt, -⟩
    · exact (hs.after n).isBoundary
    · obtain ⟨before, after, ht, hbefore⟩ := hb
      rw [ht, Text.byteLength_append] at hlt
      omega

namespace Shows

variable {requests : List Request}

theorem map_asked (h : c.Shows ts ending) (requests : List Request) :
    (c.asked requests).map Prod.fst = Request.replies ending ts requests := by
  induction requests generalizing c ts with
  | nil => rfl
  | cons r rs ih =>
      obtain ⟨hr, hs, -⟩ := h.ask r
      rw [asked, List.map_cons, hr, ih hs]
      rfl

theorem forward (h : c.Shows ts ending) (requests : List Request) :
    (c.pos :: (c.asked requests).map (·.2.pos)).Pairwise (· ≤ ·) := by
  induction requests generalizing c ts with
  | nil => exact List.pairwise_singleton ..
  | cons r rs ih =>
      obtain ⟨-, hs, -, hp, -⟩ := h.ask r
      have hrest := ih hs
      refine List.pairwise_cons.mpr ⟨?_, hrest⟩
      intro p hm
      rcases List.mem_cons.mp hm with rfl | hm
      · exact hp
      · exact Nat.le_trans hp ((List.pairwise_cons.mp hrest).1 p hm)

theorem between (h : c.Shows ts ending) (hb : Text.IsBoundary c.text c.pos)
    (requests : List Request) :
    ∀ x ∈ c.asked requests, Text.IsBoundary c.text x.2.pos := by
  induction requests generalizing c ts with
  | nil => exact List.forall_mem_nil _
  | cons r rs ih =>
      obtain ⟨-, hs, ht, -, hkeep⟩ := h.ask r
      have hi := ih hs (by rw [ht]; exact hkeep hb)
      rw [ht] at hi
      exact List.forall_mem_cons.mpr ⟨hkeep hb, hi⟩

end Shows

/-- Requests are answered from the tokens of a list, one behind the other. None is refused, the
cursor goes forward from boundary to boundary, and once a reply tells that the text has ended all
tokens are handed out and every later reply tells the same. -/
structure Delivers (c : Cursor) (requests : List Request) (ts : List Token) (stop : Token) :
    Prop where
  answered : ∀ x ∈ c.asked requests, x.1 ≠ .refused
  forward : (c.pos :: (c.asked requests).map (·.2.pos)).Pairwise (· ≤ ·)
  between : ∀ x ∈ c.asked requests, Text.IsBoundary c.text x.2.pos
  inOrder : (c.asked requests).flatMap (·.1.tokens) <+: ts
  complete : (∃ x ∈ c.asked requests, x.1.Ends) → (c.asked requests).flatMap (·.1.tokens) = ts
  stops : ∀ t, .token t ∈ (c.asked requests).map Prod.fst → t.kind = .eof → t = stop
  exhausted : ∀ earlier later, requests = earlier ++ later → (∃ x ∈ c.asked earlier, x.1.Ends) →
    (c.asked requests).map Prod.fst =
      (c.asked earlier).map Prod.fst ++ later.map (·.reply [] stop)

theorem Shows.delivers (h : c.Shows ts ending) (hb : Text.IsBoundary c.text c.pos)
    (requests : List Request) : c.Delivers requests ts ending := by
  obtain ⟨l, -, hy⟩ := h.yields
  have hm := h.map_asked
  have hflat : (c.asked requests).flatMap (·.1.tokens) =
      (Request.replies ending ts requests).flatMap Reply.tokens := by
    rw [← hm, List.flatMap_map]
  have hends {earlier : List Request} (hx : ∃ x ∈ c.asked earlier, x.1.Ends) :
      Request.leftAfter ts earlier = [] := by
    obtain ⟨x, hx, he⟩ := hx
    exact Request.leftAfter_eq_nil hy.proper ⟨x.1, hm earlier ▸ List.mem_map_of_mem hx, he⟩
  have happ := Request.flatMap_replies_append hy.proper hy.ends requests
  refine ⟨fun x hx => ?_, h.forward requests, h.between hb requests, ?_, fun hx => ?_, ?_, ?_⟩
  · have hr := List.mem_map_of_mem (f := Prod.fst) hx
    rw [hm] at hr
    obtain ⟨us, r, -, hx⟩ := Request.exists_reply_of_mem hr
    rw [hx]
    exact Request.reply_ne_refused us ending r
  · rw [hflat]
    exact ⟨_, happ⟩
  · rw [hflat]
    rw [hends hx, List.append_nil] at happ
    exact happ
  · intro t ht hk
    rw [hm] at ht
    obtain ⟨us, r, hus, hx⟩ := Request.exists_reply_of_mem ht
    cases r with
    | drainOne | drain => cases hx
    | next =>
        cases us with
        | nil => exact Reply.token.inj hx
        | cons u us =>
            obtain rfl : t = u := Reply.token.inj hx
            exact absurd hk (hy.proper t (hus t (List.mem_cons_self ..)))
  · rintro earlier later rfl hx
    rw [hm, hm, Request.replies_append, hends hx, Request.replies_nil]

theorem ask_of_lexer?_eq_none (h : c.lexer? = none) (hd : c.drained = false) (r : Request) :
    c.ask r = (.refused, c) := by
  cases r <;> simp [ask, next?, drainOne?, drain?, h, hd]

theorem asked_of_lexer?_eq_none (h : c.lexer? = none) (hd : c.drained = false)
    (requests : List Request) : c.asked requests = requests.map fun _ => (.refused, c) := by
  induction requests with
  | nil => rfl
  | cons r rs ih => rw [asked, ask_of_lexer?_eq_none h hd, ih, List.map_cons]

end Cursor

/-- A cursor that was moved to an offset, and any requests after that. Between two characters it
delivers the tokens of the text behind the offset, moved by the offset, and then the end of the
whole text. Beyond the text there is an end at the offset and nothing else. Inside a character every
request is refused, and the cursor is as it was, although blanks are skipped before a token is read:
what the rounds of a request leave is what the request leaves. -/
theorem Cursor.asked_at_offset (text : String) (name : Option String) (k : Nat)
    (requests : List Request) :
    let c := (Cursor.ofText text name).moveBy k
    let source := name.getD shellName
    let size := Text.byteLength text.toList
    (∀ before after, text.toList = before ++ after → Text.byteLength before = k →
      c.Delivers requests
        ((sourceTokens (String.ofList after) name).map (Token.relocate (.shift k)))
        (.last source text.toList)) ∧
    (size < k → (c.asked requests).map Prod.fst = requests.map
      (·.reply [] ⟨.eof, "", ⟨.ofOffset source k, .ofOffset source k⟩⟩)) ∧
    (k < size → ¬ Text.IsBoundary text.toList k →
      c.asked requests = requests.map fun _ => (.refused, c)) ∧
    (∀ (d : Cursor) r, d.work r = d.ask r) := by
  intro c source size
  refine ⟨fun before after ht hk => ?_, fun hlt => ?_, fun hlt hb => ?_, work_eq⟩
  · have hs : Lexer.StandsIn ⟨source, k, after⟩ c.text := ⟨before, ht, hk.symm⟩
    have hp : k = c.pos := (Nat.zero_add k).symm
    have hy := (yields_source (String.ofList after) name).shift k
    have hl : (Lexer.ofText (String.ofList after) name).shift k = ⟨source, k, after⟩ := by
      simp [Lexer.ofText, Lexer.shift, source]
    rw [hl] at hy
    rw [(hy.tiles hs).2] at hy
    have hc := Shows.of_yields rfl (lexer?_of_standsIn rfl hp hs) hy
    exact hc.delivers ⟨before, after, ht, hk.trans hp⟩ requests
  · have hp : k = c.pos := (Nat.zero_add k).symm
    have hl := Cursor.lexer?_of_lt (c := c) (hp ▸ hlt)
    have hy : Lexer.Yields ⟨c.source, c.pos, []⟩ []
        ⟨.eof, "", ⟨.ofOffset source k, .ofOffset source k⟩⟩ := by
      rw [← hp]
      exact .nil rfl rfl
    rw [(Shows.of_yields rfl hl hy).map_asked, Request.replies_nil]
  · have hp : k = c.pos := (Nat.zero_add k).symm
    refine Cursor.asked_of_lexer?_eq_none ?_ rfl requests
    refine Option.eq_none_iff_forall_ne_some.mpr fun l hl => ?_
    obtain ⟨-, hpos, hs | ⟨hbeyond, -⟩⟩ := Cursor.standsIn_or_of_lexer? hl
    · exact hb (by rw [hp, ← hpos]; exact hs.isBoundary)
    · exact absurd hbeyond (Nat.lt_asymm (hp ▸ hlt))

/-- In `é 1` the offset 1 is inside the accented letter, 2 is behind it and 5 is beyond the end. -/
theorem Cursor.asked_at_offset_accent :
    let c := Cursor.ofText "é 1" none
    (c.moveBy 1).asked [.next, .drain] = [(.refused, c.moveBy 1), (.refused, c.moveBy 1)] ∧
    (c.moveBy 2).Delivers [.drainOne, .next]
      [⟨.integer, "1", ⟨.ofOffset shellName 3, .ofOffset shellName 4⟩⟩]
      ⟨.eof, "", ⟨.ofOffset shellName 4, .ofOffset shellName 4⟩⟩ ∧
    ((c.moveBy 5).asked [.next]).map Prod.fst =
      [.token ⟨.eof, "", ⟨.ofOffset shellName 5, .ofOffset shellName 5⟩⟩] := by
  have hb : ¬ Text.IsBoundary ['é', ' ', '1'] 1 := by
    rintro ⟨_ | ⟨d, before⟩, after, h, hp⟩
    · cases hp
    · obtain rfl : 'é' = d := (List.cons.inj h).1
      rw [Text.byteLength_cons] at hp
      have hd : 'é'.utf8Size = 2 := rfl
      omega
  have hts : (sourceTokens " 1" none).map (Token.relocate (.shift 2)) =
      [⟨.integer, "1", ⟨.ofOffset shellName 3, .ofOffset shellName 4⟩⟩] := by
    decide +kernel
  have hat := fun k rs => Cursor.asked_at_offset "é 1" none k rs
  refine ⟨(hat 1 _).2.2.1 (by decide) hb, ?_, (hat 5 _).2.1 (by decide)⟩
  exact hts ▸ (hat 2 _).1 ['é'] [' ', '1'] rfl rfl

end FrontEnd
