import TinyMuduo.Http.RequestHead

/-!
# The parser may be resumed anywhere

The bytes of a connection arrive in chunks. After each chunk the parser is called on the buffer,
until it is over. This file shows that the cuts do not matter: the parser ends as after one call on
all the bytes (`HttpAnalyse.feed_eq_parseRequest`).

A call is described by a relation that has no fuel and does not know the byte behind the buffer,
`HttpAnalyse.Parses`. It is closed under resumption (`HttpAnalyse.Parses.resume`). The one case
that is not immediate is a request line that was rejected: it stays in the buffer, and the next call
parses it again with a request that the first call has already modified.

## Main definitions

* `HttpAnalyse.feed`: a call after each chunk, until the parser is over.
* `HttpAnalyse.Parses`: where a call ends.

## Main results

* `HttpAnalyse.Parses.parseRequest`: a call ends where the relation says.
* `HttpAnalyse.Parses.resume`: two calls with bytes that arrive in between are one call.
* `HttpAnalyse.feed_eq_parseRequest`: calls on the chunks are one call on all the bytes.
-/

namespace TinyMuduo

namespace HttpAnalyse

/-- The parser waits for a line. -/
def Waiting (a : HttpAnalyse) : Prop :=
  a.m_state_ = .CHECK_STATE_REQUESTLINE ∨ a.m_state_ = .CHECK_STATE_HEADER

/-- Each chunk is appended to the buffer and the parser is called, until it is over. A chunk comes
with the stale byte that is behind the buffer at its call. The result is the parser, the buffer and
the chunks that were not appended. -/
def feed (a : HttpAnalyse) (buffer : List UInt8) :
    List (List UInt8 × UInt8) → Option (HttpAnalyse × List UInt8 × List (List UInt8))
  | [] => some (a, buffer, [])
  | (chunk, beyond) :: chunks =>
    (a.parseRequest beyond (buffer ++ chunk)).bind fun (a, buffer, _) =>
      if a.isover then some (a, buffer, chunks.map Prod.fst) else a.feed buffer chunks

/-- Where a call on a buffer ends: the parser and the buffer after it. -/
inductive Parses : HttpAnalyse → List UInt8 → HttpAnalyse → List UInt8 → Prop
  | unfinished {a buffer} (hwait : Waiting a) (hcrlf : findCRLF buffer = none) :
      Parses a buffer a buffer
  | rejected {request request' buffer crlf} (hcrlf : findCRLF buffer = some crlf)
      (hline : processHeadRequest request (buffer.take crlf) = (request', false)) :
      Parses ⟨.CHECK_STATE_REQUESTLINE, request⟩ buffer ⟨.CHECK_STATE_REQUESTLINE, request'⟩ buffer
  | accepted {request request' buffer crlf a rest} (hcrlf : findCRLF buffer = some crlf)
      (hline : processHeadRequest request (buffer.take crlf) = (request', true))
      (hrest : Parses ⟨.CHECK_STATE_HEADER, request'⟩ (buffer.drop (crlf + 2)) a rest) :
      Parses ⟨.CHECK_STATE_REQUESTLINE, request⟩ buffer a rest
  | line {request buffer pr field bytes a rest} (hpr : findCRLF buffer = some pr)
      (hcolon : splitAtByte 58 (buffer.take pr) = (field, some bytes))
      (hrest : Parses ⟨.CHECK_STATE_HEADER, request.addHeader field bytes⟩ (buffer.drop (pr + 2))
        a rest) :
      Parses ⟨.CHECK_STATE_HEADER, request⟩ buffer a rest
  | last {request buffer pr field} (hpr : findCRLF buffer = some pr)
      (hcolon : splitAtByte 58 (buffer.take pr) = (field, none)) :
      Parses ⟨.CHECK_STATE_HEADER, request⟩ buffer ⟨.CHECK_STATE_OVER, request⟩
        (buffer.drop (pr + 2))

/-! ### A rejected request line -/

private theorem eq_of_processVersion_false {request request' : HttpRequest} {version : List UInt8}
    (h : processVersion request version = (request', false)) : request' = request := by
  unfold processVersion at h
  split_ifs at h
  · exact absurd (Prod.mk.inj h).2 (by simp)
  · exact absurd (Prod.mk.inj h).2 (by simp)
  · exact (Prod.mk.inj h).1.symm
  · exact (Prod.mk.inj h).1.symm

/-- The version does not depend on the request. -/
theorem processVersion_false {request request' : HttpRequest} {version : List UInt8}
    (h : processVersion request version = (request', false)) (other : HttpRequest) :
    processVersion other version = (other, false) := by
  unfold processVersion at h ⊢
  split_ifs at h ⊢ <;> first | rfl | exact absurd (Prod.mk.inj h).2 (by simp)

/-- A line that is rejected once is rejected again, and leaves the request as it is. -/
theorem processHeadRequest_again {request request' : HttpRequest} {line : List UInt8}
    (h : processHeadRequest request line = (request', false)) :
    processHeadRequest request' line = (request', false) := by
  unfold processHeadRequest at h ⊢
  rcases hmethod : splitAtByte 32 line with ⟨method, _ | bytes⟩
  · rfl
  · simp only [hmethod, HttpRequest.setMethod] at h ⊢
    by_cases hname : HttpRequest.methodOf method = .Invalid
    · simp only [hname, ne_eq, not_true_eq_false, decide_false, Bool.false_eq_true, if_false,
        Prod.mk.injEq, and_true] at h ⊢
      rw [← h]
    · simp only [ne_eq, hname, not_false_eq_true, decide_true, if_true] at h ⊢
      rcases htarget : splitAtByte 32 bytes with ⟨target, _ | version⟩
      · simp only [htarget, Prod.mk.injEq, and_true] at h ⊢
        rw [← h]
      · simp only [htarget] at h ⊢
        obtain rfl := eq_of_processVersion_false h
        rw [processVersion_false h]
        split_ifs <;> rfl

/-! ### A call ends where the relation says -/

/-- The first iteration of a loop that ends. -/
theorem Parse.exists_loop_iterate {beyond : UInt8} {fuel : ℕ} {p p' : Parse}
    (hmore : p.hasmore = true) (h : p.loop beyond fuel = some p') :
    ∃ fuel', (p.iterate beyond).loop beyond fuel' = some p' := by
  cases fuel with
  | zero => exact absurd h (by simp [Parse.loop])
  | succ fuel =>
    rw [Parse.loop, if_pos hmore] at h
    exact ⟨fuel, h⟩

theorem Parses.loop_eq {beyond : UInt8} {a a' : HttpAnalyse} {buffer buffer' : List UInt8}
    (h : Parses a buffer a' buffer') {ok : Bool} {fuel : ℕ} {p : Parse}
    (hp : Parse.loop beyond fuel ⟨a, buffer, ok, true⟩ = some p) :
    p.analyse = a' ∧ p.buffer = buffer' := by
  induction h generalizing ok fuel with
  | @unfinished a buffer hwait hcrlf =>
    obtain ⟨fuel', hp'⟩ := Parse.exists_loop_iterate rfl hp
    have hend : Parse.iterate beyond ⟨a, buffer, ok, true⟩ = ⟨a, buffer, ok, false⟩ := by
      rcases hwait with hs | hs
      · simp only [Parse.iterate, hs, Parse.requestLine, hcrlf]
      · simp only [Parse.iterate, hs, Parse.header, hcrlf]
    rw [hend] at hp'
    obtain rfl := loop_of_not_hasmore rfl hp'
    exact ⟨rfl, rfl⟩
  | rejected hcrlf hline =>
    obtain ⟨fuel', hp'⟩ := Parse.exists_loop_iterate rfl hp
    simp only [Parse.iterate, Parse.requestLine, hcrlf, hline] at hp'
    obtain rfl := loop_of_not_hasmore rfl hp'
    exact ⟨rfl, rfl⟩
  | accepted hcrlf hline hrest ih =>
    obtain ⟨fuel', hp'⟩ := Parse.exists_loop_iterate rfl hp
    simp only [Parse.iterate, Parse.requestLine, hcrlf, hline, if_true] at hp'
    exact ih hp'
  | line hpr hcolon hrest ih =>
    obtain ⟨fuel', hp'⟩ := Parse.exists_loop_iterate rfl hp
    simp only [Parse.iterate, Parse.header, hpr, hcolon] at hp'
    exact ih hp'
  | last hpr hcolon =>
    obtain ⟨fuel', hp'⟩ := Parse.exists_loop_iterate rfl hp
    simp only [Parse.iterate, Parse.header, hpr, hcolon] at hp'
    -- A zero byte ends the loop here, another one ends it in the next iteration.
    split_ifs at hp'
    · obtain rfl := loop_of_not_hasmore rfl hp'
      exact ⟨rfl, rfl⟩
    · obtain ⟨fuel'', hp''⟩ := Parse.exists_loop_iterate rfl hp'
      obtain rfl := loop_of_not_hasmore rfl hp''
      exact ⟨rfl, rfl⟩

theorem Waiting.ne_over {a : HttpAnalyse} (h : Waiting a) : a.m_state_ ≠ .CHECK_STATE_OVER := by
  rcases h with h | h <;> simp [h]

/-- A call ends where the relation says, whatever byte is behind the buffer. -/
theorem Parses.parseRequest {a a' : HttpAnalyse} {buffer buffer' : List UInt8}
    (h : Parses a buffer a' buffer') (hwait : Waiting a) (beyond : UInt8) :
    ∃ ok, a.parseRequest beyond buffer = some (a', buffer', ok) := by
  obtain ⟨p, hp⟩ := Parse.exists_loop_length_eq beyond hwait.ne_over buffer false
  obtain ⟨rfl, rfl⟩ := h.loop_eq hp
  exact ⟨p.ok, by rw [HttpAnalyse.parseRequest, hp]; rfl⟩

/-- A call on a parser that waits ends: each line that is taken makes the buffer shorter. -/
theorem exists_parses {a : HttpAnalyse} (hwait : Waiting a) (buffer : List UInt8) :
    ∃ a' buffer', Parses a buffer a' buffer' ∧ (Waiting a' ∨ a'.isover = true) := by
  induction hlen : buffer.length using Nat.strong_induction_on generalizing a buffer with
  | _ n ih =>
    cases hcrlf : findCRLF buffer with
    | none => exact ⟨a, buffer, .unfinished hwait hcrlf, .inl hwait⟩
    | some crlf =>
      have hle := add_two_le_of_findCRLF hcrlf
      have hdrop : (buffer.drop (crlf + 2)).length < n := by
        rw [List.length_drop]
        omega
      obtain ⟨m_state_, request⟩ := a
      rcases hwait with rfl | rfl
      · rcases hline : processHeadRequest request (buffer.take crlf) with ⟨request', _ | _⟩
        · exact ⟨_, _, .rejected hcrlf hline, .inl (.inl rfl)⟩
        · obtain ⟨a', buffer', hrest, hstate⟩ :=
            ih _ hdrop (a := ⟨.CHECK_STATE_HEADER, request'⟩) (.inr rfl) _ rfl
          exact ⟨a', buffer', .accepted hcrlf hline hrest, hstate⟩
      · rcases hcolon : splitAtByte 58 (buffer.take crlf) with ⟨field, _ | bytes⟩
        · exact ⟨_, _, .last hcrlf hcolon, .inr rfl⟩
        · obtain ⟨a', buffer', hrest, hstate⟩ :=
            ih _ hdrop (a := ⟨.CHECK_STATE_HEADER, request.addHeader field bytes⟩) (.inr rfl) _ rfl
          exact ⟨a', buffer', .line hcrlf hcolon hrest, hstate⟩

/-! ### Bytes that arrive later -/

/-- Bytes that arrive later stay in the buffer once the parser is over. -/
theorem Parses.append {a a' : HttpAnalyse} {buffer buffer' : List UInt8}
    (h : Parses a buffer a' buffer') (hover : a'.isover = true) (more : List UInt8) :
    Parses a (buffer ++ more) a' (buffer' ++ more) := by
  induction h with
  | unfinished hwait => exact absurd (eq_of_beq hover) hwait.ne_over
  | rejected => exact absurd hover (by simp [isover])
  | accepted hcrlf hline hrest ih =>
    rw [← take_append_of_findCRLF hcrlf more] at hline
    have ih := ih hover
    rw [← drop_append_of_findCRLF hcrlf more] at ih
    exact .accepted (findCRLF_append hcrlf more) hline ih
  | line hpr hcolon hrest ih =>
    rw [← take_append_of_findCRLF hpr more] at hcolon
    have ih := ih hover
    rw [← drop_append_of_findCRLF hpr more] at ih
    exact .line (findCRLF_append hpr more) hcolon ih
  | last hpr hcolon =>
    rw [← take_append_of_findCRLF hpr more] at hcolon
    rw [← drop_append_of_findCRLF hpr more]
    exact .last (findCRLF_append hpr more) hcolon

/-- Two calls with bytes that arrive in between are one call on all the bytes. -/
theorem Parses.resume {a a' a'' : HttpAnalyse} {buffer buffer' buffer'' more : List UInt8}
    (h : Parses a buffer a' buffer') (hwait : Waiting a')
    (h' : Parses a' (buffer' ++ more) a'' buffer'') : Parses a (buffer ++ more) a'' buffer'' := by
  induction h with
  | unfinished => exact h'
  | @rejected request request' buffer crlf hcrlf hline =>
    have hcrlf' := findCRLF_append hcrlf more
    have hagain := processHeadRequest_again hline
    rw [← take_append_of_findCRLF hcrlf more] at hline hagain
    -- The second call finds the same line and rejects it again.
    cases h' with
    | unfinished _ hnone => exact absurd hnone (by simp [hcrlf'])
    | rejected hcrlf'' hline' =>
      obtain rfl := Option.some.inj (hcrlf'.symm.trans hcrlf'')
      obtain rfl := (Prod.mk.inj (hagain.symm.trans hline')).1
      exact .rejected hcrlf' hline
    | accepted hcrlf'' hline' =>
      obtain rfl := Option.some.inj (hcrlf'.symm.trans hcrlf'')
      exact absurd (Prod.mk.inj (hagain.symm.trans hline')).2 (by simp)
  | accepted hcrlf hline hrest ih =>
    rw [← take_append_of_findCRLF hcrlf more] at hline
    have ih := ih hwait h'
    rw [← drop_append_of_findCRLF hcrlf more] at ih
    exact .accepted (findCRLF_append hcrlf more) hline ih
  | line hpr hcolon hrest ih =>
    rw [← take_append_of_findCRLF hpr more] at hcolon
    have ih := ih hwait h'
    rw [← drop_append_of_findCRLF hpr more] at ih
    exact .line (findCRLF_append hpr more) hcolon ih
  | last => exact absurd rfl hwait.ne_over

/-- A call that waits for bytes changes nothing when it is repeated. -/
theorem Parses.idle {a a' : HttpAnalyse} {buffer buffer' : List UInt8}
    (h : Parses a buffer a' buffer') (hwait : Waiting a') : Parses a' buffer' a' buffer' := by
  induction h with
  | unfinished hwait hcrlf => exact .unfinished hwait hcrlf
  | rejected hcrlf hline => exact .rejected hcrlf (processHeadRequest_again hline)
  | accepted _ _ _ ih => exact ih hwait
  | line _ _ _ ih => exact ih hwait
  | last => exact absurd rfl hwait.ne_over

/-- The calls on the chunks end, and together they are one call. -/
theorem exists_feed (chunks : List (List UInt8 × UInt8)) {a : HttpAnalyse} (hwait : Waiting a)
    {buffer : List UInt8} (hbuffer : Parses a buffer a buffer) :
    ∃ a' buffer' later, a.feed buffer chunks = some (a', buffer', later) ∧
      Parses a (buffer ++ (chunks.map Prod.fst).flatten) a' (buffer' ++ later.flatten) := by
  induction chunks generalizing a buffer with
  | nil => exact ⟨a, buffer, [], rfl, by simpa using hbuffer⟩
  | cons entry chunks ih =>
    obtain ⟨chunk, beyond⟩ := entry
    obtain ⟨a', buffer', hparses, hstate⟩ := exists_parses hwait (buffer ++ chunk)
    obtain ⟨ok, hcall⟩ := hparses.parseRequest hwait beyond
    rw [List.map_cons, List.flatten_cons, ← List.append_assoc]
    cases hover : a'.isover with
    | true =>
      refine ⟨a', buffer', chunks.map Prod.fst, ?_, hparses.append hover _⟩
      rw [feed, hcall, Option.bind_some]
      exact if_pos hover
    | false =>
      have hwait' : Waiting a' := by simpa [hover] using hstate
      obtain ⟨a'', buffer'', later, hfeed, hrest⟩ := ih hwait' (hparses.idle hwait')
      refine ⟨a'', buffer'', later, ?_, hparses.resume hwait' hrest⟩
      rw [feed, hcall, Option.bind_some]
      simpa [hover] using hfeed

/-- However the bytes are cut into chunks, and whatever stale bytes are behind the buffer at the
calls, a parser that waits ends the calls on the chunks as one call on all the bytes. The buffer
that it leaves there is the one that it leaves here with the chunks that were not appended. -/
theorem feed_eq_parseRequest {a : HttpAnalyse} (hwait : Waiting a)
    (chunks : List (List UInt8 × UInt8)) (beyond : UInt8) :
    ∃ a' buffer' later ok, a.feed [] chunks = some (a', buffer', later) ∧
      a.parseRequest beyond (chunks.map Prod.fst).flatten =
        some (a', buffer' ++ later.flatten, ok) := by
  have hidle : Parses a [] a [] := .unfinished hwait rfl
  obtain ⟨a', buffer', later, hfeed, hparses⟩ := exists_feed chunks hwait hidle
  obtain ⟨ok, hcall⟩ := hparses.parseRequest hwait beyond
  exact ⟨a', buffer', later, ok, hfeed, hcall⟩

/-- A new parser waits. The cuts are between the carriage return and the line feed of the empty
line, and behind it. -/
theorem feed_eq_parseRequest_new :
    ∃ a' buffer' later ok,
      new.feed [] [(bytesOf "GET / HTTP/1.1\r\n\r", 7), (bytesOf "\nab", 0), (bytesOf "c", 1)] =
        some (a', buffer', later) ∧
      new.parseRequest 0 ([(bytesOf "GET / HTTP/1.1\r\n\r", 7), (bytesOf "\nab", 0),
        (bytesOf "c", 1)].map Prod.fst).flatten = some (a', buffer' ++ later.flatten, ok) :=
  feed_eq_parseRequest (.inl rfl) _ 0

end HttpAnalyse

end TinyMuduo
