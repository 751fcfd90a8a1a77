import TinyMuduo.Connection.BufferedConnection
import TinyMuduo.Http.Exchange
import TinyMuduo.Http.Incremental
import TinyMuduo.Http.Scan

/-!
# The HTTP server on the buffers of a connection

`TinyMuduo.Http.Exchange` runs the server on byte queues: the parser takes bytes from a list, and
`send` adds to one. In the source the parser works with pointers into the input buffer
(`TinyMuduo.Http.Scan`), and `sendInLoop` and `handlewrite` move the bytes of the output buffer
(`TinyMuduo.Connection.BufferedConnection`). This file puts these together: `handleRead` reads into
the input buffer and calls `onMessage`, which parses there and calls `send` and `shutdown` on the
same connection.

As long as no more than 1024 bytes wait in a buffer, every step is that of the byte queues, so what
goes out is what the calls of `send` before the first `shutdown` passed. The byte behind the unread
ones, which the parser reads at the end of a request, makes no difference.

## Main definitions

* `HttpAnalyse.Scan.parseRequest`: the parser on a buffer.
* `HttpServer.BufferedExchange`, `HttpServer.BufferedExchange.step`: a connection of the server.

## Main results

* `HttpAnalyse.parseRequest_beyond`: the byte behind the unread ones.
* `HttpAnalyse.Scan.exists_parseRequest`: the parser on a buffer and on its unread bytes.
* `HttpServer.BufferedExchange.wire_of_reaches`: what the server does, in every run.
-/

namespace TinyMuduo

open Reading

namespace HttpAnalyse

/-! ### The byte behind the readable ones -/

namespace Parse

variable {beyond beyond' : UInt8}

/-- The content is not read. -/
theorem eq_of_loop_content {p q : Parse} (hmore : p.hasmore = true)
    (hstate : p.analyse.m_state_ = .CHECK_STATE_CONTENT) {fuel : ℕ}
    (h : p.loop beyond fuel = some q) :
    q = { p with
      analyse := { p.analyse with m_state_ := .CHECK_STATE_OVER }
      hasmore := false } := by
  obtain ⟨fuel', hloop⟩ := exists_loop_iterate hmore h
  simp only [iterate, hstate] at hloop
  exact loop_of_not_hasmore rfl hloop

/-- At a line without a colon the loop goes over, whatever the byte behind the line. -/
theorem eq_of_loop_last {p q : Parse} (hmore : p.hasmore = true)
    (hstate : p.analyse.m_state_ = .CHECK_STATE_HEADER) {pr : ℕ}
    (hpr : findCRLF p.buffer = some pr) {field : List UInt8}
    (hcolon : splitAtByte 58 (p.buffer.take pr) = (field, none)) {fuel : ℕ}
    (h : p.loop beyond fuel = some q) :
    q = { p with
      analyse := { p.analyse with m_state_ := .CHECK_STATE_OVER }
      buffer := p.buffer.drop (pr + 2)
      hasmore := false } := by
  obtain ⟨fuel', hloop⟩ := exists_loop_iterate hmore h
  simp only [iterate, hstate, header, hpr, hcolon] at hloop
  split_ifs at hloop
  · exact loop_of_not_hasmore rfl hloop
  · exact eq_of_loop_content (by exact hmore) rfl hloop

/-- Everywhere else the byte behind the line is not read. -/
theorem iterate_beyond {p : Parse} (hlast : p.analyse.m_state_ = .CHECK_STATE_HEADER →
      ∀ pr field, findCRLF p.buffer = some pr →
        splitAtByte 58 (p.buffer.take pr) ≠ (field, none)) :
    p.iterate beyond = p.iterate beyond' := by
  unfold iterate
  cases hstate : p.analyse.m_state_ with
  | CHECK_STATE_HEADER =>
    simp only [header]
    cases hpr : findCRLF p.buffer with
    | none => rfl
    | some pr =>
      rcases hcolon : splitAtByte 58 (p.buffer.take pr) with ⟨field, _ | bytes⟩
      · exact absurd hcolon (hlast hstate pr field hpr)
      · simp only [hcolon]
  | _ => rfl

private theorem loop_beyond {p q q' : Parse} {fuel fuel' : ℕ} (h : p.loop beyond fuel = some q)
    (h' : p.loop beyond' fuel' = some q') : q = q' := by
  induction fuel generalizing p fuel' with
  | zero => exact absurd h (by simp [loop])
  | succ fuel ih =>
    cases hmore : p.hasmore with
    | false => rw [loop_of_not_hasmore hmore h, loop_of_not_hasmore hmore h']
    | true =>
      by_cases hlast : p.analyse.m_state_ = .CHECK_STATE_HEADER ∧ ∃ pr field,
          findCRLF p.buffer = some pr ∧ splitAtByte 58 (p.buffer.take pr) = (field, none)
      · obtain ⟨hstate, pr, field, hpr, hcolon⟩ := hlast
        rw [eq_of_loop_last hmore hstate hpr hcolon h, eq_of_loop_last hmore hstate hpr hcolon h']
      · have hiterate : p.iterate beyond = p.iterate beyond' :=
          iterate_beyond fun hstate pr field hpr hcolon =>
            hlast ⟨hstate, pr, field, hpr, hcolon⟩
        rw [loop, if_pos hmore, hiterate] at h
        obtain ⟨fuel'', h'⟩ := exists_loop_iterate hmore h'
        exact ih h h'

end Parse

/-- The byte behind the readable ones makes no difference to `parseRequest`. -/
theorem parseRequest_beyond (a : HttpAnalyse) (buffer : List UInt8) (beyond beyond' : UInt8) :
    a.parseRequest beyond buffer = a.parseRequest beyond' buffer := by
  by_cases hstate : a.m_state_ = .CHECK_STATE_OVER
  · rw [parseRequest, parseRequest, Parse.loop_eq_none_of_over beyond rfl hstate,
      Parse.loop_eq_none_of_over beyond' rfl hstate]
  · obtain ⟨p, hp⟩ := Parse.exists_loop_length_eq beyond hstate buffer false
    obtain ⟨p', hp'⟩ := Parse.exists_loop_length_eq beyond' hstate buffer false
    rw [parseRequest, parseRequest, hp, hp', Parse.loop_beyond hp hp']

namespace Scan

/-- `parseRequest`: the parser and the buffer after it, and what it returns. -/
def parseRequest (outside : ℕ → UInt8) (a : HttpAnalyse) (b : Buffer) :
    Option (HttpAnalyse × Buffer × Bool) :=
  (loop (b.memory outside) (b.readableBytes + 3) ⟨a, b, false, true⟩).1.map fun p =>
    (p.analyse, p.buffer, p.ok)

/-- The vector of the buffer stays, and its indices stay in order. -/
theorem iterate_ensures {p : Scan} (h : p.buffer.Unread) :
    p.iterate.Ensures fun p' => p'.buffer.Unread := by
  have hretrieve (endIndex : ℕ) :
      (ofOption (p.buffer.retrieveUntil endIndex) : Reading UInt8 Buffer).Ensures Buffer.Unread :=
    ensures_ofOption fun b' hb' => h.retrieveUntil hb'
  unfold iterate
  cases p.analyse.m_state_ with
  | CHECK_STATE_REQUESTLINE =>
    refine (ensures_trivial _).bind fun crlf _ => ?_
    cases crlf with
    | none => exact ensures_pure h
    | some crlf =>
      refine (ensures_trivial _).bind fun r _ => ?_
      obtain ⟨request, _ | _⟩ := r
      · exact ensures_pure h
      · exact (hretrieve _).bind fun b' hb' => ensures_pure hb'
  | CHECK_STATE_HEADER =>
    refine (ensures_trivial _).bind fun pr _ => ?_
    cases pr with
    | none => exact ensures_pure h
    | some pr =>
      exact (ensures_trivial _).bind fun r _ => (hretrieve _).bind fun b' hb' => ensures_pure hb'
  | CHECK_STATE_CONTENT | CHECK_STATE_OVER => exact ensures_pure h

private theorem loop_ensures {m : ℕ → UInt8} {fuel : ℕ} {p q : Scan} (h : p.buffer.Unread)
    (hq : (loop m fuel p).1 = some q) : q.buffer.Unread := by
  induction fuel generalizing p with
  | zero => cases hq
  | succ fuel ih =>
    rw [loop] at hq
    split_ifs at hq
    · rcases hp' : p.iterate m with _ | ⟨p', log⟩
      · rw [hp'] at hq
        cases hq
      · rw [hp'] at hq
        exact ih (iterate_ensures h m p' log hp') hq
    · cases hq
      exact h

/-- On a buffer the parser does what it does on the unread bytes, whatever is behind the vector and
behind these bytes. -/
theorem exists_parseRequest {b : Buffer} (h : b.Unread) (outside : ℕ → UInt8) {a : HttpAnalyse}
    (hstate : a.m_state_ ≠ .CHECK_STATE_OVER) (beyond : UInt8) :
    ∃ a' b' ok, parseRequest outside a b = some (a', b', ok) ∧ b'.Unread ∧
      a.parseRequest beyond b.readable = some (a', b'.readable, ok) := by
  have hbounded : b.Bounded := h.inv.bounded (by rw [h.sized.eq]; decide)
  have hloop := toParse_loop (p := ⟨a, b, false, true⟩) hbounded outside (b.readableBytes + 3)
  obtain ⟨p, hp⟩ := Parse.exists_loop_length_eq (b.memory outside b.writeIndex_) hstate b.readable
    false
  rw [h.readableBytes_eq_length] at hloop
  obtain ⟨q, hq, rfl⟩ := Option.map_eq_some_iff.mp (hloop.trans hp)
  refine ⟨q.analyse, q.buffer, q.ok, ?_, loop_ensures h hq, ?_⟩
  · rw [parseRequest, h.readableBytes_eq_length, hq]
    rfl
  · rw [parseRequest_beyond a b.readable beyond (b.memory outside b.writeIndex_),
      HttpAnalyse.parseRequest, hp]
    rfl

end Scan

end HttpAnalyse

namespace HttpServer

open Transition

/-! ### The server on a connection -/

/-- The call of the connection that an effect stands for. -/
def Effect.applyBuffered (c : BufferedConnection) (fresh : ℕ → UInt8) (r : WriteResult) :
    Effect → Option BufferedConnection
  | httpCallback _ => some c
  | send message =>
    if c.state_ = .kConnected then (c.sendInLoop message r fresh).map (·.1) else some c
  | shutdown =>
    if c.state_ = .kConnected then some { c with state_ := .kDisconnecting }.shutdownInLoop
    else some c

/-- The calls of the connection in the order of the effects, each with the result of its `write`. -/
def applyAllBuffered (c : BufferedConnection) (fresh : ℕ → UInt8) (write : ℕ → WriteResult)
    (effects : List Effect) : Option BufferedConnection :=
  effects.zipIdx.foldlM (fun c (e, i) => e.applyBuffered c fresh (write i)) c

/-- `onMessage` on the input buffer: what it does, and the buffer that it leaves. -/
def onMessageBuffered (httpCallback_ : HttpCallback) (fresh outside : ℕ → UInt8) (buf : Buffer) :
    Option (List Effect × Buffer) :=
  (HttpAnalyse.Scan.parseRequest outside .new buf).bind fun (yser, buf', ok) =>
    let failed := if ok then [] else badRequest
    if yser.isover then
      let (effects, returns) := OnRequest httpCallback_ fresh yser.request_
      if returns then some (failed ++ effects, buf') else none
    else some (failed, buf')

/-- A connection of the server with its buffers, the effects so far, and the chunks that arrived. -/
structure BufferedExchange where
  conn : BufferedConnection
  log : List Effect
  chunks : List (List UInt8)

namespace BufferedExchange

/-- A connection that was just established. -/
def start (highWaterMark : ℕ) : BufferedExchange :=
  ⟨(BufferedConnection.init false false highWaterMark).connectEstablished, [], []⟩

/-- What happens to the connection. `handleRead` gets a chunk and passes the input buffer to
`onMessage`. -/
def step (httpCallback_ : HttpCallback) (fresh outside : ℕ → UInt8) (s : BufferedExchange) :
    Exchange.Action → Option BufferedExchange
  | .receive chunk write =>
    (s.conn.handleRead (some chunk) fresh).bind fun (c, _) =>
      (onMessageBuffered httpCallback_ fresh outside c.inputBuffer_).bind fun (effects, buf) =>
        (applyAllBuffered { c with inputBuffer_ := buf } fresh write effects).map fun c' =>
          ⟨c', s.log ++ effects, s.chunks ++ [chunk]⟩
  | .handlewrite r => (s.conn.handlewrite r).map fun (c, _) => { s with conn := c }

/-- The connection with byte queues for the buffers. -/
def exchange (s : BufferedExchange) : Exchange :=
  ⟨⟨some s.conn.inputBuffer_.readable, s.log⟩, s.conn.toConnection⟩

/-- A chunk is not empty, and at most 1024 bytes wait in each buffer: in the input buffer when the
chunk has arrived, and in the output buffer after the step. -/
def HasRoom (httpCallback_ : HttpCallback) (fresh : ℕ → UInt8) (s : BufferedExchange)
    (a : Exchange.Action) : Prop :=
  (∀ chunk, a.chunk = some chunk →
    chunk ≠ [] ∧ s.conn.inputBuffer_.readable.length + chunk.length ≤ 1024) ∧
  (s.exchange.step httpCallback_ fresh 0 a).conn.outputBuffer_.length ≤ 1024

instance (httpCallback_ : HttpCallback) (fresh : ℕ → UInt8) (s : BufferedExchange)
    (a : Exchange.Action) : Decidable (s.HasRoom httpCallback_ fresh a) :=
  match a with
  | .receive chunk _ => decidable_of_iff ((chunk ≠ [] ∧
      s.conn.inputBuffer_.readable.length + chunk.length ≤ 1024) ∧ _)
      (and_congr_left' (by simp [Exchange.Action.chunk]))
  | .handlewrite _ => decidable_of_iff _ (and_iff_right (by simp [Exchange.Action.chunk])).symm

/-- The buffers are queues. -/
structure Unread (s : BufferedExchange) : Prop where
  output : s.conn.outputBuffer_.Unread
  input : s.conn.inputBuffer_.Unread

end BufferedExchange

/-! ### One effect -/

section Effects

variable {c : BufferedConnection} {fresh : ℕ → UInt8} {r : WriteResult} {e : Effect}

/-- The effects add to the output queue. -/
theorem length_outputBuffer_le_apply (c : TcpConnection) (r : WriteResult) (e : Effect) :
    c.outputBuffer_.length ≤ (e.apply c r).outputBuffer_.length := by
  cases e with
  | httpCallback request => exact Nat.le_refl _
  | send message =>
    simp only [Effect.apply]
    split_ifs
    · simp [TcpConnection.sendInLoop_fst]
    · exact Nat.le_refl _
  | shutdown =>
    simp only [Effect.apply]
    split_ifs
    · simp
    · exact Nat.le_refl _

private theorem length_outputBuffer_le_foldl (write : ℕ → WriteResult) (effects : List (Effect × ℕ))
    (c : TcpConnection) : c.outputBuffer_.length ≤
      (effects.foldl (fun c (e, i) => e.apply c (write i)) c).outputBuffer_.length := by
  induction effects generalizing c with
  | nil => exact Nat.le_refl _
  | cons e effects ih => exact (length_outputBuffer_le_apply c _ e.1).trans (ih _)

/-- An effect does on the buffers what it does on the queues. -/
theorem exists_applyBuffered (h : c.outputBuffer_.Unread) (fresh : ℕ → UInt8)
    (hroom : (e.apply c.toConnection r).outputBuffer_.length ≤ 1024) :
    ∃ c', e.applyBuffered c fresh r = some c' ∧ c'.outputBuffer_.Unread ∧
      c'.inputBuffer_ = c.inputBuffer_ ∧ c'.toConnection = e.apply c.toConnection r := by
  have hstate : c.toConnection.state_ = c.state_ := rfl
  cases e with
  | httpCallback request => exact ⟨c, rfl, h, rfl, rfl⟩
  | send message =>
    simp only [Effect.apply, Effect.applyBuffered, hstate] at hroom ⊢
    split_ifs at hroom ⊢
    · obtain ⟨c', hc', htc, hunread, hinput⟩ := BufferedConnection.exists_sendInLoop h fresh hroom
      exact ⟨c', by rw [hc', Option.map_some], hunread, hinput, htc⟩
    · exact ⟨c, rfl, h, rfl, rfl⟩
  | shutdown =>
    simp only [Effect.apply, Effect.applyBuffered, hstate]
    split_ifs
    · refine ⟨_, rfl, ?_, ?_, BufferedConnection.toConnection_shutdownInLoop _⟩
      · rwa [BufferedConnection.outputBuffer_shutdownInLoop]
      · rw [BufferedConnection.inputBuffer_shutdownInLoop]
    · exact ⟨c, rfl, h, rfl, rfl⟩

private theorem exists_applyAllBuffered (c : BufferedConnection) (h : c.outputBuffer_.Unread)
    (fresh : ℕ → UInt8) (write : ℕ → WriteResult) (effects : List Effect)
    (hroom : (applyAll c.toConnection write effects).outputBuffer_.length ≤ 1024) :
    ∃ c', applyAllBuffered c fresh write effects = some c' ∧ c'.outputBuffer_.Unread ∧
      c'.inputBuffer_ = c.inputBuffer_ ∧
        c'.toConnection = applyAll c.toConnection write effects := by
  unfold applyAll at hroom ⊢
  unfold applyAllBuffered
  generalize effects.zipIdx = effects at hroom ⊢
  induction effects generalizing c with
  | nil => exact ⟨c, rfl, h, rfl, rfl⟩
  | cons e effects ih =>
    obtain ⟨e, i⟩ := e
    simp only [List.foldl_cons] at hroom
    obtain ⟨d, hd, hunread, hinput, htd⟩ := exists_applyBuffered h fresh
      ((length_outputBuffer_le_foldl write effects _).trans hroom)
    rw [← htd] at hroom
    obtain ⟨c', hc', hunread', hinput', htc⟩ := ih d hunread hroom
    refine ⟨c', ?_, hunread', hinput'.trans hinput, by rw [htc, htd, List.foldl_cons]⟩
    simp only [List.foldlM_cons, hd]
    exact hc'

end Effects

/-! ### One step -/

variable {httpCallback_ : HttpCallback} {fresh outside : ℕ → UInt8}

/-- `onMessage` does on the buffer what it does on the unread bytes, and returns if it returns
there. -/
theorem onMessageBuffered_cases (httpCallback_ : HttpCallback) (fresh outside : ℕ → UInt8)
    {b : Buffer} (h : b.Unread) (beyond : UInt8) :
    (∃ effects b', onMessageBuffered httpCallback_ fresh outside b = some (effects, b') ∧
      b'.Unread ∧
      onMessage httpCallback_ fresh beyond b.readable = (effects, some b'.readable)) ∨
    onMessageBuffered httpCallback_ fresh outside b = none ∧
      (onMessage httpCallback_ fresh beyond b.readable).2 = none := by
  obtain ⟨a', b', ok, hparse, hunread, heq⟩ :=
    HttpAnalyse.Scan.exists_parseRequest h outside (a := .new) (by simp [HttpAnalyse.new]) beyond
  simp only [onMessageBuffered, hparse, Option.bind_some, onMessage, heq]
  cases a'.isover with
  | false => exact .inl ⟨_, _, rfl, hunread, rfl⟩
  | true =>
    rcases OnRequest httpCallback_ fresh a'.request_ with ⟨effects, _ | _⟩
    · exact .inr ⟨rfl, rfl⟩
    · exact .inl ⟨_, _, rfl, hunread, rfl⟩

/-- The byte behind the unread ones makes no difference to the server. -/
theorem onMessage_beyond (beyond beyond' : UInt8) :
    onMessage httpCallback_ fresh beyond = onMessage httpCallback_ fresh beyond' := by
  funext buf
  rw [onMessage, onMessage, HttpAnalyse.parseRequest_beyond .new buf beyond beyond']

private theorem receive_beyond (beyond beyond' : UInt8) :
    Session.receive httpCallback_ fresh beyond = Session.receive httpCallback_ fresh beyond' := by
  funext s chunk
  rw [Session.receive, Session.receive, onMessage_beyond beyond beyond']

namespace BufferedExchange

variable {s s' : BufferedExchange} {a : Exchange.Action}

private theorem exchange_receive {chunk : List UInt8} {write : ℕ → WriteResult} (beyond : UInt8) :
    s.exchange.step httpCallback_ fresh beyond (.receive chunk write) =
      ⟨⟨(onMessage httpCallback_ fresh beyond (s.conn.inputBuffer_.readable ++ chunk)).2,
        s.log ++ (onMessage httpCallback_ fresh beyond (s.conn.inputBuffer_.readable ++ chunk)).1⟩,
      applyAll s.conn.toConnection write
        (onMessage httpCallback_ fresh beyond (s.conn.inputBuffer_.readable ++ chunk)).1⟩ :=
  rfl

/-- A step that leaves room, and returns on the queues, does on the buffers what it does there. -/
theorem Unread.exists_step (h : s.Unread) (hroom : s.HasRoom httpCallback_ fresh a)
    (hreturns : (s.exchange.step httpCallback_ fresh 0 a).session.inputBuffer_ ≠ none) :
    ∃ s', s.step httpCallback_ fresh outside a = some s' ∧ s'.Unread ∧
      s'.exchange = s.exchange.step httpCallback_ fresh 0 a ∧
      s'.chunks = s.chunks ++ a.chunk.toList := by
  cases a with
  | receive chunk write =>
    obtain ⟨hne, hfits⟩ := hroom.1 chunk rfl
    have houtput := hroom.2
    obtain ⟨c, n, hc, hinput, hread⟩ := BufferedConnection.exists_handleRead h.input
      (some chunk) fresh hfits
    obtain ⟨-, hout, hzero, htc⟩ := BufferedConnection.handleRead_eq_some hc
    rw [if_neg (by simp [hzero, hne])] at htc
    rw [exchange_receive] at hreturns houtput ⊢
    rw [Option.getD_some] at hread
    rw [← hread, ← htc] at houtput ⊢
    rw [← hread] at hreturns
    obtain ⟨effects, buf, hbuffered, hbuf, hmsg⟩ | ⟨-, hnone⟩ :=
      onMessageBuffered_cases httpCallback_ fresh outside hinput 0
    · rw [hmsg] at houtput ⊢
      let d : BufferedConnection := { c with inputBuffer_ := buf }
      obtain ⟨c', hc', hunread, hin, htc'⟩ :=
        exists_applyAllBuffered d (hout ▸ h.output) fresh write effects houtput
      refine ⟨⟨c', s.log ++ effects, s.chunks ++ [chunk]⟩, ?_, ⟨hunread, hin ▸ hbuf⟩, ?_, rfl⟩
      · simp only [step, hc, hbuffered, Option.bind_some]
        rw [hc', Option.map_some]
      · rw [exchange, hin, htc']
        rfl
    · exact absurd hnone hreturns
  | handlewrite r =>
    obtain ⟨c', hc', htc, hunread, hin⟩ := BufferedConnection.exists_handlewrite h.output r
    refine ⟨{ s with conn := c' }, ?_, ⟨hunread, hin ▸ h.input⟩, ?_,
      by simp [Exchange.Action.chunk]⟩
    · simp only [step, hc', Option.map_some]
    · simp only [exchange, hin, htc]
      rfl

/-- What a step that returns does on the queues. -/
theorem Unread.step (h : s.Unread) (hroom : s.HasRoom httpCallback_ fresh a)
    (hs : s.step httpCallback_ fresh outside a = some s') :
    s'.Unread ∧ s'.exchange = s.exchange.step httpCallback_ fresh 0 a ∧
      s'.chunks = s.chunks ++ a.chunk.toList := by
  have hreturns : (s.exchange.step httpCallback_ fresh 0 a).session.inputBuffer_ ≠ none := by
    cases a with
    | handlewrite r => simp [Exchange.step, exchange]
    | receive chunk write =>
      obtain ⟨c, n, hc, hinput, hread⟩ :=
        BufferedConnection.exists_handleRead h.input (some chunk) fresh (hroom.1 chunk rfl).2
      obtain ⟨effects, buf, -, -, hmsg⟩ | ⟨hnone, -⟩ :=
        onMessageBuffered_cases httpCallback_ fresh outside hinput 0
      · rw [exchange_receive, ← Option.getD_some (a := chunk) (b := []), ← hread, hmsg]
        simp
      · simp [BufferedExchange.step, hc, hnone] at hs
  obtain ⟨u, hu, hunread, hexchange, hchunks⟩ := h.exists_step hroom hreturns
  obtain rfl := Option.some.inj (hu.symm.trans hs)
  exact ⟨hunread, hexchange, hchunks⟩

private theorem unread_start (highWaterMark : ℕ) : (start highWaterMark).Unread :=
  ⟨Buffer.unread_new Buffer.kInitialSize, Buffer.unread_new Buffer.kInitialSize⟩

private theorem exchange_start (highWaterMark : ℕ) :
    (start highWaterMark).exchange = .start highWaterMark := by
  simp only [start, exchange, Exchange.start, BufferedConnection.connectEstablished,
    BufferedConnection.init, BufferedConnection.toConnection, Buffer.readable_new]
  rfl

/-- What holds in every run: the buffers are queues, and the connection is that of a run on
queues. -/
structure Inv (httpCallback_ : HttpCallback) (fresh : ℕ → UInt8) (s : BufferedExchange) :
    Prop where
  unread : s.Unread
  session : s.exchange.session = deliver httpCallback_ fresh 0 s.chunks
  conn : Exchange.Inv s.exchange.conn s.log

theorem Inv.step (h : s.Inv httpCallback_ fresh) (hroom : s.HasRoom httpCallback_ fresh a)
    (ha : a.Reliable) (hs : s.step httpCallback_ fresh outside a = some s') :
    s'.Inv httpCallback_ fresh := by
  obtain ⟨hunread, hexchange, hchunks⟩ := h.unread.step hroom hs
  have hlog : s'.log = s'.exchange.session.log := rfl
  have hconn : Exchange.Inv s.exchange.conn s.exchange.session.log := h.conn
  refine ⟨hunread, ?_, ?_⟩
  · rw [hexchange, hchunks]
    cases a with
    | receive chunk write =>
      simp only [Exchange.step, h.session, deliver, Exchange.Action.chunk, Option.toList_some,
        List.foldl_append, List.foldl_cons, List.foldl_nil]
    | handlewrite r =>
      simpa [Exchange.step, Exchange.Action.chunk] using h.session
  · rw [hlog, hexchange]
    exact hconn.step ha

/-- As long as no more than 1024 bytes wait in a buffer, a server on the buffers of a connection
does to the chunks that arrive what it does on queues of bytes, with any byte behind the unread
ones. The bytes on the socket and those that wait in the output buffer are those passed to `send`
before the first `shutdown`, in order; `state_` says whether `shutdown` was called, and the writing
side is closed exactly if it was called and no byte waits. A step that leaves room returns unless
the call on the queues does not return. -/
theorem wire_of_reaches (httpCallback_ : HttpCallback) (fresh outside : ℕ → UInt8)
    (highWaterMark : ℕ)
    (h : Reaches (ofStep (BufferedExchange.step httpCallback_ fresh outside))
      (fun s a => s.HasRoom httpCallback_ fresh a ∧ a.Reliable) (start highWaterMark) s) :
    (∀ beyond, deliver httpCallback_ fresh beyond s.chunks =
        ⟨some s.conn.inputBuffer_.readable, s.log⟩) ∧
      s.conn.written ++ s.conn.outputBuffer_.readable = wire s.log ∧
      s.conn.state_ = (if closed s.log then .kDisconnecting else .kConnected) ∧
      (s.conn.writeShut = true ↔ closed s.log = true ∧ s.conn.outputBuffer_.readableBytes = 0) ∧
      ∀ a, s.HasRoom httpCallback_ fresh a →
        (∀ chunk, a.chunk = some chunk →
          (deliver httpCallback_ fresh 0 (s.chunks ++ [chunk])).inputBuffer_ ≠ none) →
        ∃ s', s.step httpCallback_ fresh outside a = some s' := by
  have hinv : s.Inv httpCallback_ fresh := by
    refine h.invariant (I := BufferedExchange.Inv httpCallback_ fresh) ?_
      fun u a v hu hc hs => hu.step hc.1 hc.2 hs
    refine ⟨unread_start highWaterMark, ?_, ?_⟩
    · rw [exchange_start]
      rfl
    · rw [exchange_start]
      exact Exchange.inv_start highWaterMark
  obtain ⟨hunread, hsession, hconn⟩ := hinv
  refine ⟨fun beyond => ?_, hconn.stream, hconn.state, ?_, fun a hroom hreturns => ?_⟩
  · rw [deliver, receive_beyond beyond 0]
    exact hsession.symm
  · rw [hunread.output.readableBytes_eq_length, List.length_eq_zero_iff]
    exact hconn.shut
  · have hqueue : (s.exchange.step httpCallback_ fresh 0 a).session.inputBuffer_ ≠ none := by
      cases a with
      | handlewrite r => simp [Exchange.step, exchange]
      | receive chunk write =>
        simp only [Exchange.step, hsession]
        simpa [deliver] using hreturns chunk rfl
    obtain ⟨s', hs', -⟩ := hunread.exists_step hroom hqueue
    exact ⟨s', hs'⟩

/-- A request of which the socket takes 40 bytes of the answer, and then the rest. -/
theorem wire_of_reaches_not_found : ∃ s : BufferedExchange, s.conn.writeShut = true ∧
    s.conn.written ++ s.conn.outputBuffer_.readable = wire s.log := by
  let act : Bool → Exchange.Action := fun
    | false => .receive (bytesOf "GET / HTTP/1.1\r\n\r\n") fun _ => .room 40
    | true => .handlewrite (.room 2000)
  obtain ⟨s, hreach, hshut⟩ := Reaches.exists_of_run
    (C := fun s b => s.HasRoom defaultHttpCallback (fun _ => 0) (act b)) (s := start 64)
    (P := fun s => s.conn.writeShut = true)
    (fun s b => s.step defaultHttpCallback (fun _ => 0) (fun _ => 0) (act b)) [false, true]
    (by decide +kernel)
  have hreliable (b : Bool) : (act b).Reliable := by
    cases b <;> simp [act, Exchange.Action.Reliable]
  have hrun : Reaches
      (ofStep (BufferedExchange.step defaultHttpCallback (fun _ => 0) fun _ => 0))
      (fun s a => s.HasRoom defaultHttpCallback (fun _ => 0) a ∧ a.Reliable) (start 64) s :=
    hreach.map id fun u b v _ hroom hs => (Reaches.refl u).snoc ⟨hroom, hreliable b⟩ hs
  exact ⟨s, hshut, (wire_of_reaches _ _ _ 64 hrun).2.1⟩

end BufferedExchange

end HttpServer

end TinyMuduo
