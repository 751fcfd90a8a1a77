import TinyMuduo.Connection.TcpConnection
import TinyMuduo.Http.Decode
import TinyMuduo.Http.Respond
import TinyMuduo.Http.RoundTrip

/-!
# An HTTP server on a connection

`HttpServer::onMessage` runs inside `TcpConnection::handleRead`, on the thread of the loop, and its
calls of `send` and `shutdown` reach the socket and the output buffer of the same connection, which
`handlewrite` drains whenever the socket has room. This file puts the two together. Whatever the
peer sends, the bytes that go out are those of the calls of `send` before the first `shutdown`, in
order, and the writing side is closed as soon as they have left (`HttpServer.Exchange.wire_run`).

A response that fits into a new buffer is sent in a frame of 1032 bytes, the elements of the vector:
the cheap prepend area, the response, and zeros (`HttpServer.onRequest_eq`). Requests that each
become complete with one more chunk are answered in order, each in a frame of its own, up to the
first response that closes the connection; a reader that knows the frames reads them back
(`HttpServer.Exchange.readFrames_of_covers`).

## Main definitions

* `HttpServer.frame`, `HttpServer.readFrames`: what is sent for a response, and a reader.
* `HttpServer.Exchange`, `HttpServer.Exchange.run`: a connection of the server.
* `HttpServer.wire`, `HttpServer.closed`: what the effects of the server put on the wire.

## Main results

* `HttpServer.onRequest_eq`: the answer to a request.
* `HttpServer.Exchange.wire_run`: what goes out in every run.
* `HttpServer.Exchange.readFrames_of_covers`: requests are answered in frames, in order.
-/

namespace TinyMuduo

/-- `handlewrite` closes the writing side exactly if the connection is being shut down and the last
byte has left. -/
theorem TcpConnection.writeShut_handlewrite {c : TcpConnection} (h : c.Drains)
    (hshut : c.writeShut = true ↔ c.state_ = .kDisconnecting ∧ c.outputBuffer_ = [])
    (r : WriteResult) : (c.handlewrite r).1.writeShut = true ↔
      c.state_ = .kDisconnecting ∧ (c.handlewrite r).1.outputBuffer_ = [] := by
  cases hwriting : c.channel_.isWritingEvent with
  | false => simpa [handlewrite, handlewriteOut, hwriting] using hshut
  | true =>
    have hwaits : c.outputBuffer_ ≠ [] := h.mp hwriting
    have hopen : c.writeShut = false := by simpa [hwaits] using hshut
    have hstays : c.shutdownIfDisconnecting = c := by
      simp [shutdownIfDisconnecting, shutdownInLoop, hwriting]
    cases r with
    | error e => simp [handlewrite, handlewriteOut, hwriting, hstays, hopen, hwaits]
    | room n =>
      by_cases hn : min n c.outputBuffer_.length > 0
      · by_cases hrest : (c.outputBuffer_.drop (min n c.outputBuffer_.length)).length = 0
        · have hnil := List.length_eq_zero_iff.mp hrest
          simp only [handlewrite, handlewriteOut, hwriting, if_true, if_pos hn, hrest,
            beq_self_eq_true, shutdownIfDisconnecting]
          split_ifs with hstate
          · simp [shutdownInLoop, hnil, hstate]
          · simp [hopen, hstate]
        · have hmore : c.outputBuffer_.drop (min n c.outputBuffer_.length) ≠ [] :=
            fun hnil => hrest (by rw [hnil, List.length_nil])
          simp only [handlewrite, handlewriteOut, hwriting, if_true, if_pos hn, beq_iff_eq,
            if_neg hrest]
          simpa [hopen] using fun _ => hmore
      · simp only [handlewrite, handlewriteOut, hwriting, if_true, if_neg hn]
        simp [hstays, hopen, hwaits]

namespace HttpServer

/-! ### The frame of a response -/

/-- The elements of a new buffer to which a text was appended that fits. -/
def frame (text : List UInt8) : List UInt8 :=
  List.replicate 8 0 ++ text ++ List.replicate (1024 - text.length) 0

theorem length_frame {text : List UInt8} (h : text.length ≤ 1024) : (frame text).length = 1032 := by
  simp only [frame, List.length_append, List.length_replicate]
  omega

/-- A new buffer to which a text was appended. -/
structure Filled (b : Buffer) (text : List UInt8) : Prop where
  reader_eq : b.readerIndex_ = 8
  write_eq : b.writeIndex_ = 8 + text.length
  size_eq : b.buffer_.size = 1032
  block_eq : b.buffer_.block = frame text

private theorem filled_new (initialSize : ℕ) : Filled (Buffer.new initialSize) [] :=
  ⟨rfl, rfl, rfl, rfl⟩

section Append

variable {b : Buffer} {text data : List UInt8}

private theorem overwrite_frame (h : text.length + data.length ≤ 1024) :
    CharVector.overwrite (frame text) (8 + text.length) data = frame (text ++ data) := by
  have hlen : (List.replicate 8 (0 : UInt8) ++ text).length = 8 + text.length := by
    rw [List.length_append, List.length_replicate]
  have htake : (frame text).take (8 + text.length) = List.replicate 8 0 ++ text := by
    rw [frame, ← hlen, List.take_left]
  have hdrop : (frame text).drop (8 + text.length + data.length) =
      List.replicate (1024 - (text ++ data).length) 0 := by
    rw [frame, ← List.drop_drop, ← hlen, List.drop_left, List.drop_replicate, List.length_append,
      Nat.sub_sub]
  rw [CharVector.overwrite, htake, hdrop, List.take_of_length_le]
  · simp [frame]
  · rw [length_frame (by omega)]
    simp only [List.length_append, List.length_replicate]
    omega

theorem Filled.append (hb : Filled b text) (data : List UInt8) (fresh : ℕ → UInt8)
    (h : text.length + data.length ≤ 1024) :
    ∃ b', b.append data fresh = some b' ∧ Filled b' (text ++ data) := by
  have hwritable : b.writableBytes = 1032 - (8 + text.length) := by
    rw [Buffer.writableBytes, hb.size_eq, hb.write_eq]
    exact SizeT.sub_of_le (by omega) (by omega)
  have hspace : ¬ b.writableBytes < data.length := by omega
  have hend : SizeT.add b.writeIndex_ data.length = 8 + (text ++ data).length := by
    rw [hb.write_eq, SizeT.add_of_lt (by omega), List.length_append, Nat.add_assoc]
  have happend : b.append data fresh =
      some { b with
        buffer_ := b.buffer_.write b.writeIndex_ data
        writeIndex_ := 8 + (text ++ data).length } := by
    rw [Buffer.append, Buffer.ensureWritableBytes, if_neg hspace, Option.map_some,
      Buffer.hasWritten, hend]
  refine ⟨_, happend, hb.reader_eq, rfl, hb.size_eq, ?_⟩
  simp only [CharVector.write, hb.write_eq, hb.block_eq]
  exact overwrite_frame h

theorem Filled.foldlM (hb : Filled b text) (pieces : List (List UInt8)) (fresh : ℕ → UInt8)
    (h : text.length + pieces.flatten.length ≤ 1024) :
    ∃ b', pieces.foldlM (fun buffer piece => buffer.append piece fresh) b = some b' ∧
      Filled b' (text ++ pieces.flatten) := by
  induction pieces generalizing b text with
  | nil => exact ⟨b, rfl, by simpa using hb⟩
  | cons piece pieces ih =>
    rw [List.flatten_cons, List.length_append] at h
    obtain ⟨c, hc, hfilled⟩ := hb.append piece fresh (by omega)
    obtain ⟨b', hb', hrest⟩ := ih hfilled (by rw [List.length_append]; omega)
    refine ⟨b', ?_, by simpa using hrest⟩
    rw [List.foldlM_cons, hc]
    exact hb'

theorem Filled.to_string (hb : Filled b text) (h : text.length ≤ 1024) :
    b.to_string = frame text := by
  rw [Buffer.to_string, CharVector.toList, hb.size_eq, hb.block_eq,
    List.take_of_length_le (length_frame h).le]

end Append

/-- The answer to a request whose response fits into a new buffer: the frame of the response, and
`shutdown` if the response closes the connection. -/
theorem onRequest_eq {httpCallback_ : HttpCallback} {req : HttpRequest} (fresh : ℕ → UInt8)
    (h : (response httpCallback_ req).pieces.flatten.length ≤ 1024) :
    OnRequest httpCallback_ fresh req =
      ([.httpCallback req, .send (frame (response httpCallback_ req).pieces.flatten)] ++
        if (response httpCallback_ req).getclose then [.shutdown] else [], true) := by
  obtain ⟨buf, hbuf, hfilled⟩ := (filled_new Buffer.kInitialSize).foldlM
    (response httpCallback_ req).pieces fresh (by simpa using h)
  have hstring : buf.to_string = frame (response httpCallback_ req).pieces.flatten :=
    hfilled.to_string (by simpa using h)
  have happend : (httpCallback_ req (.new (closes req))).appendToBuffer
      (.new Buffer.kInitialSize) fresh = some buf := hbuf
  have hlen : (frame (response httpCallback_ req).pieces.flatten).length ≠ 0 := by
    rw [length_frame h]
    decide
  simp only [OnRequest, happend, hstring, if_pos hlen]
  rfl

/-! ### What goes out -/

def Effect.isShutdown : Effect → Bool
  | shutdown => true
  | _ => false

/-- `shutdown` was called. -/
def closed (log : List Effect) : Bool := log.any Effect.isShutdown

/-- The bytes passed to `send` before the first call of `shutdown`. -/
def wire (log : List Effect) : List UInt8 := sentBytes (log.takeWhile fun e => !e.isShutdown)

theorem closed_append (log new : List Effect) : closed (log ++ new) = (closed log || closed new) :=
  List.any_append

/-- Nothing goes out behind the first call of `shutdown`. -/
theorem wire_append (log new : List Effect) :
    wire (log ++ new) = if closed log then wire log else wire log ++ wire new := by
  induction log with
  | nil => rfl
  | cons e log ih =>
    cases he : e.isShutdown with
    | true => simp [wire, closed, he]
    | false =>
      have hcons (tail : List Effect) : wire (e :: tail) = sentBytes [e] ++ wire tail := by
        rw [wire, List.takeWhile_cons, if_pos (by simp [he])]
        exact sentBytes_append [e] _
      have hclosed : closed (e :: log) = closed log := by simp [closed, he]
      rw [List.cons_append, hcons, hcons, hclosed, ih]
      split_ifs <;> simp

/-- The call of the connection that an effect stands for. `r` is the result of the `write` of
`sendInLoop`. -/
def Effect.apply (c : TcpConnection) (r : WriteResult) : Effect → TcpConnection
  | httpCallback _ => c
  | send message => if c.state_ = .kConnected then (c.sendInLoop message r).1 else c
  | shutdown => if c.state_ = .kConnected then (c.setState .kDisconnecting).shutdownInLoop else c

/-- The calls of the connection in the order of the effects, each with the result of its `write`. -/
def applyAll (c : TcpConnection) (write : ℕ → WriteResult) (effects : List Effect) :
    TcpConnection :=
  effects.zipIdx.foldl (fun c (e, i) => e.apply c (write i)) c

/-- A connection of the server: its input buffer and the effects so far, and the connection. -/
structure Exchange where
  session : Session
  conn : TcpConnection

namespace Exchange

/-- What happens to the connection: bytes arrive, and the server answers them, with the results of
the `write` calls; or the socket has room. -/
inductive Action
  | receive (chunk : List UInt8) (write : ℕ → WriteResult)
  | handlewrite (r : WriteResult)

/-- The bytes that arrive. -/
def Action.chunk : Action → Option (List UInt8)
  | receive chunk _ => some chunk
  | handlewrite _ => none

/-- No `write` fails in a way that makes `sendInLoop` drop its message. -/
def Action.Reliable : Action → Prop
  | receive _ write => ∀ i, (write i).faultError = false
  | handlewrite _ => True

/-- The effects of the bytes that arrive. -/
def effects (httpCallback_ : HttpCallback) (fresh : ℕ → UInt8) (beyond : UInt8) (s : Session)
    (chunk : List UInt8) : List Effect :=
  match s.inputBuffer_ with
  | none => []
  | some buf => (onMessage httpCallback_ fresh beyond (buf ++ chunk)).1

def step (httpCallback_ : HttpCallback) (fresh : ℕ → UInt8) (beyond : UInt8) (s : Exchange) :
    Action → Exchange
  | .receive chunk write =>
    { session := s.session.receive httpCallback_ fresh beyond chunk
      conn := applyAll s.conn write (effects httpCallback_ fresh beyond s.session chunk) }
  | .handlewrite r => { s with conn := (s.conn.handlewrite r).1 }

/-- A connection that was just established. -/
def start (highWaterMark : ℕ) : Exchange :=
  ⟨⟨some [], []⟩, (TcpConnection.init false false highWaterMark).connectEstablished⟩

/-- What was sent before the first `shutdown` is on the socket or waits for it, and the writing side
is closed when nothing waits. -/
structure Inv (c : TcpConnection) (log : List Effect) : Prop where
  stream : c.written ++ c.outputBuffer_ = wire log
  state : c.state_ = if closed log then .kDisconnecting else .kConnected
  drains : c.Drains
  shut : c.writeShut = true ↔ closed log = true ∧ c.outputBuffer_ = []

variable {c : TcpConnection} {log : List Effect}

theorem inv_start (highWaterMark : ℕ) : Inv (start highWaterMark).conn [] :=
  ⟨rfl, rfl, (TcpConnection.drains_init _ _ _).connectEstablished, by simp [start, closed,
    TcpConnection.init]⟩

theorem Inv.send (h : Inv c log) {r : WriteResult} (hr : c.faults r = false)
    (message : List UInt8) :
    Inv (Effect.apply c r (.send message)) (log ++ [.send message]) := by
  have hclosed : closed (log ++ [.send message]) = closed log := by
    simp [closed, Effect.isShutdown]
  cases hc : closed log with
  | true =>
    have hstate := h.state
    rw [hc, if_pos rfl] at hstate
    have happly : Effect.apply c r (.send message) = c := if_neg (by simp [hstate])
    rw [happly]
    exact ⟨by rw [h.stream, wire_append, if_pos hc], by rw [hclosed, h.state], h.drains,
      by rw [hclosed, h.shut]⟩
  | false =>
    have hstate := h.state
    rw [hc, if_neg Bool.false_ne_true] at hstate
    have happly : Effect.apply c r (.send message) = (c.sendInLoop message r).1 := if_pos hstate
    have hwire : wire [.send message] = message := by simp [wire, Effect.isShutdown, sentBytes]
    rw [happly]
    refine ⟨?_, ?_, h.drains.sendInLoop message r, ?_⟩
    · rw [TcpConnection.written_sendInLoop, h.stream, wire_append, hc, hwire, hr]
      simp
    · rw [TcpConnection.state_sendInLoop, hclosed, h.state]
    · rw [hclosed, hc, TcpConnection.sendInLoop_fst, h.shut, hc]
      simp

theorem Inv.shutdown (h : Inv c log) (r : WriteResult) :
    Inv (Effect.apply c r .shutdown) (log ++ [.shutdown]) := by
  have hclosed : closed (log ++ [.shutdown]) = true := by
    simp [closed, Effect.isShutdown]
  have hwire : wire (log ++ [.shutdown]) = wire log := by
    rw [wire_append]
    simp [wire, Effect.isShutdown, sentBytes]
  cases hc : closed log with
  | true =>
    have hstate := h.state
    rw [hc, if_pos rfl] at hstate
    have happly : Effect.apply c r .shutdown = c := if_neg (by simp [hstate])
    rw [happly]
    exact ⟨by rw [h.stream, hwire], by rw [hclosed, h.state, hc], h.drains,
      by rw [hclosed, h.shut, hc]⟩
  | false =>
    have hstate := h.state
    rw [hc, if_neg Bool.false_ne_true] at hstate
    have happly : Effect.apply c r .shutdown = (c.setState .kDisconnecting).shutdownInLoop :=
      if_pos hstate
    have hshut : c.writeShut = false := by simpa [hc] using h.shut
    have hdrains : c.channel_.isWritingEvent = true ↔ c.outputBuffer_ ≠ [] := h.drains
    rw [happly]
    refine ⟨by simpa [hwire] using h.stream, by simp [hclosed], by
      simpa [TcpConnection.Drains] using hdrains, ?_⟩
    cases hwriting : c.channel_.isWritingEvent <;>
      simp_all [TcpConnection.shutdownInLoop]

theorem Inv.apply (h : Inv c log) (e : Effect) {r : WriteResult}
    (hr : r.faultError = false) : Inv (e.apply c r) (log ++ [e]) := by
  cases e with
  | httpCallback request =>
    have hwire : wire (log ++ [.httpCallback request]) = wire log := by
      rw [wire_append]
      simp [wire, Effect.isShutdown, sentBytes]
    have hclosed : closed (log ++ [.httpCallback request]) = closed log := by
      simp [closed, Effect.isShutdown]
    exact ⟨h.stream.trans hwire.symm, hclosed ▸ h.state, h.drains, hclosed ▸ h.shut⟩
  | send message => exact h.send (by simp [TcpConnection.faults, hr]) message
  | shutdown => exact h.shutdown r

theorem Inv.applyAll (h : Inv c log) {write : ℕ → WriteResult}
    (hwrite : ∀ i, (write i).faultError = false)
    (effects : List Effect) : Inv (applyAll c write effects) (log ++ effects) := by
  suffices hfrom : ∀ n, Inv ((effects.zipIdx n).foldl (fun c (e, i) => e.apply c (write i)) c)
      (log ++ effects) from hfrom 0
  induction effects generalizing c log with
  | nil => simpa using h
  | cons e effects ih =>
    intro n
    have hrest := ih (h.apply e (hwrite n)) (n + 1)
    rwa [List.append_assoc] at hrest

theorem Inv.handlewrite (h : Inv c log) (r : WriteResult) : Inv (c.handlewrite r).1 log := by
  have hdisconnecting : c.state_ = .kDisconnecting ↔ closed log = true := by
    rw [h.state]
    cases closed log <;> simp
  have hshut := TcpConnection.writeShut_handlewrite h.drains
    (by rw [hdisconnecting]; exact h.shut) r
  obtain ⟨shut, hfst⟩ := c.handlewrite_fst r
  refine ⟨?_, ?_, ?_, by rw [hshut, hdisconnecting]⟩
  · rw [hfst]
    exact (c.written_handlewriteOut r).trans h.stream
  · rw [hfst]
    exact (c.state_handlewriteOut r).trans h.state
  · rw [hfst]
    exact h.drains.handlewriteOut r

section Runs

variable {httpCallback_ : HttpCallback} {fresh : ℕ → UInt8} {beyond : UInt8}

private theorem log_receive (s : Session) (chunk : List UInt8) :
    (s.receive httpCallback_ fresh beyond chunk).log =
      s.log ++ effects httpCallback_ fresh beyond s chunk := by
  obtain ⟨_ | buf, log⟩ := s
  · simp [Session.receive, effects]
  · rfl

theorem Inv.step {s : Exchange} (h : Inv s.conn s.session.log) {a : Action} (ha : a.Reliable) :
    Inv (s.step httpCallback_ fresh beyond a).conn
      (s.step httpCallback_ fresh beyond a).session.log := by
  cases a with
  | receive chunk write =>
    simp only [Exchange.step, log_receive]
    exact h.applyAll ha _
  | handlewrite r => exact h.handlewrite r

theorem Inv.foldl {s : Exchange} (h : Inv s.conn s.session.log) {actions : List Action}
    (ha : ∀ a ∈ actions, a.Reliable) :
    Inv (actions.foldl (Exchange.step httpCallback_ fresh beyond) s).conn
      (actions.foldl (Exchange.step httpCallback_ fresh beyond) s).session.log := by
  induction actions generalizing s with
  | nil => exact h
  | cons a actions ih =>
    rw [List.forall_mem_cons] at ha
    exact ih (h.step ha.1) ha.2

/-- The server does what it does to the chunks that arrive. -/
theorem session_foldl (s : Exchange) (actions : List Action) :
    (actions.foldl (step httpCallback_ fresh beyond) s).session =
      (actions.filterMap Action.chunk).foldl (Session.receive httpCallback_ fresh beyond)
        s.session := by
  induction actions generalizing s with
  | nil => rfl
  | cons a actions ih => cases a <;> exact ih _

variable (httpCallback_ fresh beyond) (highWaterMark : ℕ)

/-- The connection after what happened to it. -/
def run (actions : List Action) : Exchange :=
  actions.foldl (step httpCallback_ fresh beyond) (start highWaterMark)

variable {actions : List Action}

theorem inv_run (ha : ∀ a ∈ actions, a.Reliable) :
    Inv (run httpCallback_ fresh beyond highWaterMark actions).conn
      (run httpCallback_ fresh beyond highWaterMark actions).session.log :=
  Inv.foldl (inv_start highWaterMark) ha

theorem session_run (actions : List Action) :
    (run httpCallback_ fresh beyond highWaterMark actions).session =
      deliver httpCallback_ fresh beyond (actions.filterMap Action.chunk) :=
  session_foldl _ _

end Runs

end Exchange

/-! ### Requests that are answered in order -/

/-- The requests up to the first one whose response closes the connection. -/
def answered (httpCallback_ : HttpCallback) : List HttpRequest → List HttpRequest
  | [] => []
  | req :: reqs =>
    req :: if (response httpCallback_ req).getclose then [] else answered httpCallback_ reqs

/-- What a reader of frames makes of a response: one that closes the connection has all the rest of
its frame as its body. -/
def padded (r : HttpRespne) : HttpRespne :=
  if r.closeConnection_ then
    { r with body_ := r.body_ ++ List.replicate (1024 - r.pieces.flatten.length) 0 }
  else r

/-- The responses in the first `n` frames of a stream. -/
def readFrames : ℕ → List UInt8 → Option (List HttpRespne)
  | 0, _ => some []
  | n + 1, bytes => do
    let (r, _) ← HttpRespne.decode ((bytes.take 1032).drop 8)
    let rs ← readFrames n (bytes.drop 1032)
    return r :: rs

/-- The response has no line ends in its texts, and fits into a new buffer. -/
structure Fits (r : HttpRespne) : Prop where
  plain : r.Plain
  length_le : r.pieces.flatten.length ≤ 1024

theorem drop_frame (text : List UInt8) :
    (frame text).drop 8 = text ++ List.replicate (1024 - text.length) 0 := by
  rw [frame, List.append_assoc]
  rfl

/-- The rest of the frame of a response that closes the connection belongs to its body. -/
theorem flatten_pieces_padded {r : HttpRespne} (hclose : r.closeConnection_ = true) :
    (padded r).pieces.flatten = (frame r.pieces.flatten).drop 8 := by
  have hframing : (padded r).framing = r.framing := by
    simp [padded, hclose, HttpRespne.framing]
  have hpadded : padded r =
      { r with body_ := r.body_ ++ List.replicate (1024 - r.pieces.flatten.length) 0 } :=
    if_pos hclose
  rw [drop_frame, HttpRespne.pieces, hframing, hpadded, HttpRespne.pieces]
  simp only [List.flatten_append, List.flatten_cons, List.flatten_nil, List.append_nil,
    List.append_assoc]

theorem Fits.plain_padded {r : HttpRespne} (h : Fits r) : (padded r).Plain := by
  have hbody := h.plain.length_body_lt
  unfold padded
  split_ifs
  · refine ⟨h.plain.isLine_message, h.plain.isLine_name, h.plain.isLine_value,
      h.plain.colon_notMem_name, ?_⟩
    have hpieces : r.body_.length ≤ r.pieces.flatten.length := by
      simp only [HttpRespne.pieces, List.flatten_append, List.flatten_cons, List.length_append]
      omega
    have hle := h.length_le
    simp only [List.length_append, List.length_replicate]
    omega
  · exact h.plain

theorem Fits.decode_frame {r : HttpRespne} (h : Fits r) :
    ∃ rest, HttpRespne.decode ((frame r.pieces.flatten).drop 8) = some (padded r, rest) := by
  cases hclose : r.closeConnection_ with
  | false =>
    rw [drop_frame, padded, if_neg (by simp [hclose])]
    exact ⟨_, (HttpRespne.decode_append h.plain _).trans
      (HttpRespne.readBody_alive h.plain hclose _)⟩
  | true =>
    have hclose' : (padded r).closeConnection_ = true := by rw [padded, if_pos hclose, hclose]
    have hread := HttpRespne.decode_append h.plain_padded []
    rw [List.append_nil, List.append_nil] at hread
    rw [← flatten_pieces_padded hclose]
    exact ⟨_, hread.trans (HttpRespne.readBody_close h.plain_padded hclose')⟩

/-- A reader of frames reads the responses back. -/
theorem readFrames_flatMap {rs : List HttpRespne} (h : ∀ r ∈ rs, Fits r) :
    readFrames rs.length (rs.flatMap fun r => frame r.pieces.flatten) = some (rs.map padded) := by
  induction rs with
  | nil => rfl
  | cons r rs ih =>
    rw [List.forall_mem_cons] at h
    obtain ⟨behind, hdecode⟩ := h.1.decode_frame
    have hlen := length_frame h.1.length_le
    rw [List.flatMap_cons, List.length_cons, readFrames, ← hlen, List.take_left, List.drop_left,
      hdecode, ih h.2]
    rfl

section Answered

variable {httpCallback_ : HttpCallback} {fresh : ℕ → UInt8} {beyond : UInt8}

private theorem mem_of_mem_answered {req : HttpRequest} {reqs : List HttpRequest}
    (h : req ∈ answered httpCallback_ reqs) : req ∈ reqs := by
  induction reqs with
  | nil => exact h
  | cons head reqs ih =>
    rw [answered] at h
    rcases List.mem_cons.mp h with rfl | h
    · exact List.mem_cons_self
    · split_ifs at h
      · exact absurd h List.not_mem_nil
      · exact List.mem_cons_of_mem _ (ih h)

private theorem wire_flatMap_onRequest {reqs : List HttpRequest}
    (h : ∀ req ∈ reqs, (response httpCallback_ req).pieces.flatten.length ≤ 1024) :
    wire (reqs.flatMap fun req => (OnRequest httpCallback_ fresh req).1) =
      (answered httpCallback_ reqs).flatMap fun req =>
        frame (response httpCallback_ req).pieces.flatten := by
  induction reqs with
  | nil => rfl
  | cons req reqs ih =>
    rw [List.forall_mem_cons] at h
    rw [List.flatMap_cons, wire_append, onRequest_eq fresh h.1, ih h.2, answered]
    cases (response httpCallback_ req).getclose <;>
      simp [closed, wire, Effect.isShutdown, sentBytes]

private theorem closed_flatMap_onRequest {reqs : List HttpRequest}
    (h : ∀ req ∈ reqs, (response httpCallback_ req).pieces.flatten.length ≤ 1024) :
    closed (reqs.flatMap fun req => (OnRequest httpCallback_ fresh req).1) =
      reqs.any fun req => (response httpCallback_ req).getclose := by
  induction reqs with
  | nil => rfl
  | cons req reqs ih =>
    rw [List.forall_mem_cons] at h
    rw [List.flatMap_cons, closed_append, onRequest_eq fresh h.1, ih h.2, List.any_cons]
    cases (response httpCallback_ req).getclose <;> simp [closed, Effect.isShutdown]

private theorem requests_flatMap_onRequest {reqs : List HttpRequest}
    (h : ∀ req ∈ reqs, (response httpCallback_ req).pieces.flatten.length ≤ 1024) :
    requests (reqs.flatMap fun req => (OnRequest httpCallback_ fresh req).1) = reqs := by
  induction reqs with
  | nil => rfl
  | cons req reqs ih =>
    rw [List.forall_mem_cons] at h
    rw [List.flatMap_cons, requests, List.filterMap_append, onRequest_eq fresh h.1]
    have hrest := ih h.2
    rw [requests] at hrest
    rw [hrest]
    cases (response httpCallback_ req).getclose <;> simp

/-- Requests that each become complete with one more chunk are handed to `httpCallback_` in order.
If the responses fit, the bytes on the socket and in the output buffer are the frames of the
responses up to the first one that closes the connection, and a reader of frames reads these
responses back. The writing side is closed exactly if there is such a response and no byte waits. -/
theorem Exchange.readFrames_of_covers (httpCallback_ : HttpCallback) (fresh : ℕ → UInt8)
    (beyond : UInt8) (highWaterMark : ℕ) {actions : List Exchange.Action}
    {reqs : List HttpRequest} (ha : ∀ a ∈ actions, a.Reliable)
    (hcovers : Covers [] (actions.filterMap Action.chunk) reqs)
    (hfits : ∀ req ∈ reqs, Fits (response httpCallback_ req)) :
    let s := run httpCallback_ fresh beyond highWaterMark actions
    let rs := (answered httpCallback_ reqs).map (response httpCallback_)
    requests s.session.log = reqs ∧
      s.conn.written ++ s.conn.outputBuffer_ = rs.flatMap (fun r => frame r.pieces.flatten) ∧
      readFrames rs.length (s.conn.written ++ s.conn.outputBuffer_) = some (rs.map padded) ∧
      (s.conn.writeShut = true ↔
        (∃ req ∈ reqs, (response httpCallback_ req).getclose = true) ∧
          s.conn.outputBuffer_ = []) := by
  intro s rs
  have hle : ∀ req ∈ reqs, (response httpCallback_ req).pieces.flatten.length ≤ 1024 :=
    fun req hreq => (hfits req hreq).length_le
  have hinv : Inv s.conn s.session.log := inv_run _ _ _ _ ha
  have hlog : s.session.log = reqs.flatMap fun req => (OnRequest httpCallback_ fresh req).1 := by
    have hdeliver : (deliver httpCallback_ fresh beyond (actions.filterMap Action.chunk)).log =
        reqs.flatMap fun req => (OnRequest httpCallback_ fresh req).1 :=
      hcovers.foldl_receive
        (fun req hreq => congrArg Prod.snd (onRequest_eq fresh (hle req hreq))) []
    exact (congrArg Session.log (session_run _ _ _ _ _)).trans hdeliver
  have hwire : s.conn.written ++ s.conn.outputBuffer_ =
      rs.flatMap fun r => frame r.pieces.flatten := by
    rw [hinv.stream, hlog, wire_flatMap_onRequest hle, List.flatMap_map]
  refine ⟨?_, hwire, ?_, ?_⟩
  · rw [hlog]
    exact requests_flatMap_onRequest hle
  · rw [hwire]
    refine readFrames_flatMap fun r hr => ?_
    obtain ⟨req, hreq, rfl⟩ := List.mem_map.mp hr
    exact hfits req (mem_of_mem_answered hreq)
  · rw [hinv.shut, hlog, closed_flatMap_onRequest hle, List.any_eq_true]

/-- Requests that are written one after the other, each in a chunk of its own. -/
theorem covers_encode (qs : List RequestText) :
    Covers [] (qs.map RequestText.encode)
      (qs.map fun q => HttpAnalyse.addHeaders q.head q.headers) := by
  induction qs with
  | nil => exact .nil
  | cons q qs ih =>
    have hstart := HttpAnalyse.starts_encode q []
    rw [List.append_nil] at hstart
    exact .cons hstart ih

end Answered

/-- Two requests, one that keeps the connection alive and one of HTTP/1.0; the socket takes a part
of the first response at once. -/
theorem Exchange.readFrames_of_two_requests :
    ∃ (s : Exchange) (rs : List HttpRespne), requests s.session.log ≠ [] ∧
      readFrames 2 (s.conn.written ++ s.conn.outputBuffer_) = some (rs.map padded) := by
  let ok : HttpCallback := fun _ r => (r.setStatusCode .K200OK).setStatusMessage (bytesOf "OK")
  let q : RequestText :=
    ⟨.GET, bytesOf "/", .HTTP11, [], by decide, by decide, by decide, by decide⟩
  let q' : RequestText :=
    ⟨.GET, bytesOf "/", .HTTP10, [], by decide, by decide, by decide, by decide⟩
  let actions : List Exchange.Action := [.receive q.encode fun _ => .room 100,
    .handlewrite (.room 500), .receive q'.encode fun _ => .error .EWOULDBLOCK .other]
  have hfits : ∀ req ∈ [q, q'].map fun q => HttpAnalyse.addHeaders q.head q.headers,
      Fits (response ok req) := by
    have hshort (r : HttpRespne) (h : r = ⟨∅, .K200OK, bytesOf "OK", r.closeConnection_, []⟩) :
        Fits r := by
      rw [h]
      cases r.closeConnection_ <;>
        exact ⟨⟨by decide, by simp, by simp, by simp, by decide⟩, by decide +kernel⟩
    exact fun req _ => hshort _ rfl
  have ha : ∀ a ∈ actions, a.Reliable := by
    simp [actions, Action.Reliable, WriteResult.faultError]
  obtain ⟨hrequests, -, hread, -⟩ := readFrames_of_covers ok (fun _ => 0) 0 64 ha
    (covers_encode [q, q']) hfits
  exact ⟨_, _, by rw [hrequests]; exact List.cons_ne_nil _ _, hread⟩

end HttpServer

end TinyMuduo
