import TinyMuduo.Buffer.Unread
import TinyMuduo.Connection.ServerConnection

/-!
# A connection with its buffers

`TinyMuduo.Connection.TcpConnection` has a queue of bytes for the output buffer and none for the
input buffer. This file embeds the same member functions of `TcpConnection`, and `handleRead`, with
the two members of the class `Buffer` (`resoure/Buffer.h`, `resoure/Buffer.cpp`) that the source
has: `sendInLoop` appends to the output buffer, `handlewrite` writes from `peek()` and retrieves
what the socket took, `handleRead` reads into the input buffer, and the callback of the user
retrieves bytes from it. A call that runs into a failed assertion of a buffer does not return.

`BufferedConnection.toConnection` forgets the input buffer and keeps the unread bytes of the output
buffer. As long as no more than 1024 bytes wait in a buffer, every call does on the queue what the
call of `TcpConnection` does, and queues the same functors (`BufferedConnection.exists_call`); so a
connection with buffers is a connection with queues, along every run
(`BufferedTraffic.traffic_of_reaches`).

## Main definitions

* `BufferedConnection` and its member functions, `BufferedConnection.toConnection`.
* `BufferedTraffic`, `BufferedTraffic.call`: a connection with the bytes that went through it.

## Main results

* `BufferedConnection.exists_sendInLoop`, `BufferedConnection.exists_handlewrite`: the functions on
  buffers and those on queues.
* `BufferedTraffic.traffic_of_reaches`: every run of the connection with buffers is a run of the one
  with queues.
* `BufferedTraffic.written_append_readable`: no byte is lost in the buffers, and the limit is exact.
-/

namespace TinyMuduo

/-- `Buffer::writeFd`: the bytes that the socket took, or `none` for an error. -/
def Buffer.writeFd (b : Buffer) : WriteResult → Option (List UInt8)
  | .room n => some (b.readable.take n)
  | .error _ _ => none

/-- A connection with its two buffers. -/
structure BufferedConnection where
  state_ : StateE
  channel_ : Registration
  inputBuffer_ : Buffer
  outputBuffer_ : Buffer
  highWaterMark_ : ℕ
  writeCompleteCallback_ : Bool
  highWaterMarkCallback_ : Bool
  written : List UInt8
  writeShut : Bool

namespace BufferedConnection

/-- The connection that the constructor makes. -/
def init (writeCompleteCallback highWaterMarkCallback : Bool) (highWaterMark : ℕ) :
    BufferedConnection :=
  ⟨.kConnecting, Registration.init, .new Buffer.kInitialSize, .new Buffer.kInitialSize,
    highWaterMark, writeCompleteCallback, highWaterMarkCallback, [], false⟩

/-- The connection with a queue for the output buffer. -/
def toConnection (c : BufferedConnection) : TcpConnection :=
  ⟨c.state_, c.channel_, c.outputBuffer_.readable, c.highWaterMark_, c.writeCompleteCallback_,
    c.highWaterMarkCallback_, c.written, c.writeShut⟩

variable (c : BufferedConnection)

/-! ### The member functions -/

def writesDirectly : Bool := !c.channel_.isWritingEvent && c.outputBuffer_.readableBytes == 0

/-- The direct write of `sendInLoop`: the connection, the bytes that remain, `faultError`, and the
functors queued. -/
def directWrite (message : List UInt8) :
    WriteResult → BufferedConnection × List UInt8 × Bool × List Callback
  | .room n =>
    let remaining := message.drop n
    ({ c with written := c.written ++ message.take n }, remaining, false,
      if remaining.length == 0 && c.writeCompleteCallback_ then [.writeComplete] else [])
  | .error e logged =>
    (c, message, e != .EWOULDBLOCK && (logged == .EPIPE || logged == .ECONNRESET), [])

/-- The end of `sendInLoop`. -/
def bufferRemaining (remaining : List UInt8) (fresh : ℕ → UInt8) :
    Option (BufferedConnection × List Callback) :=
  let oldlen := c.outputBuffer_.readableBytes
  (c.outputBuffer_.append remaining fresh).map fun b =>
    let c' := { c with outputBuffer_ := b }
    (if c.channel_.isWritingEvent then c' else { c' with channel_ := c.channel_.enableWriting },
      if SizeT.add oldlen remaining.length ≥ c.highWaterMark_ ∧ oldlen < c.highWaterMark_ then
        [.highWaterMark c.highWaterMarkCallback_ (SizeT.add oldlen remaining.length)] else [])

/-- `TcpConnection::sendInLoop`. `fresh` is the memory that the output buffer may ask for. -/
def sendInLoop (message : List UInt8) (r : WriteResult) (fresh : ℕ → UInt8) :
    Option (BufferedConnection × List Callback) :=
  let (c', remaining, faultError, queued) :=
    if c.writesDirectly then c.directWrite message r else (c, message, false, [])
  if !faultError && remaining.length > 0 then
    (c'.bufferRemaining remaining fresh).map fun (c'', queued') => (c'', queued ++ queued')
  else some (c', queued)

/-- `TcpConnection::handlewrite` up to the test of `state_`: the connection, the functors queued,
and whether the test is reached. -/
def handlewriteOut (r : WriteResult) : Option (BufferedConnection × List Callback × Bool) :=
  if c.channel_.isWritingEvent then
    match c.outputBuffer_.writeFd r with
    | some data =>
      if data.length > 0 then
        (c.outputBuffer_.retrieve data.length).map fun b =>
          let c' := { c with written := c.written ++ data, outputBuffer_ := b }
          if b.readableBytes == 0 then
            ({ c' with channel_ := c.channel_.disableWriting },
              if c.writeCompleteCallback_ then [.writeComplete] else [], true)
          else (c', [], false)
      else some (c, [], true)
    | none => some (c, [], true)
  else some (c, [], false)

/-- `TcpConnection::shutdownInLoop`. -/
def shutdownInLoop : BufferedConnection :=
  if c.channel_.isWritingEvent then c else { c with writeShut := true }

/-- `TcpConnection::handlewrite`. -/
def handlewrite (r : WriteResult) : Option (BufferedConnection × List Callback) :=
  c.handlewriteOut r |>.map fun (c', queued, tests) =>
    (if tests && c'.state_ == .kDisconnecting then c'.shutdownInLoop else c', queued)

/-- `TcpConnection::handleClose` up to the callbacks. -/
def handleClose : BufferedConnection :=
  { c with state_ := .kDisconnected, channel_ := c.channel_.disableAll }

/-- `TcpConnection::handleRead` up to the callback of the user: the connection, and the result of
`readFd`. `handleError` only logs. -/
def handleRead (delivered : Option (List UInt8)) (fresh : ℕ → UInt8) :
    Option (BufferedConnection × ReadResult) :=
  (c.inputBuffer_.readFd delivered fresh).map fun b =>
    let c' := { c with inputBuffer_ := b }
    match delivered with
    | none => (c', .negative)
    | some [] => (c'.handleClose, .zero)
    | some (_ :: _) => (c', .positive)

/-- `TcpConnection::connectEstablished` up to the callback. -/
def connectEstablished : BufferedConnection :=
  { c with state_ := .kConnected, channel_ := c.channel_.enableReading }

/-- `TcpConnection::connectDestoryed`. -/
def connectDestoryed : BufferedConnection :=
  let c' := if c.state_ = .kConnected then
    { c with state_ := .kDisconnected, channel_ := c.channel_.disableAll } else c
  { c' with channel_ := c'.channel_.remove }

/-- A call on the thread of the loop: the connection after it, and the functors queued. -/
def call (fresh : ℕ → UInt8) : LoopCall → Option (BufferedConnection × List Callback)
  | .sendInLoop message r => c.sendInLoop message r fresh
  | .handlewrite r => c.handlewrite r
  | .shutdownInLoop => some (c.shutdownInLoop, [])
  | .handleClose => some (c.handleClose, [])
  | .connectEstablished => some (c.connectEstablished, [])
  | .connectDestoryed => some (c.connectDestoryed, [])
  | .setState s => some ({ c with state_ := s }, [])

end BufferedConnection

/-- The same call of a connection with a queue. -/
def LoopCall.apply (c : TcpConnection) : LoopCall → TcpConnection × List Callback
  | sendInLoop message r => c.sendInLoop message r
  | handlewrite r => c.handlewrite r
  | shutdownInLoop => (c.shutdownInLoop, [])
  | handleClose => (c.handleClose, [])
  | connectEstablished => (c.connectEstablished, [])
  | connectDestoryed => (c.connectDestoryed, [])
  | setState s => (c.setState s, [])

theorem Traffic.conn_call (t : Traffic) (a : LoopCall) : (t.call a).conn = (a.apply t.conn).1 := by
  cases a <;> rfl

namespace BufferedConnection

variable {c c' : BufferedConnection}

/-! ### The functions on buffers and those on queues -/

/-- At most 1024 bytes wait in the output buffer after the call. -/
def HasRoom (c : BufferedConnection) (a : LoopCall) : Prop :=
  (a.apply c.toConnection).1.outputBuffer_.length ≤ 1024

instance (c : BufferedConnection) (a : LoopCall) : Decidable (c.HasRoom a) :=
  inferInstanceAs (Decidable (_ ≤ _))

theorem toConnection_shutdownInLoop (c : BufferedConnection) :
    c.shutdownInLoop.toConnection = c.toConnection.shutdownInLoop := by
  have hwriting : c.toConnection.channel_.isWritingEvent = c.channel_.isWritingEvent := rfl
  rw [shutdownInLoop, TcpConnection.shutdownInLoop, hwriting]
  split_ifs <;> rfl

theorem outputBuffer_shutdownInLoop (c : BufferedConnection) :
    c.shutdownInLoop.outputBuffer_ = c.outputBuffer_ := by
  rw [shutdownInLoop]
  split_ifs <;> rfl

theorem inputBuffer_shutdownInLoop (c : BufferedConnection) :
    c.shutdownInLoop.inputBuffer_ = c.inputBuffer_ := by
  rw [shutdownInLoop]
  split_ifs <;> rfl

private theorem toConnection_connectDestoryed (c : BufferedConnection) :
    c.connectDestoryed.toConnection = c.toConnection.connectDestoryed := by
  have hstate : c.toConnection.state_ = c.state_ := rfl
  simp only [connectDestoryed, TcpConnection.connectDestoryed, hstate]
  split_ifs <;> rfl

section Output

variable (h : c.outputBuffer_.Unread)

include h

private theorem writesDirectly_toConnection : c.toConnection.writesDirectly = c.writesDirectly := by
  rw [writesDirectly, h.readableBytes_eq_length]
  rfl

private theorem exists_bufferRemaining {remaining : List UInt8} (fresh : ℕ → UInt8)
    (hroom : c.outputBuffer_.readable.length + remaining.length ≤ 1024) :
    ∃ c', c.bufferRemaining remaining fresh =
        some (c', (c.toConnection.bufferRemaining remaining).2) ∧
      c'.toConnection = (c.toConnection.bufferRemaining remaining).1 ∧
      c'.outputBuffer_.Unread ∧ c'.inputBuffer_ = c.inputBuffer_ := by
  obtain ⟨b, hb, hunread, hread⟩ := h.exists_append fresh hroom
  have hadd : SizeT.add c.outputBuffer_.readable.length remaining.length =
      c.outputBuffer_.readable.length + remaining.length := SizeT.add_of_lt (by omega)
  have hout : c.bufferRemaining remaining fresh = some
      (if c.channel_.isWritingEvent then { c with outputBuffer_ := b }
        else { c with outputBuffer_ := b, channel_ := c.channel_.enableWriting },
        (c.toConnection.bufferRemaining remaining).2) := by
    simp only [bufferRemaining, hb, Option.map_some, h.readableBytes_eq_length, hadd]
    rfl
  refine ⟨_, hout, ?_, ?_⟩
  · rw [TcpConnection.bufferRemaining_fst]
    by_cases hwriting : c.channel_.isWritingEvent = true <;>
      simp [toConnection, hwriting, hread]
  · split_ifs <;> exact ⟨hunread, rfl⟩

omit h in
private theorem directWrite_toConnection (message : List UInt8) (r : WriteResult) :
    c.toConnection.directWrite message r =
        ((c.directWrite message r).1.toConnection, (c.directWrite message r).2) ∧
      (c.directWrite message r).1.outputBuffer_ = c.outputBuffer_ ∧
      (c.directWrite message r).1.inputBuffer_ = c.inputBuffer_ ∧
      (c.directWrite message r).2.1.length ≤ message.length := by
  cases r with
  | room n => exact ⟨rfl, rfl, rfl, by simp [directWrite]⟩
  | error e logged => exact ⟨rfl, rfl, rfl, Nat.le_refl _⟩

/-- Behind the direct write, `sendInLoop` either appends what remains or is done, on the buffer and
on the queue alike. -/
theorem sendInLoop_cases (message : List UInt8) (r : WriteResult) :
    ∃ (d : BufferedConnection) (queued : List Callback),
      d.outputBuffer_ = c.outputBuffer_ ∧ d.inputBuffer_ = c.inputBuffer_ ∧
      ((∃ remaining, remaining.length ≤ message.length ∧
        (∀ fresh, c.sendInLoop message r fresh =
          (d.bufferRemaining remaining fresh).map fun p => (p.1, queued ++ p.2)) ∧
        c.toConnection.sendInLoop message r =
          ((d.toConnection.bufferRemaining remaining).1,
            queued ++ (d.toConnection.bufferRemaining remaining).2)) ∨
      ((∀ fresh, c.sendInLoop message r fresh = some (d, queued)) ∧
        c.toConnection.sendInLoop message r = (d.toConnection, queued))) := by
  obtain ⟨⟨d, remaining, fault, queued⟩, hd⟩ : ∃ d, d =
    if c.writesDirectly then c.directWrite message r else (c, message, false, []) := ⟨_, rfl⟩
  have hdirect : (if c.toConnection.writesDirectly then c.toConnection.directWrite message r
      else (c.toConnection, message, false, [])) = (d.toConnection, remaining, fault, queued) ∧
      d.outputBuffer_ = c.outputBuffer_ ∧ d.inputBuffer_ = c.inputBuffer_ ∧
      remaining.length ≤ message.length := by
    obtain ⟨heq, hout, hin, hle⟩ := directWrite_toConnection (c := c) message r
    rw [writesDirectly_toConnection h]
    split_ifs at hd ⊢
    · rw [← hd] at heq hout hin hle
      exact ⟨heq, hout, hin, hle⟩
    · cases hd
      exact ⟨rfl, rfl, rfl, Nat.le_refl _⟩
  obtain ⟨heq, hout, hin, hle⟩ := hdirect
  refine ⟨d, queued, hout, hin, ?_⟩
  simp only [sendInLoop, ← hd, TcpConnection.sendInLoop, heq]
  split_ifs with hbuffer
  · exact .inl ⟨remaining, hle, fun fresh => rfl, rfl⟩
  · exact .inr ⟨fun fresh => rfl, rfl⟩

/-- `sendInLoop` does on the buffer what it does on the queue. -/
theorem exists_sendInLoop {message : List UInt8} {r : WriteResult} (fresh : ℕ → UInt8)
    (hroom : (c.toConnection.sendInLoop message r).1.outputBuffer_.length ≤ 1024) :
    ∃ c', c.sendInLoop message r fresh = some (c', (c.toConnection.sendInLoop message r).2) ∧
      c'.toConnection = (c.toConnection.sendInLoop message r).1 ∧
      c'.outputBuffer_.Unread ∧ c'.inputBuffer_ = c.inputBuffer_ := by
  obtain ⟨d, queued, hout, hin, ⟨remaining, -, hsend, heq⟩ | ⟨hsend, heq⟩⟩ :=
    sendInLoop_cases h message r
  · rw [heq, TcpConnection.bufferRemaining_fst] at hroom
    have hfits : d.outputBuffer_.readable.length + remaining.length ≤ 1024 := by
      simpa [toConnection] using hroom
    obtain ⟨c', hc', htc, hunread, hinput⟩ :=
      exists_bufferRemaining (hout ▸ h : d.outputBuffer_.Unread) fresh hfits
    exact ⟨c', by rw [hsend, hc', heq, Option.map_some], by rw [htc, heq], hunread,
      hinput.trans hin⟩
  · exact ⟨d, by rw [hsend, heq], by rw [heq], hout ▸ h, hin⟩

/-- A `sendInLoop` that returns keeps the indices of the output buffer in order exactly if at most
1024 bytes wait then. -/
theorem inv_sendInLoop_iff {message : List UInt8} {r : WriteResult} {fresh : ℕ → UInt8}
    (hlen : message.length < 2 ^ 63) {queued : List Callback}
    (hs : c.sendInLoop message r fresh = some (c', queued)) :
    c'.outputBuffer_.Inv ↔
      (c.toConnection.sendInLoop message r).1.outputBuffer_.length ≤ 1024 := by
  obtain ⟨d, queued', hout, -, ⟨remaining, hle, hsend, heq⟩ | ⟨hsend, heq⟩⟩ :=
    sendInLoop_cases h message r
  · rw [heq, TcpConnection.bufferRemaining_fst]
    have hunread : d.outputBuffer_.Unread := hout ▸ h
    rw [hsend, bufferRemaining, Option.map_map, Option.map_eq_some_iff] at hs
    obtain ⟨b, hb, hs⟩ := hs
    have hc' : c'.outputBuffer_ = b := by
      have hfst := congrArg (fun p => p.1.outputBuffer_) hs
      rw [← hfst]
      simp only [Function.comp_apply]
      split_ifs <;> rfl
    rw [hc', hunread.inv_append_iff (by omega) hb]
    simp [toConnection]
  · have hunread : d.outputBuffer_.Unread := hout ▸ h
    obtain ⟨rfl, rfl⟩ := Prod.mk.inj (Option.some.inj ((hsend fresh).symm.trans hs))
    rw [heq]
    exact iff_of_true hunread.inv hunread.writable_add_prependable.2

/-- `handlewrite` does on the buffer what it does on the queue, up to the test of `state_`. -/
theorem exists_handlewriteOut (r : WriteResult) :
    ∃ c', c.handlewriteOut r = some (c', (c.toConnection.handlewriteOut r).2) ∧
      c'.toConnection = (c.toConnection.handlewriteOut r).1 ∧
      c'.outputBuffer_.Unread ∧ c'.inputBuffer_ = c.inputBuffer_ := by
  have hwriting' : c.toConnection.channel_.isWritingEvent = c.channel_.isWritingEvent := rfl
  have hbuffer : c.toConnection.outputBuffer_ = c.outputBuffer_.readable := rfl
  by_cases hwriting : c.channel_.isWritingEvent = true
  · simp only [handlewriteOut, TcpConnection.handlewriteOut, hwriting', if_pos hwriting]
    cases r with
    | error e => exact ⟨c, rfl, rfl, h, rfl⟩
    | room n =>
      have hlen : (c.outputBuffer_.readable.take n).length =
          min n c.outputBuffer_.readable.length := List.length_take
      have htake : c.outputBuffer_.readable.take n = c.outputBuffer_.readable.take
          (min n c.outputBuffer_.readable.length) := List.take_eq_take_min
      simp only [Buffer.writeFd, hbuffer, hlen]
      by_cases hn : min n c.outputBuffer_.readable.length > 0
      · obtain ⟨b, hb, hunread, hread⟩ :=
          h.exists_retrieve (Nat.min_le_right n c.outputBuffer_.readable.length)
        simp only [if_pos hn, hb, Option.map_some, hunread.readableBytes_eq_length, ← hread]
        by_cases hrest : (b.readable.length == 0) = true
        · simp only [if_pos hrest]
          exact ⟨_, rfl, by simp [toConnection, ← htake], hunread, rfl⟩
        · simp only [if_neg hrest]
          exact ⟨_, rfl, by simp [toConnection, ← htake], hunread, rfl⟩
      · simp only [if_neg hn]
        exact ⟨c, rfl, rfl, h, rfl⟩
  · simp only [handlewriteOut, TcpConnection.handlewriteOut, hwriting', if_neg hwriting]
    exact ⟨c, rfl, rfl, h, rfl⟩

/-- `handlewrite` does on the buffer what it does on the queue. -/
theorem exists_handlewrite (r : WriteResult) :
    ∃ c', c.handlewrite r = some (c', (c.toConnection.handlewrite r).2) ∧
      c'.toConnection = (c.toConnection.handlewrite r).1 ∧
      c'.outputBuffer_.Unread ∧ c'.inputBuffer_ = c.inputBuffer_ := by
  obtain ⟨d, hd, htd, hunread, hinput⟩ := exists_handlewriteOut h r
  obtain ⟨o, ho⟩ : ∃ o, c.toConnection.handlewriteOut r = o := ⟨_, rfl⟩
  rw [ho] at hd htd
  obtain ⟨_, queued, tests⟩ := o
  obtain rfl : d.toConnection = _ := htd
  have hstate : d.toConnection.state_ = d.state_ := rfl
  simp only [handlewrite, hd, Option.map_some, TcpConnection.handlewrite, ho]
  refine ⟨_, rfl, ?_, ?_⟩
  · cases tests with
    | false => rfl
    | true =>
      by_cases hdown : d.state_ = .kDisconnecting
      · simp only [TcpConnection.shutdownIfDisconnecting, hstate, hdown, Bool.true_and,
          beq_self_eq_true, if_true, toConnection_shutdownInLoop]
      · simp [TcpConnection.shutdownIfDisconnecting, hstate, hdown]
  · split_ifs
    · exact ⟨by rwa [outputBuffer_shutdownInLoop], by rwa [inputBuffer_shutdownInLoop]⟩
    · exact ⟨hunread, hinput⟩

/-- Every call that leaves at most 1024 bytes in the output buffer does what it does on the queue,
and queues the same functors. -/
theorem exists_call (fresh : ℕ → UInt8) {a : LoopCall} (hroom : c.HasRoom a) :
    ∃ c', c.call fresh a = some (c', (a.apply c.toConnection).2) ∧
      c'.toConnection = (a.apply c.toConnection).1 ∧
      c'.outputBuffer_.Unread ∧ c'.inputBuffer_ = c.inputBuffer_ := by
  cases a with
  | sendInLoop message r => exact exists_sendInLoop h fresh hroom
  | handlewrite r => exact exists_handlewrite h r
  | shutdownInLoop =>
    exact ⟨_, rfl, toConnection_shutdownInLoop c, by rwa [outputBuffer_shutdownInLoop],
      inputBuffer_shutdownInLoop c⟩
  | connectDestoryed =>
    refine ⟨_, rfl, toConnection_connectDestoryed c, ?_⟩
    simp only [connectDestoryed]
    split_ifs <;> exact ⟨h, rfl⟩
  | handleClose | connectEstablished | setState => exact ⟨_, rfl, rfl, h, rfl⟩

/-- Only `sendInLoop` makes the output buffer longer. -/
theorem hasRoom_of_ne {a : LoopCall} (ha : ∀ message r, a ≠ .sendInLoop message r) :
    c.HasRoom a := by
  have hle : c.toConnection.outputBuffer_.length ≤ 1024 := h.writable_add_prependable.2
  cases a with
  | sendInLoop message r => exact absurd rfl (ha message r)
  | handlewrite r =>
    obtain ⟨shut, hfst⟩ := c.toConnection.handlewrite_fst r
    rw [HasRoom, LoopCall.apply, hfst, TcpConnection.handlewriteOut_fst, List.length_drop]
    omega
  | shutdownInLoop =>
    rwa [HasRoom, LoopCall.apply, TcpConnection.outputBuffer_shutdownInLoop]
  | connectDestoryed =>
    rw [HasRoom, LoopCall.apply, TcpConnection.connectDestoryed]
    split_ifs <;> exact hle
  | handleClose | connectEstablished | setState => exact hle

end Output

/-- `handleRead` closes the connection at the end of the stream, and does nothing else but read. -/
theorem handleRead_eq_some {delivered : Option (List UInt8)} {fresh : ℕ → UInt8} {n : ReadResult}
    (hs : c.handleRead delivered fresh = some (c', n)) :
    c.inputBuffer_.readFd delivered fresh = some c'.inputBuffer_ ∧
      c'.outputBuffer_ = c.outputBuffer_ ∧ (n = .zero ↔ delivered = some []) ∧
      c'.toConnection = if n = .zero then c.toConnection.handleClose else c.toConnection := by
  obtain ⟨b, hb, hs⟩ := Option.map_eq_some_iff.mp hs
  rw [hb]
  rcases delivered with _ | _ | ⟨_, _⟩ <;> cases hs <;> exact ⟨rfl, rfl, by simp, rfl⟩

/-- `handleRead` adds what `readv` delivers to the input buffer. -/
theorem exists_handleRead (h : c.inputBuffer_.Unread) (delivered : Option (List UInt8))
    (fresh : ℕ → UInt8)
    (hroom : c.inputBuffer_.readable.length + (delivered.getD []).length ≤ 1024) :
    ∃ c' n, c.handleRead delivered fresh = some (c', n) ∧ c'.inputBuffer_.Unread ∧
      c'.inputBuffer_.readable = c.inputBuffer_.readable ++ delivered.getD [] := by
  obtain ⟨b, hb, hunread, hread⟩ : ∃ b, c.inputBuffer_.readFd delivered fresh = some b ∧
      b.Unread ∧ b.readable = c.inputBuffer_.readable ++ delivered.getD [] := by
    cases delivered with
    | none => exact ⟨_, rfl, h, (List.append_nil _).symm⟩
    | some data => exact h.exists_readFd fresh hroom
  obtain ⟨⟨c', n⟩, hc'⟩ : ∃ p, c.handleRead delivered fresh = some p := by
    rw [handleRead, hb]
    exact ⟨_, rfl⟩
  obtain rfl : b = c'.inputBuffer_ := Option.some.inj (hb.symm.trans (handleRead_eq_some hc').1)
  exact ⟨c', n, hc', hunread, hread⟩

end BufferedConnection

/-! ### Runs -/

/-- A connection with the messages passed to `sendInLoop` that were not dropped and whether it is
closed, as in `Traffic`, with the bytes that `readv` delivered, and with those that the user
took. -/
structure BufferedTraffic where
  conn : BufferedConnection
  messages : List (List UInt8)
  closed : Bool
  received : List UInt8
  taken : List UInt8

namespace BufferedTraffic

/-- A new connection. -/
def init (writeCompleteCallback highWaterMarkCallback : Bool) (highWaterMark : ℕ) :
    BufferedTraffic :=
  ⟨.init writeCompleteCallback highWaterMarkCallback highWaterMark, [], false, [], []⟩

/-- What happens to the connection: a call on the thread of its loop, `handleRead`, and a
`retrieve` by the callback of the user. -/
inductive Call
  | loop (a : LoopCall) (fresh : ℕ → UInt8)
  | handleRead (delivered : Option (List UInt8)) (fresh : ℕ → UInt8)
  | retrieve (len : ℕ)

/-- The bytes passed in. -/
def Call.data : Call → List UInt8
  | loop (.sendInLoop message _) _ => message
  | handleRead (some data) _ => data
  | _ => []

/-- The connection with a queue for the output buffer. -/
def traffic (t : BufferedTraffic) : Traffic := ⟨t.conn.toConnection, t.messages, t.closed⟩

/-- The connection after one more call, if it returns. -/
def call (t : BufferedTraffic) : Call → Option BufferedTraffic
  | .loop a fresh => (t.conn.call fresh a).map fun (c, _) => { t with
      conn := c
      messages := (t.traffic.call a).messages
      closed := (t.traffic.call a).closed }
  | .handleRead delivered fresh => (t.conn.handleRead delivered fresh).map fun (c, n) => { t with
      conn := c
      closed := t.closed || n == .zero
      received := t.received ++ delivered.getD [] }
  | .retrieve len => (t.conn.inputBuffer_.retrieve len).map fun b => { t with
      conn := { t.conn with inputBuffer_ := b }
      taken := t.taken ++ t.conn.inputBuffer_.readable.take len }

/-- At most 1024 bytes wait in each buffer after the call. -/
def HasRoom (t : BufferedTraffic) : Call → Prop
  | .loop a _ => t.conn.HasRoom a
  | .handleRead delivered _ =>
    t.conn.inputBuffer_.readable.length + (delivered.getD []).length ≤ 1024
  | .retrieve _ => True

instance (t : BufferedTraffic) (a : Call) : Decidable (t.HasRoom a) := by
  cases a <;> unfold HasRoom <;> infer_instance

/-- The buffers are queues, and the bytes that came in are those that the user took and those that
wait. -/
structure Inv (t : BufferedTraffic) : Prop where
  output : t.conn.outputBuffer_.Unread
  input : t.conn.inputBuffer_.Unread
  received : t.received = t.taken ++ t.conn.inputBuffer_.readable

theorem inv_init (writeCompleteCallback highWaterMarkCallback : Bool) (highWaterMark : ℕ) :
    (init writeCompleteCallback highWaterMarkCallback highWaterMark).Inv :=
  ⟨Buffer.unread_new Buffer.kInitialSize, Buffer.unread_new Buffer.kInitialSize,
    (Buffer.readable_new Buffer.kInitialSize).symm⟩

variable {t t' : BufferedTraffic}

/-- A call that leaves room returns, and keeps the invariant. -/
theorem Inv.exists_call (h : t.Inv) {a : Call} (hroom : t.HasRoom a)
    (htake : ∀ len, a = .retrieve len → len ≤ t.conn.inputBuffer_.readable.length) :
    ∃ t', t.call a = some t' ∧ t'.Inv := by
  cases a with
  | loop a fresh =>
    obtain ⟨c', hc', -, hout, hin⟩ := BufferedConnection.exists_call h.output fresh hroom
    simp only [call, hc', Option.map_some, Option.some.injEq, exists_eq_left']
    exact ⟨hout, hin ▸ h.input, hin ▸ h.received⟩
  | handleRead delivered fresh =>
    obtain ⟨c', n, hc', hunread, hread⟩ :=
      BufferedConnection.exists_handleRead h.input delivered fresh hroom
    simp only [call, hc', Option.map_some, Option.some.injEq, exists_eq_left']
    refine ⟨(BufferedConnection.handleRead_eq_some hc').2.1 ▸ h.output, hunread, ?_⟩
    rw [h.received, hread, List.append_assoc]
  | retrieve len =>
    obtain ⟨b, hb, hunread, hread⟩ := h.input.exists_retrieve (htake len rfl)
    simp only [call, hb, Option.map_some, Option.some.injEq, exists_eq_left']
    refine ⟨h.output, hunread, ?_⟩
    simp only [h.received, hread, List.append_assoc, List.take_append_drop]

/-- A `retrieve` that returns takes no more than there is. -/
theorem Inv.le_of_retrieve (h : t.Inv) {a : Call} (hs : t.call a = some t') (len : ℕ)
    (ha : a = .retrieve len) : len ≤ t.conn.inputBuffer_.readable.length := by
  subst ha
  obtain ⟨b, hb, -⟩ := Option.map_eq_some_iff.mp hs
  exact h.input.le_of_retrieve hb

theorem Inv.call (h : t.Inv) {a : Call} (hroom : t.HasRoom a) (hs : t.call a = some t') :
    t'.Inv := by
  obtain ⟨u, hu, hinv⟩ := h.exists_call hroom (h.le_of_retrieve hs)
  obtain rfl := Option.some.inj (hu.symm.trans hs)
  exact hinv

/-- A call is a call of the connection with queues, or changes its input only. -/
theorem Inv.traffic_call (h : t.Inv) {a : Call} (hroom : t.HasRoom a) (hs : t.call a = some t') :
    t'.traffic = t.traffic ∨ ∃ b, t'.traffic = t.traffic.call b := by
  cases a with
  | loop a fresh =>
    obtain ⟨c', hc', htc, -⟩ := BufferedConnection.exists_call h.output fresh hroom
    rw [BufferedTraffic.call, hc', Option.map_some] at hs
    cases hs
    refine .inr ⟨a, ?_⟩
    simp only [traffic, htc]
    rw [← Traffic.conn_call ⟨t.conn.toConnection, t.messages, t.closed⟩]
  | handleRead delivered fresh =>
    obtain ⟨⟨c', n⟩, hc', rfl⟩ := Option.map_eq_some_iff.mp hs
    have htc := (BufferedConnection.handleRead_eq_some hc').2.2.2
    by_cases hn : n = .zero
    · exact .inr ⟨.handleClose, by simp [traffic, htc, hn, Traffic.call]⟩
    · exact .inl (by simp [traffic, htc, hn])
  | retrieve len =>
    obtain ⟨b, -, rfl⟩ := Option.map_eq_some_iff.mp hs
    exact .inl rfl

/-- A call that returns keeps the indices of both buffers in order exactly if at most 1024 bytes
wait in each of them then. -/
theorem Inv.inv_call_iff (h : t.Inv) {a : Call} (hdata : a.data.length < 2 ^ 63)
    (hs : t.call a = some t') :
    t'.conn.outputBuffer_.Inv ∧ t'.conn.inputBuffer_.Inv ↔ t.HasRoom a := by
  refine ⟨fun hinv => ?_, fun hroom =>
    ⟨(h.call hroom hs).output.inv, (h.call hroom hs).input.inv⟩⟩
  cases a with
  | loop a fresh =>
    obtain ⟨⟨c', queued⟩, hc', rfl⟩ := Option.map_eq_some_iff.mp hs
    cases a with
    | sendInLoop message r =>
      exact (BufferedConnection.inv_sendInLoop_iff h.output hdata hc').mp hinv.1
    | _ => exact BufferedConnection.hasRoom_of_ne h.output (by simp)
  | handleRead delivered fresh =>
    obtain ⟨⟨c', n⟩, hc', rfl⟩ := Option.map_eq_some_iff.mp hs
    have hb := (BufferedConnection.handleRead_eq_some hc').1
    cases delivered with
    | none => exact h.input.writable_add_prependable.2
    | some data => exact (h.input.inv_readFd_iff hdata hb).mp hinv.2
  | retrieve len => trivial

open Transition

section Runs

variable {writeCompleteCallback highWaterMarkCallback : Bool} {highWaterMark : ℕ}

private theorem traffic_init :
    (init writeCompleteCallback highWaterMarkCallback highWaterMark).traffic =
      .init writeCompleteCallback highWaterMarkCallback highWaterMark := by
  simp only [traffic, init, BufferedConnection.init, BufferedConnection.toConnection,
    Buffer.readable_new]
  rfl

theorem inv_of_reaches (h : Reaches (ofStep BufferedTraffic.call) HasRoom
    (init writeCompleteCallback highWaterMarkCallback highWaterMark) t) : t.Inv :=
  h.invariant (inv_init ..) fun _ _ _ hu hroom hs => hu.call hroom hs

/-- As long as no more than 1024 bytes wait in a buffer, a connection with its two buffers is a
connection with queues: each of its runs is a run of `Traffic`, and each call on its loop does what
the call of `TcpConnection` on the unread bytes does and queues the same functors. -/
theorem traffic_of_reaches (h : Reaches (ofStep BufferedTraffic.call) HasRoom
    (init writeCompleteCallback highWaterMarkCallback highWaterMark) t) :
    Reaches (ofStep fun u a => some (Traffic.call u a)) anyLabel
        (.init writeCompleteCallback highWaterMarkCallback highWaterMark) t.traffic ∧
      ∀ a fresh, t.conn.HasRoom a → ∃ c', t.conn.call fresh a =
          some (c', (a.apply t.conn.toConnection).2) ∧
        c'.toConnection = (a.apply t.conn.toConnection).1 := by
  refine ⟨?_, fun a fresh hroom => ?_⟩
  · rw [← traffic_init]
    refine h.map traffic fun u a v hu hroom hs => ?_
    rcases (inv_of_reaches hu).traffic_call hroom hs with hsame | ⟨b, hb⟩
    · rw [hsame]
      exact .refl _
    · exact (Reaches.refl _).snoc trivial (congrArg some hb.symm)
  · obtain ⟨c', hc', htc, -⟩ :=
      BufferedConnection.exists_call (inv_of_reaches h).output fresh hroom
    exact ⟨c', hc', htc⟩

/-- As long as no more than 1024 bytes wait in a buffer: the bytes on the socket and those that wait
in the output buffer are the messages in order, without those that `faultError` dropped; until the
connection is closed, write interest is on exactly while bytes wait there; the bytes that arrived
are those that the user took and those that wait in the input buffer; and a call that leaves at most
1024 bytes in each buffer returns. The limit is exact: a call that returns
keeps the indices of both buffers in order exactly if it leaves at most 1024 bytes in each. -/
theorem written_append_readable (h : Reaches (ofStep BufferedTraffic.call) HasRoom
    (init writeCompleteCallback highWaterMarkCallback highWaterMark) t) :
    t.conn.written ++ t.conn.outputBuffer_.readable = t.messages.flatten ∧
      (t.closed = false →
        (t.conn.channel_.isWritingEvent = true ↔ t.conn.outputBuffer_.readableBytes ≠ 0)) ∧
      t.received = t.taken ++ t.conn.inputBuffer_.readable ∧
      (∀ a, t.HasRoom a →
        (∀ len, a = .retrieve len → len ≤ t.conn.inputBuffer_.readable.length) →
        ∃ t', t.call a = some t') ∧
      ∀ a t', a.data.length < 2 ^ 63 → t.call a = some t' →
        (t'.conn.outputBuffer_.Inv ∧ t'.conn.inputBuffer_.Inv ↔ t.HasRoom a) := by
  have hinv : t.Inv := inv_of_reaches h
  have htraffic : t.traffic.Inv := by
    refine h.induct (I := fun u => u.traffic.Inv) ?_ fun u a v hu hroom hs ih => ?_
    · rw [traffic_init]
      exact Traffic.inv_init ..
    · rcases (inv_of_reaches hu).traffic_call hroom hs with hsame | ⟨b, hb⟩
      · rwa [hsame]
      · rw [hb]
        exact ih.call b
  refine ⟨htraffic.stream, fun hc => ?_, hinv.received, fun a hroom htake => ?_,
    fun a t' hdata hs => hinv.inv_call_iff hdata hs⟩
  · rw [hinv.output.readableBytes_eq_length, ne_eq, List.length_eq_zero_iff]
    exact htraffic.drains hc
  · obtain ⟨t', ht', -⟩ := hinv.exists_call hroom htake
    exact ⟨t', ht'⟩

end Runs

/-- A message of 1000 bytes of which the socket takes 10, then 900, and another one, which does not
fit behind the bytes that wait. -/
def wrapped : List Call :=
  [.loop .connectEstablished fun _ => 0,
    .loop (.sendInLoop (List.replicate 1000 7) (.room 10)) fun _ => 0,
    .loop (.handlewrite (.room 900)) fun _ => 0,
    .loop (.sendInLoop (List.replicate 500 8) (.room 0)) fun _ => 0,
    .handleRead (some (List.replicate 1000 9)) fun _ => 0, .retrieve 900,
    .handleRead (some (List.replicate 200 1)) fun _ => 0]

theorem traffic_of_reaches_wrapped : ∃ t : BufferedTraffic, t.messages.length = 2 ∧
    Reaches (ofStep fun u a => some (Traffic.call u a)) anyLabel (.init true true 1000)
      t.traffic := by
  obtain ⟨t, hreach, ht⟩ := Reaches.exists_of_run (C := HasRoom) (s := init true true 1000)
    (P := fun t => t.messages.length = 2) BufferedTraffic.call wrapped (by decide +kernel)
  exact ⟨t, ht, (traffic_of_reaches hreach).1⟩

theorem written_append_readable_wrapped : ∃ t : BufferedTraffic,
    t.conn.outputBuffer_.readableBytes = 590 ∧ t.conn.inputBuffer_.readableBytes = 300 ∧
    t.conn.written ++ t.conn.outputBuffer_.readable = t.messages.flatten ∧
    t.received = t.taken ++ t.conn.inputBuffer_.readable := by
  obtain ⟨t, hreach, hout, hin⟩ := Reaches.exists_of_run (C := HasRoom) (s := init true true 1000)
    (P := fun t => t.conn.outputBuffer_.readableBytes = 590 ∧
      t.conn.inputBuffer_.readableBytes = 300) BufferedTraffic.call wrapped (by decide +kernel)
  have hqueue := written_append_readable hreach
  exact ⟨t, hout, hin, hqueue.1, hqueue.2.2.1⟩

end BufferedTraffic

end TinyMuduo
