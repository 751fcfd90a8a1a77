import TinyMuduo.Library.Transition
import TinyMuduo.Poller.Channel

/-!
# A TCP connection on the thread of its loop

This file embeds the member functions of `TcpConnection` (`resoure/TcpConnection.cpp`) that run on
the thread of the connection's loop and touch its channel, its output buffer and its socket, and
proves that the three ways by which bytes reach the socket (the direct write of `sendInLoop`, its
buffered path and the drain by `handlewrite`) agree on their order.

The output buffer is a queue of bytes. `write` on the socket accepts as many bytes as the kernel
has room for, or fails. `handlewrite` and `connectDestoryed` read `state_` after their first
effects, when another thread may have changed it; they are split at that point, and the two halves
put together again for the code that runs on one thread.

The callbacks set by the user are known by whether they are set; the functors that a function
queues on the loop are part of its result. The input buffer, the name and the addresses of the
connection and the log are left out.

## Main definitions

* `StateE`, `WriteResult`, `TcpConnection`.
* `TcpConnection.sendInLoop`, `TcpConnection.handlewrite`, `TcpConnection.handleClose`,
  `TcpConnection.connectEstablished`, `TcpConnection.connectDestoryed`,
  `TcpConnection.shutdownInLoop`.
* `Traffic`: a connection with the messages passed to `sendInLoop`.

## Main results

* `TcpConnection.written_sendInLoop`, `TcpConnection.written_handlewriteOut`: what the functions do
  to the stream of bytes.
* `TcpConnection.Drains.sendInLoop`, `TcpConnection.Drains.handlewriteOut`: write interest is on
  while bytes wait.
* `Traffic.inv_foldl_call_init`: no byte is lost, duplicated, reordered or stranded.
* `Traffic.carries_iff_keepsErrno`: the messages are those that should be on the stream exactly if
  the log keeps `errno`.
-/

namespace TinyMuduo

/-- The states of a connection. -/
inductive StateE
  | kDisconnected
  | kConnecting
  | kConnected
  | kDisconnecting
  deriving DecidableEq

/-- The values of `errno` after a failed `write` that the code tells apart. -/
inductive Errno
  | EWOULDBLOCK
  | EPIPE
  | ECONNRESET
  | other
  deriving DecidableEq

/-- The peer no longer takes bytes. -/
def Errno.isFault : Errno → Bool
  | .EPIPE | .ECONNRESET => true
  | .EWOULDBLOCK | .other => false

/-- What the kernel answers to a `write`: it has room for some number of bytes, of which the write
takes at most those that it passes, or it fails with `errno` `e`. `sendInLoop` then writes to the
log, unless `e` is `EWOULDBLOCK`; the log calls `localtime` and writes to `std::cout`, and `logged`
is the `errno` that it leaves. -/
inductive WriteResult
  | room (n : ℕ)
  | error (e logged : Errno)
  deriving DecidableEq

/-- The value of `errno` that a failed `write` leaves. -/
def WriteResult.errno : WriteResult → Option Errno
  | .room _ => none
  | .error e _ => some e

/-- `sendInLoop` gives its message up: it tests `errno` for the second time after the log. -/
def WriteResult.faultError : WriteResult → Bool
  | .room _ => false
  | .error e logged => e != .EWOULDBLOCK && logged.isFault

@[simp] theorem WriteResult.faultError_room (n : ℕ) : (room n).faultError = false := rfl

/-- The write itself failed with `EPIPE` or `ECONNRESET`. -/
def WriteResult.isFault (r : WriteResult) : Bool := r.errno.any Errno.isFault

/-- When `sendInLoop` tests `errno` after the log, it finds there whether the write failed with
`EPIPE` or `ECONNRESET`. -/
def WriteResult.KeepsErrno : WriteResult → Prop
  | .room _ => True
  | .error e logged => e ≠ .EWOULDBLOCK → logged.isFault = e.isFault

theorem WriteResult.keepsErrno_iff (r : WriteResult) : r.KeepsErrno ↔ r.faultError = r.isFault := by
  cases r with
  | room n => exact iff_of_true trivial rfl
  | error e logged =>
    cases e <;>
      simp [KeepsErrno, WriteResult.faultError, WriteResult.isFault, errno, Errno.isFault]

instance : DecidablePred WriteResult.KeepsErrno := fun r =>
  decidable_of_iff _ r.keepsErrno_iff.symm

/-- A functor that the connection queues on its loop for a callback of the user. The functor of the
high-water mark copies `highWaterMarkCallback_`, which may be empty. -/
inductive Callback
  | writeComplete
  | highWaterMark (isSet : Bool) (size : ℕ)
  deriving DecidableEq

/-- The functor wraps a callback that is set. -/
def Callback.invocable : Callback → Bool
  | .writeComplete => true
  | .highWaterMark isSet _ => isSet

/-- A connection. `written` are the bytes that the socket accepted, `writeShut` says whether
`socket_->shutdownwrite()` was called. -/
structure TcpConnection where
  state_ : StateE
  channel_ : Registration
  outputBuffer_ : List UInt8
  highWaterMark_ : ℕ
  writeCompleteCallback_ : Bool
  highWaterMarkCallback_ : Bool
  written : List UInt8
  writeShut : Bool
  deriving DecidableEq

namespace TcpConnection

/-- The connection that the constructor makes, with the callbacks set or not and the high-water mark
that the setters leave (64 MiB when none is set). -/
def init (writeCompleteCallback highWaterMarkCallback : Bool) (highWaterMark : ℕ) :
    TcpConnection :=
  ⟨.kConnecting, Registration.init, [], highWaterMark, writeCompleteCallback,
    highWaterMarkCallback, [], false⟩

variable (c : TcpConnection)

@[simp] def setState (s : StateE) : TcpConnection := { c with state_ := s }

/-- `sendInLoop` writes to the socket itself. -/
def writesDirectly : Bool := !c.channel_.isWritingEvent && c.outputBuffer_.length == 0

/-- The direct write of `sendInLoop`: the connection, the bytes that remain, `faultError`, and the
functors queued. -/
def directWrite (message : List UInt8) :
    WriteResult → TcpConnection × List UInt8 × Bool × List Callback
  | .room n =>
    let remaining := message.drop n
    ({ c with written := c.written ++ message.take n }, remaining, false,
      if remaining.length == 0 && c.writeCompleteCallback_ then [.writeComplete] else [])
  | .error e logged =>
    (c, message, e != .EWOULDBLOCK && (logged == .EPIPE || logged == .ECONNRESET), [])

/-- The end of `sendInLoop`: what remains goes to the output buffer, and write interest is turned
on. -/
def bufferRemaining (remaining : List UInt8) : TcpConnection × List Callback :=
  let oldlen := c.outputBuffer_.length
  let c' := { c with outputBuffer_ := c.outputBuffer_ ++ remaining }
  (if c.channel_.isWritingEvent then c' else { c' with channel_ := c.channel_.enableWriting },
    if oldlen + remaining.length ≥ c.highWaterMark_ ∧ oldlen < c.highWaterMark_ then
      [.highWaterMark c.highWaterMarkCallback_ (oldlen + remaining.length)] else [])

/-- `TcpConnection::sendInLoop`: the connection after it, and the functors queued. The state
`kDisconnected` is only logged. -/
def sendInLoop (message : List UInt8) (r : WriteResult) : TcpConnection × List Callback :=
  let (c', remaining, faultError, queued) :=
    if c.writesDirectly then c.directWrite message r else (c, message, false, [])
  if !faultError && remaining.length > 0 then
    let (c'', queued') := c'.bufferRemaining remaining
    (c'', queued ++ queued')
  else (c', queued)

/-- `TcpConnection::handlewrite` up to the test of `state_`: the connection, the functors queued,
and whether the test is reached. -/
def handlewriteOut (r : WriteResult) : TcpConnection × List Callback × Bool :=
  if c.channel_.isWritingEvent then
    match r with
    | .room n =>
      let n := min n c.outputBuffer_.length
      if n > 0 then
        let c' := { c with
          written := c.written ++ c.outputBuffer_.take n
          outputBuffer_ := c.outputBuffer_.drop n }
        if c'.outputBuffer_.length == 0 then
          ({ c' with channel_ := c.channel_.disableWriting },
            if c.writeCompleteCallback_ then [.writeComplete] else [], true)
        else (c', [], false)
      else (c, [], true)
    | .error _ _ => (c, [], true)
  else (c, [], false)

/-- `TcpConnection::shutdownInLoop`. -/
def shutdownInLoop : TcpConnection :=
  if c.channel_.isWritingEvent then c else { c with writeShut := true }

/-- The end of `handlewrite`: the test of `state_`. -/
def shutdownIfDisconnecting : TcpConnection :=
  if c.state_ = .kDisconnecting then c.shutdownInLoop else c

/-- `TcpConnection::handlewrite`. -/
def handlewrite (r : WriteResult) : TcpConnection × List Callback :=
  let (c', queued, tests) := c.handlewriteOut r
  (if tests then c'.shutdownIfDisconnecting else c', queued)

/-- `TcpConnection::handleClose` up to the callbacks. -/
@[simp] def handleClose : TcpConnection :=
  { c.setState .kDisconnected with channel_ := c.channel_.disableAll }

/-- `TcpConnection::connectEstablished` up to the callback. -/
@[simp] def connectEstablished : TcpConnection :=
  { c.setState .kConnected with channel_ := c.channel_.enableReading }

/-- The branch of `TcpConnection::connectDestoryed` for `kConnected`, up to the callback. -/
@[simp] def disconnect : TcpConnection :=
  { c.setState .kDisconnected with channel_ := c.channel_.disableAll }

/-- The last statement of `TcpConnection::connectDestoryed`. -/
@[simp] def removeChannel : TcpConnection := { c with channel_ := c.channel_.remove }

/-- `TcpConnection::connectDestoryed`. -/
def connectDestoryed : TcpConnection :=
  (if c.state_ = .kConnected then c.disconnect else c).removeChannel

/-! ### The effects of `sendInLoop` -/

/-- The direct write of `sendInLoop` sets `faultError`: the message is dropped. -/
def faults (r : WriteResult) : Bool := c.writesDirectly && r.faultError

/-- What the direct write of `sendInLoop` puts on the socket. -/
def takes (message : List UInt8) (r : WriteResult) : List UInt8 :=
  match c.writesDirectly, r with
  | true, .room n => message.take n
  | _, _ => []

/-- What `sendInLoop` leaves for the output buffer. -/
def leaves (message : List UInt8) (r : WriteResult) : List UInt8 :=
  if c.faults r then [] else
    match c.writesDirectly, r with
    | true, .room n => message.drop n
    | _, _ => message

theorem directWrite_error (message : List UInt8) (e logged : Errno) :
    c.directWrite message (.error e logged) =
      (c, message, (WriteResult.error e logged).faultError, []) := by
  cases logged <;> rfl

theorem outputBuffer_of_writesDirectly (h : c.writesDirectly = true) : c.outputBuffer_ = [] := by
  simp only [writesDirectly, Bool.and_eq_true, beq_iff_eq, List.length_eq_zero_iff] at h
  exact h.2

/-- The direct write and the output buffer share a message that is not dropped. -/
theorem takes_append_leaves (message : List UInt8) (r : WriteResult) :
    c.takes message r ++ c.leaves message r = if c.faults r then [] else message := by
  cases hdirect : c.writesDirectly <;> cases r <;> simp [takes, leaves, faults, hdirect]

theorem bufferRemaining_fst (remaining : List UInt8) :
    (c.bufferRemaining remaining).1 = { c with
      outputBuffer_ := c.outputBuffer_ ++ remaining
      channel_ := if c.channel_.isWritingEvent then c.channel_ else c.channel_.enableWriting } := by
  simp only [bufferRemaining]
  split_ifs <;> rfl

/-- All effects of `sendInLoop` on the connection. -/
theorem sendInLoop_fst (message : List UInt8) (r : WriteResult) :
    (c.sendInLoop message r).1 = { c with
      written := c.written ++ c.takes message r
      outputBuffer_ := c.outputBuffer_ ++ c.leaves message r
      channel_ := if c.leaves message r = [] ∨ c.channel_.isWritingEvent then c.channel_
        else c.channel_.enableWriting } := by
  cases hdirect : c.writesDirectly with
  | false =>
    cases message with
    | nil => simp [sendInLoop, takes, leaves, faults, hdirect]
    | cons b bs => simp [sendInLoop, takes, leaves, faults, hdirect, bufferRemaining_fst]
  | true =>
    cases r with
    | room n =>
      cases hdrop : message.drop n <;>
        simp [sendInLoop, directWrite, takes, leaves, faults, hdirect, hdrop, bufferRemaining_fst]
    | error e logged =>
      cases message <;> cases hfault : (WriteResult.error e logged).faultError <;>
        simp [sendInLoop, directWrite_error, takes, leaves, faults, hdirect, hfault,
          bufferRemaining_fst]

@[simp] theorem state_sendInLoop (message : List UInt8) (r : WriteResult) :
    (c.sendInLoop message r).1.state_ = c.state_ := by
  rw [sendInLoop_fst]

/-- `sendInLoop` puts its message at the end of the stream, unless it drops it. -/
theorem written_sendInLoop (message : List UInt8) (r : WriteResult) :
    (c.sendInLoop message r).1.written ++ (c.sendInLoop message r).1.outputBuffer_ =
      c.written ++ c.outputBuffer_ ++ if c.faults r then [] else message := by
  rw [sendInLoop_fst, ← takes_append_leaves]
  cases hdirect : c.writesDirectly with
  | false => simp [takes, hdirect]
  | true => simp [c.outputBuffer_of_writesDirectly hdirect]

/-! ### The effects of `handlewrite` -/

/-- What `handlewrite` puts on the socket. -/
def drains (r : WriteResult) : List UInt8 :=
  match c.channel_.isWritingEvent, r with
  | true, .room n => c.outputBuffer_.take n
  | _, _ => []

/-- All effects of `handlewrite` on the connection before it tests `state_`. -/
theorem handlewriteOut_fst (r : WriteResult) :
    (c.handlewriteOut r).1 = { c with
      written := c.written ++ c.drains r
      outputBuffer_ := c.outputBuffer_.drop (c.drains r).length
      channel_ := if c.drains r ≠ [] ∧ c.outputBuffer_.drop (c.drains r).length = [] then
        c.channel_.disableWriting else c.channel_ } := by
  cases hwriting : c.channel_.isWritingEvent with
  | false => simp [handlewriteOut, drains, hwriting]
  | true =>
    cases r with
    | error e logged => simp [handlewriteOut, drains, hwriting]
    | room n =>
      rcases Nat.eq_zero_or_pos (min n c.outputBuffer_.length) with hn | hn
      · have htake : c.outputBuffer_.take n = [] := by
          rw [← List.length_eq_zero_iff, List.length_take, hn]
        simp [handlewriteOut, drains, hwriting, hn, htake]
      · have htake : c.outputBuffer_.take n ≠ [] := by
          rw [← List.length_pos_iff, List.length_take]
          exact hn
        have heq : c.outputBuffer_.take (min n c.outputBuffer_.length) = c.outputBuffer_.take n :=
          List.take_eq_take_min.symm
        simp only [handlewriteOut, drains, hwriting, if_true, hn, heq, List.length_take, htake,
          ne_eq, not_false_eq_true, true_and, beq_iff_eq, List.length_eq_zero_iff]
        split_ifs <;> rfl

@[simp] theorem state_handlewriteOut (r : WriteResult) :
    (c.handlewriteOut r).1.state_ = c.state_ := by
  rw [handlewriteOut_fst]

@[simp] theorem state_shutdownInLoop : c.shutdownInLoop.state_ = c.state_ := by
  unfold shutdownInLoop
  split_ifs <;> rfl

@[simp] theorem outputBuffer_shutdownInLoop :
    c.shutdownInLoop.outputBuffer_ = c.outputBuffer_ := by
  unfold shutdownInLoop
  split_ifs <;> rfl

@[simp] theorem written_shutdownInLoop : c.shutdownInLoop.written = c.written := by
  unfold shutdownInLoop
  split_ifs <;> rfl

@[simp] theorem channel_shutdownInLoop : c.shutdownInLoop.channel_ = c.channel_ := by
  unfold shutdownInLoop
  split_ifs <;> rfl

/-- `handlewrite` moves bytes from the output buffer to the socket. -/
theorem written_handlewriteOut (r : WriteResult) :
    (c.handlewriteOut r).1.written ++ (c.handlewriteOut r).1.outputBuffer_ =
      c.written ++ c.outputBuffer_ := by
  have hsplit : c.drains r ++ c.outputBuffer_.drop (c.drains r).length = c.outputBuffer_ := by
    unfold drains
    split
    · rw [List.length_take, ← List.drop_eq_drop_min, List.take_append_drop]
    · rfl
  rw [handlewriteOut_fst]
  simp [hsplit]

theorem handlewrite_fst (r : WriteResult) :
    ∃ shut, (c.handlewrite r).1 = { (c.handlewriteOut r).1 with writeShut := shut } := by
  simp only [handlewrite, shutdownIfDisconnecting, shutdownInLoop]
  split_ifs <;> exact ⟨_, rfl⟩

/-! ### Write interest -/

/-- Write interest is on exactly while bytes wait in the output buffer. -/
def Drains : Prop := c.channel_.isWritingEvent = true ↔ c.outputBuffer_ ≠ []

variable {c}

theorem drains_init (writeComplete highWater : Bool) (highWaterMark : ℕ) :
    (init writeComplete highWater highWaterMark).Drains := by
  simp [Drains, init, Registration.isWritingEvent, Registration.init]

theorem Drains.connectEstablished (h : c.Drains) : c.connectEstablished.Drains := by
  simpa [Drains, TcpConnection.connectEstablished, setState] using h

theorem Drains.sendInLoop (h : c.Drains) (message : List UInt8) (r : WriteResult) :
    (c.sendInLoop message r).1.Drains := by
  rw [Drains] at h
  rw [Drains, sendInLoop_fst]
  by_cases hleaves : c.leaves message r = []
  · simpa [hleaves] using h
  · cases hwriting : c.channel_.isWritingEvent <;> simp [hleaves, hwriting]

theorem Drains.handlewriteOut (h : c.Drains) (r : WriteResult) :
    (c.handlewriteOut r).1.Drains := by
  rw [Drains] at h
  rw [Drains, handlewriteOut_fst]
  by_cases hdrains : c.drains r = []
  · simpa [hdrains] using h
  · have hwriting : c.channel_.isWritingEvent = true := by
      by_contra hoff
      exact hdrains (by simp [drains, hoff])
    by_cases hrest : c.outputBuffer_.drop (c.drains r).length = []
    · simp [hdrains, hrest]
    · simp [hrest, hwriting]

theorem reading_sendInLoop (h : c.channel_.Reading) (message : List UInt8) (r : WriteResult) :
    (c.sendInLoop message r).1.channel_.Reading := by
  rw [sendInLoop_fst]
  dsimp only
  split_ifs
  · exact h
  · exact h.enableWriting

theorem reading_handlewriteOut (h : c.channel_.Reading) (r : WriteResult) :
    (c.handlewriteOut r).1.channel_.Reading := by
  rw [handlewriteOut_fst]
  dsimp only
  split_ifs
  · exact h.disableWriting
  · exact h

/-- On a closed channel `handlewrite` does nothing. -/
theorem handlewriteOut_of_closed (h : c.channel_.Closed) (r : WriteResult) :
    c.handlewriteOut r = (c, [], false) := by
  simp [handlewriteOut, h.isWritingEvent]

/-- A message that leaves nothing for the output buffer does not touch the channel. -/
theorem channel_sendInLoop_of_leaves_eq_nil {message : List UInt8} {r : WriteResult}
    (h : c.leaves message r = []) : (c.sendInLoop message r).1.channel_ = c.channel_ := by
  rw [sendInLoop_fst]
  exact if_pos (.inl h)

/-- An empty message changes nothing while bytes wait in the output buffer. -/
theorem sendInLoop_nil_of_buffered (h : c.outputBuffer_ ≠ []) (r : WriteResult) :
    c.writesDirectly = false ∧ (c.sendInLoop [] r).1 = c := by
  have hdirect : c.writesDirectly = false := by simp [writesDirectly, h]
  exact ⟨hdirect, by simp [sendInLoop_fst, takes, leaves, faults, hdirect]⟩

end TcpConnection

/-! ### Sequences of calls -/

/-- What happens to a connection on the thread of its loop: the calls of its member functions, each
`write` with its result, and a change of `state_` by another thread between two calls. -/
inductive LoopCall
  | sendInLoop (message : List UInt8) (r : WriteResult)
  | handlewrite (r : WriteResult)
  | shutdownInLoop
  | handleClose
  | connectEstablished
  | connectDestoryed
  | setState (s : StateE)

/-- A connection with the messages passed to `sendInLoop`, without those that a direct write which
set `faultError` has dropped, and whether `handleClose` or `connectDestoryed` has run. -/
structure Traffic where
  conn : TcpConnection
  messages : List (List UInt8)
  closed : Bool

namespace Traffic

/-- A new connection. -/
def init (writeCompleteCallback highWaterMarkCallback : Bool) (highWaterMark : ℕ) : Traffic :=
  ⟨.init writeCompleteCallback highWaterMarkCallback highWaterMark, [], false⟩

/-- The connection after one more call. -/
def call (t : Traffic) : LoopCall → Traffic
  | .sendInLoop message r => { t with
      conn := (t.conn.sendInLoop message r).1
      messages := if t.conn.faults r then t.messages else t.messages ++ [message] }
  | .handlewrite r => { t with conn := (t.conn.handlewrite r).1 }
  | .shutdownInLoop => { t with conn := t.conn.shutdownInLoop }
  | .handleClose => { t with conn := t.conn.handleClose, closed := true }
  | .connectEstablished => { t with conn := t.conn.connectEstablished }
  | .connectDestoryed => { t with conn := t.conn.connectDestoryed, closed := true }
  | .setState s => { t with conn := t.conn.setState s }

/-- The bytes on the socket and those that wait are the messages, in order; until the connection
is closed, write interest is on while bytes wait. -/
structure Inv (t : Traffic) : Prop where
  stream : t.conn.written ++ t.conn.outputBuffer_ = t.messages.flatten
  drains : t.closed = false → t.conn.Drains

theorem inv_init (writeCompleteCallback highWaterMarkCallback : Bool) (highWaterMark : ℕ) :
    (init writeCompleteCallback highWaterMarkCallback highWaterMark).Inv :=
  ⟨rfl, fun _ => TcpConnection.drains_init _ _ _⟩

theorem Inv.call {t : Traffic} (h : t.Inv) (a : LoopCall) : (t.call a).Inv := by
  cases a with
  | sendInLoop message r =>
    refine ⟨?_, fun hc => (h.drains hc).sendInLoop message r⟩
    simp only [Traffic.call, TcpConnection.written_sendInLoop, h.stream]
    split_ifs <;> simp
  | handlewrite r =>
    obtain ⟨shut, hfst⟩ := t.conn.handlewrite_fst r
    refine ⟨?_, fun hc => ?_⟩
    · simp only [Traffic.call, hfst, TcpConnection.written_handlewriteOut, h.stream]
    · simp only [Traffic.call, hfst]
      exact (h.drains hc).handlewriteOut r
  | shutdownInLoop =>
    simp only [Traffic.call, TcpConnection.shutdownInLoop]
    split_ifs <;> exact ⟨h.stream, h.drains⟩
  | handleClose => exact ⟨h.stream, fun hc => absurd hc (by simp [Traffic.call])⟩
  | connectEstablished => exact ⟨h.stream, fun hc => (h.drains hc).connectEstablished⟩
  | connectDestoryed =>
    refine ⟨?_, fun hc => absurd hc (by simp [Traffic.call])⟩
    simp only [Traffic.call, TcpConnection.connectDestoryed]
    split_ifs <;> exact h.stream
  | setState s => exact ⟨h.stream, h.drains⟩

/-- Every sequence of calls keeps the invariant. -/
theorem Inv.foldl_call : (calls : List LoopCall) → {t : Traffic} → t.Inv →
    (calls.foldl Traffic.call t).Inv
  | [], _, h => h
  | a :: calls, _, h => foldl_call calls (h.call a)

/-- After every sequence of calls, with every result of each `write`, the bytes that the socket
accepted followed by the output buffer are the messages passed to `sendInLoop` in order, without
those that `faultError` dropped; and until `handleClose` or `connectDestoryed` runs, write interest
is on exactly when the output buffer is not empty. -/
theorem inv_foldl_call_init (writeCompleteCallback highWaterMarkCallback : Bool)
    (highWaterMark : ℕ) (calls : List LoopCall) :
    (calls.foldl call (init writeCompleteCallback highWaterMarkCallback highWaterMark)).Inv :=
  Inv.foldl_call calls (inv_init writeCompleteCallback highWaterMarkCallback highWaterMark)

/-! ### The messages that are due on the stream -/

/-- What a call adds to the messages that the stream has to carry: the message passed to
`sendInLoop`, unless its own direct write fails with `EPIPE` or `ECONNRESET`. -/
def due (t : Traffic) : LoopCall → List (List UInt8)
  | .sendInLoop message r => if t.conn.writesDirectly && r.isFault then [] else [message]
  | _ => []

/-- The messages that the stream has to carry after a sequence of calls. -/
def allDue (t : Traffic) : List LoopCall → List (List UInt8)
  | [] => []
  | a :: calls => t.due a ++ (t.call a).allDue calls

/-- The bytes on the socket and those that wait are `messages`, in order; and until the connection
is closed, write interest is on exactly while bytes wait. -/
structure Carries (t : Traffic) (messages : List (List UInt8)) : Prop where
  stream : t.conn.written ++ t.conn.outputBuffer_ = messages.flatten
  interest : t.closed = false →
    (t.conn.channel_.isWritingEvent = true ↔ t.conn.outputBuffer_ ≠ [])

/-- A direct write of bytes that fails leaves to the test behind the log whether it failed with
`EPIPE` or `ECONNRESET`. -/
def KeepsErrno (t : Traffic) : LoopCall → Prop
  | .sendInLoop message r => t.conn.writesDirectly = true → message ≠ [] → r.KeepsErrno
  | _ => True

theorem allDue_append (t : Traffic) (calls : List LoopCall) (a : LoopCall) :
    t.allDue (calls ++ [a]) = t.allDue calls ++ (calls.foldl call t).due a := by
  induction calls generalizing t with
  | nil => simp [allDue]
  | cons b calls ih => simp [allDue, ih, List.append_assoc]

/-- A call that keeps the messages in step with those due is one that keeps `errno`. -/
theorem flatten_messages_call_iff {t : Traffic} {messages : List (List UInt8)}
    (h : t.messages.flatten = messages.flatten) (a : LoopCall) :
    (t.call a).messages.flatten = (messages ++ t.due a).flatten ↔ t.KeepsErrno a := by
  cases a with
  | sendInLoop message r =>
    cases hdirect : t.conn.writesDirectly with
    | false => simp [call, due, KeepsErrno, TcpConnection.faults, hdirect, h]
    | true =>
      have hmessages : (t.call (.sendInLoop message r)).messages =
          if r.faultError then t.messages else t.messages ++ [message] := by
        simp [call, TcpConnection.faults, hdirect]
      simp only [hmessages, due, KeepsErrno, hdirect, r.keepsErrno_iff, Bool.true_and,
        forall_const]
      cases r.faultError <;> cases r.isFault <;> simp [h, imp_false]
  | handlewrite | shutdownInLoop | handleClose | connectEstablished | connectDestoryed | setState =>
    simp [call, due, KeepsErrno, h]

/-- In every run of the calls, with every result of each `write`: after each call the bytes on the
socket followed by the output buffer are the messages passed to `sendInLoop` in order, without those
whose own direct write failed with `EPIPE` or `ECONNRESET`, with write interest on exactly while
bytes wait until the connection is closed, if and only if each direct write of bytes keeps
`errno`. -/
theorem carries_iff_keepsErrno (writeCompleteCallback highWaterMarkCallback : Bool)
    (highWaterMark : ℕ) (calls : List LoopCall) :
    let t := init writeCompleteCallback highWaterMarkCallback highWaterMark
    (∀ before, before <+: calls → (before.foldl call t).Carries (t.allDue before)) ↔
      ∀ before a, before ++ [a] <+: calls → (before.foldl call t).KeepsErrno a := by
  intro t
  have hinv (before : List LoopCall) : (before.foldl call t).Inv := inv_foldl_call_init _ _ _ before
  have hcarries (before : List LoopCall) : (before.foldl call t).Carries (t.allDue before) ↔
      (before.foldl call t).messages.flatten = (t.allDue before).flatten :=
    ⟨fun h => (hinv before).stream.symm.trans h.stream,
      fun h => ⟨(hinv before).stream.trans h, (hinv before).drains⟩⟩
  simp only [hcarries]
  -- the induction takes off the last call: up to it, the messages are those due
  induction calls using List.reverseRecOn with
  | nil => simp [allDue, t, init]
  | append_singleton calls a ih =>
    have hstep (hcalls : (calls.foldl call t).messages.flatten = (t.allDue calls).flatten) :
        ((calls ++ [a]).foldl call t).messages.flatten = (t.allDue (calls ++ [a])).flatten ↔
          (calls.foldl call t).KeepsErrno a := by
      rw [List.foldl_append, allDue_append]
      exact flatten_messages_call_iff hcalls a
    constructor
    · intro h before b hb
      rcases List.prefix_concat_iff.mp hb with heq | hb
      · obtain ⟨rfl, rfl⟩ := List.append_inj' heq rfl |>.imp id List.singleton_inj.mp
        exact (hstep (h _ (List.prefix_append _ _))).mp (h _ List.prefix_rfl)
      · exact ih.mp (fun before' h' => h before' (h'.trans (List.prefix_append _ _))) before b hb
    · intro h before hb
      have hcalls := ih.mpr fun before' b h' => h before' b (h'.trans (List.prefix_append _ _))
      rcases List.prefix_concat_iff.mp hb with rfl | hb
      · exact (hstep (hcalls _ List.prefix_rfl)).mpr (h _ _ List.prefix_rfl)
      · exact hcalls before hb

/-- A direct write fails with `ECONNRESET`, the log leaves another `errno`, and the message that
should be given up waits in the output buffer. -/
theorem exists_not_carries : ∃ calls : List LoopCall,
    ¬(calls.foldl call (init true true 1000)).Carries ((init true true 1000).allDue calls) := by
  refine ⟨[.connectEstablished, .sendInLoop [7] (.error .ECONNRESET .other)], fun h => ?_⟩
  exact absurd h.stream (by decide)

end Traffic

end TinyMuduo
