import TinyMuduo.Connection.BufferedConnection
import TinyMuduo.Library.Potential

/-!
# The echo server

`EchoServer` (`text.cpp`) sends back what it receives: its `onMessage` takes all bytes out of the
input buffer and passes them to `send`. This file follows one of its connections from
`connectEstablished` on, with the two buffers of `TinyMuduo.Connection.BufferedConnection`, through
the events of its channel and `connectDestoryed`.

As long as no more than 1024 bytes wait in a buffer and no direct write fails for good, the bytes on
the socket and those that wait in the output buffer are the bytes that arrived. While the connection
is open the channel asks for a write event exactly if bytes wait, and each write event in which the
socket has room takes a byte away; so there are no more such events than bytes to write, and when
the channel asks for none everything has been sent back.

## Main definitions

* `EchoServer.onMessage`, `EchoServer.step`: the server on a connection.
* `EchoServer.Fits`: the guard of the runs.
* `EchoServer.Event.calls`: what an event does to the connection with queues.

## Main results

* `EchoServer.echo_of_reaches`: what goes out is what came in.
* `EchoServer.writes_le_of_run`: all of it goes out.
-/

namespace TinyMuduo

namespace EchoServer

variable (fresh : ℕ → UInt8)

/-- `TcpConnection::send` on the thread of the loop. -/
def send (t : BufferedTraffic) (message : List UInt8) (r : WriteResult) : Option BufferedTraffic :=
  if t.conn.state_ = .kConnected then t.call (.loop (.sendInLoop message r) fresh) else some t

/-- `EchoServer::onMessage`. -/
def onMessage (t : BufferedTraffic) (r : WriteResult) : Option BufferedTraffic :=
  t.conn.inputBuffer_.retrieveAllAsString.bind fun (msg, buf) =>
    send fresh { t with
      conn := { t.conn with inputBuffer_ := buf }
      taken := t.taken ++ msg } msg r

/-- What happens to a connection: the three events of its channel, a read with what `readv` delivers
and the result of the direct write of `sendInLoop`, and `connectDestoryed`. -/
inductive Event
  | handleRead (delivered : Option (List UInt8)) (r : WriteResult)
  | handlewrite (r : WriteResult)
  | handleClose
  | connectDestoryed

/-- The connection after one more event. The channel has to be registered for a read and for a
hangup. -/
def step (t : BufferedTraffic) : Event → Option BufferedTraffic
  | .handleRead delivered r =>
    if t.conn.channel_.events_.isReadingEvent then
      (t.call (.handleRead delivered fresh)).bind fun t' =>
        match delivered with
        | some (_ :: _) => onMessage fresh t' r
        | _ => some t'
    else none
  | .handlewrite r => t.call (.loop (.handlewrite r) fresh)
  | .handleClose =>
    if t.conn.channel_.interest.isSome then t.call (.loop .handleClose fresh) else none
  | .connectDestoryed => t.call (.loop .connectDestoryed fresh)

/-- A connection of the server that was just established. `TcpServer` sets no callback for the end
of a write or the high-water mark. -/
def start : BufferedTraffic :=
  ⟨(BufferedConnection.init false false (64 * 1024 * 1024)).connectEstablished, [], false, [], []⟩

namespace Event

/-- The bytes that arrive. -/
def data : Event → List UInt8
  | handleRead delivered _ => delivered.getD []
  | handlewrite _ | handleClose | connectDestoryed => []

/-- The calls of the connection with queues. -/
def calls : Event → List LoopCall
  | handleRead (some (b :: data)) r => [.sendInLoop (b :: data) r]
  | handleRead (some []) _ => [.handleClose]
  | handleRead none _ => []
  | handlewrite r => [.handlewrite r]
  | handleClose => [.handleClose]
  | connectDestoryed => [.connectDestoryed]

/-- A write event. -/
def isWrite : Event → Bool
  | handlewrite _ => true
  | handleRead .. | handleClose | connectDestoryed => false

end Event

/-- At most 1024 bytes arrive, at most 1024 bytes wait in the output buffer after `sendInLoop`, and
its direct write does not set `faultError`. -/
def Fits (t : BufferedTraffic) : Event → Prop
  | .handleRead delivered r => (delivered.getD []).length ≤ 1024 ∧
    t.conn.toConnection.faults r = false ∧
    (t.conn.toConnection.sendInLoop (delivered.getD []) r).1.outputBuffer_.length ≤ 1024
  | _ => True

instance (t : BufferedTraffic) : (a : Event) → Decidable (Fits t a)
  | .handleRead .. => inferInstanceAs (Decidable (_ ∧ _ ∧ _))
  | .handlewrite _ | .handleClose | .connectDestoryed => .isTrue trivial

/-- The socket has room at a write event, which the channel has asked for. -/
def Takes (t : BufferedTraffic) : Event → Prop
  | .handlewrite (.room n) => 0 < n ∧ t.conn.channel_.isWritingEvent = true
  | .handlewrite (.error _ _) => False
  | _ => True

instance (t : BufferedTraffic) : (a : Event) → Decidable (Takes t a)
  | .handlewrite (.room _) => inferInstanceAs (Decidable (_ ∧ _))
  | .handlewrite (.error _ _) => .isFalse id
  | .handleRead .. | .handleClose | .connectDestoryed => .isTrue trivial

variable {t t' : BufferedTraffic} {a : Event}

/-! ### An event and the calls on queues -/

/-- All unread bytes are taken out. -/
theorem exists_retrieveAllAsString {b : Buffer} (h : b.Unread) :
    ∃ b', b.retrieveAllAsString = some (b.readable, b') ∧ b'.Unread ∧ b'.readable = [] := by
  have hlen := h.readableBytes_eq_length
  obtain ⟨b', hb', hunread, hread⟩ := h.exists_retrieve (Nat.le_refl b.readable.length)
  obtain ⟨c, hc, -⟩ := Buffer.exists_retrieveAsString h.inv h.sized (Nat.le_refl b.readableBytes)
  rw [hlen, List.take_length] at hc
  obtain rfl : b' = c := by
    rw [Buffer.retrieveAsString, hlen, if_pos (Nat.le_refl _), hb', Option.map_some] at hc
    exact congrArg Prod.snd (Option.some.inj hc)
  exact ⟨b', by rw [Buffer.retrieveAllAsString, hlen, hc], hunread, by simpa using hread⟩

/-- A call of the loop that leaves room does on the buffers what it does on the queues. -/
theorem exists_loopCall (h : t.Inv) {b : LoopCall} (hroom : t.conn.HasRoom b) :
    ∃ t', t.call (.loop b fresh) = some t' ∧ t'.Inv ∧ t'.traffic = t.traffic.call b ∧
      t'.received = t.received ∧ t'.taken = t.taken := by
  obtain ⟨t', ht', hinv⟩ := h.exists_call (a := .loop b fresh) hroom (by simp)
  obtain ⟨c, hc, htc, -⟩ := BufferedConnection.exists_call h.output fresh hroom
  refine ⟨t', ht', hinv, ?_⟩
  rw [BufferedTraffic.call, hc, Option.map_some] at ht'
  obtain rfl := Option.some.inj ht'
  refine ⟨?_, rfl, rfl⟩
  rw [BufferedTraffic.traffic, htc]
  exact congrArg (Traffic.mk · _ _) (t.traffic.conn_call b).symm

/-- `handleRead` up to `onMessage`. -/
theorem exists_handleRead (h : t.Inv) (delivered : Option (List UInt8))
    (hroom : t.conn.inputBuffer_.readable.length + (delivered.getD []).length ≤ 1024) :
    ∃ t', t.call (.handleRead delivered fresh) = some t' ∧ t'.Inv ∧
      t'.traffic = (if delivered = some [] then t.traffic.call .handleClose else t.traffic) ∧
      t'.received = t.received ++ delivered.getD [] ∧ t'.taken = t.taken := by
  obtain ⟨t', ht', hinv⟩ := h.exists_call (a := .handleRead delivered fresh) hroom (by simp)
  obtain ⟨⟨c, n⟩, hc, rfl⟩ := Option.map_eq_some_iff.mp ht'
  obtain ⟨-, -, hzero, htc⟩ := BufferedConnection.handleRead_eq_some hc
  refine ⟨_, ht', hinv, ?_, rfl, rfl⟩
  simp only [BufferedTraffic.traffic, htc, hzero]
  split_ifs with hclose
  · simp [Traffic.call, hzero.mpr hclose]
  · simp [mt hzero.mp hclose]

/-- `onMessage` sends all bytes that were unread. -/
theorem exists_onMessage (h : t.Inv) (hstate : t.conn.state_ = .kConnected) {r : WriteResult}
    (hroom : t.conn.HasRoom (.sendInLoop t.conn.inputBuffer_.readable r)) :
    ∃ t', onMessage fresh t r = some t' ∧ t'.Inv ∧
      t'.traffic = t.traffic.call (.sendInLoop t.conn.inputBuffer_.readable r) ∧
      t'.received = t.received ∧ t'.taken = t.received := by
  obtain ⟨b, hb, hunread, hread⟩ := exists_retrieveAllAsString h.input
  let u : BufferedTraffic := { t with
    conn := { t.conn with inputBuffer_ := b }
    taken := t.taken ++ t.conn.inputBuffer_.readable }
  have hu : u.Inv := ⟨h.output, hunread, by simp [u, h.received, hread]⟩
  obtain ⟨t', ht', hinv, htraffic, hreceived, htaken⟩ := exists_loopCall fresh hu hroom
  have hsend : send fresh u t.conn.inputBuffer_.readable r = some t' := by
    rw [send, if_pos hstate, ht']
  refine ⟨t', ?_, hinv, htraffic, hreceived, htaken.trans h.received.symm⟩
  rw [onMessage, hb]
  exact hsend

/-! ### Runs -/

/-- An open connection reads, and a closed one is not registered. -/
structure Settled (t : Traffic) : Prop where
  connected (h : t.closed = false) : t.conn.state_ = .kConnected
  reading (h : t.closed = false) : t.conn.channel_.Reading
  disconnected (h : t.closed = true) : t.conn.state_ = .kDisconnected
  unregistered (h : t.closed = true) : t.conn.channel_.Closed

namespace Settled

variable {t : Traffic}

theorem sendInLoop (h : Settled t) (hopen : t.closed = false) (message : List UInt8)
    (r : WriteResult) : Settled (t.call (.sendInLoop message r)) where
  connected _ := (t.conn.state_sendInLoop message r).trans (h.connected hopen)
  reading _ := TcpConnection.reading_sendInLoop (h.reading hopen) message r
  disconnected hclosed := by cases hopen.symm.trans hclosed
  unregistered hclosed := by cases hopen.symm.trans hclosed

theorem handlewrite (h : Settled t) (r : WriteResult) : Settled (t.call (.handlewrite r)) := by
  obtain ⟨shut, hfst⟩ := t.conn.handlewrite_fst r
  constructor
  case connected =>
    intro hopen
    simp only [Traffic.call, hfst, TcpConnection.state_handlewriteOut]
    exact h.connected hopen
  case reading =>
    intro hopen
    simp only [Traffic.call, hfst]
    exact TcpConnection.reading_handlewriteOut (h.reading hopen) r
  case disconnected =>
    intro hclosed
    simp only [Traffic.call, hfst, TcpConnection.state_handlewriteOut]
    exact h.disconnected hclosed
  case unregistered =>
    intro hclosed
    have hchannel := h.unregistered hclosed
    simpa only [Traffic.call, hfst, TcpConnection.handlewriteOut_of_closed hchannel] using hchannel

theorem handleClose (h : Settled t) (hopen : t.closed = false) :
    Settled (t.call .handleClose) where
  connected hopen' := by cases hopen'
  reading hopen' := by cases hopen'
  disconnected _ := rfl
  unregistered _ := Registration.closed_disableAll (h.reading hopen).added

theorem connectDestoryed (h : Settled t) : Settled (t.call .connectDestoryed) := by
  constructor
  case connected | reading =>
    intro hopen
    cases hopen
  case disconnected =>
    intro _
    cases hclosed : t.closed with
    | false => simp [Traffic.call, TcpConnection.connectDestoryed, h.connected hclosed]
    | true => simp [Traffic.call, TcpConnection.connectDestoryed, h.disconnected hclosed]
  case unregistered =>
    intro _
    simp only [Traffic.call, TcpConnection.connectDestoryed]
    cases hclosed : t.closed with
    | false =>
      rw [if_pos (h.connected hclosed)]
      exact (Registration.closed_disableAll (h.reading hclosed).added).remove
    | true =>
      rw [if_neg (by simp [h.disconnected hclosed])]
      exact (h.unregistered hclosed).remove

end Settled

/-- The invariant: what was received has been taken out of the input buffer and sent. -/
structure Echoes (t : BufferedTraffic) : Prop where
  inv : t.Inv
  traffic : t.traffic.Inv
  settled : Settled t.traffic
  taken : t.taken = t.received
  messages : t.messages.flatten = t.received

namespace Echoes

theorem readable (h : Echoes t) : t.conn.inputBuffer_.readable = [] := by
  have hreceived := h.inv.received
  rw [h.taken] at hreceived
  exact List.self_eq_append_right.mp hreceived

/-- A channel that is interested in reading belongs to an open connection. -/
theorem closed_of_isReadingEvent (h : Echoes t)
    (hreading : t.conn.channel_.events_.isReadingEvent = true) : t.closed = false := by
  by_contra hclosed
  have hevents : t.conn.channel_.events_ = KNoneEvent :=
    (h.settled.unregistered (Bool.not_eq_false _ ▸ hclosed)).events
  rw [hevents] at hreading
  cases hreading

/-- So does a channel in the interest set. -/
theorem closed_of_interest (h : Echoes t) (hinterest : t.conn.channel_.interest.isSome = true) :
    t.closed = false := by
  by_contra hclosed
  have hnone : t.conn.channel_.interest = none :=
    (h.settled.unregistered (Bool.not_eq_false _ ▸ hclosed)).interest
  rw [hnone] at hinterest
  cases hinterest

end Echoes

/-- The event can happen. -/
def Occurs (t : BufferedTraffic) : Event → Prop
  | .handleRead .. => t.conn.channel_.events_.isReadingEvent = true
  | .handleClose => t.conn.channel_.interest.isSome = true
  | .handlewrite _ | .connectDestoryed => True

/-- An event that fits returns, and does on the buffers what its calls do on the queues. -/
theorem Echoes.exists_step (h : Echoes t) (hfits : Fits t a) (hoccurs : Occurs t a) :
    ∃ t', step fresh t a = some t' ∧ t'.Inv ∧ t'.traffic = a.calls.foldl Traffic.call t.traffic ∧
      t'.received = t.received ++ a.data ∧ t'.taken = t'.received := by
  have hloop {b : LoopCall} (hb : ∀ message r, b ≠ .sendInLoop message r) :
      ∃ t', t.call (.loop b fresh) = some t' ∧ t'.Inv ∧ t'.traffic = t.traffic.call b ∧
        t'.received = t.received ++ [] ∧ t'.taken = t'.received := by
    obtain ⟨t', ht', hinv, htraffic, hreceived, htaken⟩ :=
      exists_loopCall fresh h.inv (BufferedConnection.hasRoom_of_ne h.inv.output hb)
    exact ⟨t', ht', hinv, htraffic, by rw [hreceived, List.append_nil],
      by rw [htaken, hreceived, h.taken]⟩
  cases a with
  | handleRead delivered r =>
    have hreading : t.conn.channel_.events_.isReadingEvent = true := hoccurs
    obtain ⟨hlen, -, hroom⟩ := hfits
    obtain ⟨u, hu, huinv, htraffic, hreceived, htaken⟩ := exists_handleRead fresh h.inv
      delivered (by simpa [h.readable] using hlen)
    have hread : u.conn.inputBuffer_.readable = delivered.getD [] := by
      have happend := huinv.received
      rw [hreceived, htaken, h.taken] at happend
      exact (List.append_cancel_left happend).symm
    rcases delivered with _ | _ | ⟨b, data⟩
    · refine ⟨u, by simp [step, hreading, hu], huinv, htraffic, hreceived, ?_⟩
      rw [htaken, hreceived, h.taken, Option.getD_none, List.append_nil]
    · refine ⟨u, by simp [step, hreading, hu], huinv, htraffic, hreceived, ?_⟩
      rw [htaken, hreceived, h.taken, Option.getD_some, List.append_nil]
    · rw [if_neg (by simp)] at htraffic
      have hconn : u.conn.toConnection = t.conn.toConnection := congrArg Traffic.conn htraffic
      have hstate : u.conn.state_ = .kConnected :=
        (congrArg TcpConnection.state_ hconn).trans
          (h.settled.connected (h.closed_of_isReadingEvent hreading))
      obtain ⟨t', ht', hinv, htraffic', hreceived', htaken'⟩ :=
        exists_onMessage fresh (r := r) huinv hstate
          (by rwa [BufferedConnection.HasRoom, LoopCall.apply, hread, hconn])
      rw [hread, htraffic] at htraffic'
      refine ⟨t', ?_, hinv, htraffic', hreceived'.trans hreceived, htaken'.trans hreceived'.symm⟩
      simp only [step, hreading, if_true, hu, Option.bind_some, ht']
  | handlewrite r => exact hloop (by simp)
  | handleClose =>
    have hinterest : t.conn.channel_.interest.isSome = true := hoccurs
    simp only [step, hinterest, if_true]
    exact hloop (by simp)
  | connectDestoryed => exact hloop (b := .connectDestoryed) (by simp)

variable {fresh}

private theorem occurs_of_step (hs : step fresh t a = some t') : Occurs t a := by
  cases a with
  | handleRead delivered r => exact (Option.ite_none_right_eq_some.mp hs).1
  | handleClose => exact (Option.ite_none_right_eq_some.mp hs).1
  | handlewrite r | connectDestoryed => trivial

/-- An event that fits keeps the invariant. -/
theorem Echoes.step (h : Echoes t) (hfits : Fits t a) (hs : step fresh t a = some t') :
    Echoes t' ∧ t'.traffic = a.calls.foldl Traffic.call t.traffic := by
  have hoccurs := occurs_of_step hs
  obtain ⟨u, hu, hinv, htraffic, hreceived, htaken⟩ :=
    h.exists_step fresh hfits hoccurs
  obtain rfl := Option.some.inj (hu.symm.trans hs)
  refine ⟨⟨hinv, htraffic ▸ h.traffic.foldl_call a.calls, ?_, htaken, ?_⟩, htraffic⟩
  · rw [htraffic]
    cases a with
    | handleRead delivered r =>
      have hopen := h.closed_of_isReadingEvent hoccurs
      rcases delivered with _ | _ | ⟨b, data⟩
      · exact h.settled
      · exact h.settled.handleClose hopen
      · exact h.settled.sendInLoop hopen _ _
    | handlewrite r => exact h.settled.handlewrite r
    | handleClose => exact h.settled.handleClose (h.closed_of_interest hoccurs)
    | connectDestoryed => exact h.settled.connectDestoryed
  · have hmessages : u.messages = (a.calls.foldl Traffic.call t.traffic).messages :=
      congrArg Traffic.messages htraffic
    rw [hreceived, hmessages, ← h.messages]
    cases a with
    | handleRead delivered r =>
      obtain ⟨-, hfaults, -⟩ := hfits
      rcases delivered with _ | _ | ⟨b, data⟩
      · exact (List.append_nil _).symm
      · exact (List.append_nil _).symm
      · simp [Event.calls, Event.data, Traffic.call, BufferedTraffic.traffic, hfaults]
    | handlewrite r | handleClose | connectDestoryed => exact (List.append_nil _).symm

private theorem traffic_start :
    start.traffic = (Traffic.init false false (64 * 1024 * 1024)).call .connectEstablished := by
  simp only [BufferedTraffic.traffic, start, BufferedConnection.connectEstablished,
    BufferedConnection.init, BufferedConnection.toConnection, Buffer.readable_new]
  rfl

private theorem echoes_start : Echoes start where
  inv := ⟨Buffer.unread_new Buffer.kInitialSize, Buffer.unread_new Buffer.kInitialSize,
    (Buffer.readable_new Buffer.kInitialSize).symm⟩
  traffic := traffic_start ▸ (Traffic.inv_init ..).call _
  settled :=
    { connected := fun _ => rfl
      reading := fun _ => Registration.reading_enableReading (r := Registration.init) rfl
      disconnected := fun hclosed => by cases hclosed
      unregistered := fun hclosed => by cases hclosed }
  taken := rfl
  messages := rfl

open Transition

theorem echoes_of_reaches (h : Reaches (ofStep (step fresh)) Fits start t) : Echoes t :=
  h.invariant echoes_start fun _ _ _ hu hfits hs => (hu.step hfits hs).1

/-- In every run of a connection of the echo server whose events fit, the bytes on the socket and
those that wait in the output buffer are the bytes that arrived, in order, and none is left in the
input buffer. While the connection is open it is registered for reading, and for writing exactly if
bytes wait. An event that fits and can happen returns. -/
theorem echo_of_reaches (h : Reaches (ofStep (step fresh)) Fits start t) :
    t.conn.written ++ t.conn.outputBuffer_.readable = t.received ∧
      t.conn.inputBuffer_.readableBytes = 0 ∧
      (t.closed = false → t.conn.channel_.Reading ∧
        (t.conn.channel_.isWritingEvent = true ↔ t.conn.outputBuffer_.readableBytes ≠ 0)) ∧
      ∀ a, Fits t a → Occurs t a → ∃ t', step fresh t a = some t' := by
  have hechoes := echoes_of_reaches h
  have hinput := hechoes.inv.input.readableBytes_eq_length
  have houtput := hechoes.inv.output.readableBytes_eq_length
  refine ⟨hechoes.traffic.stream.trans hechoes.messages, ?_, fun hopen => ?_, fun a hfits ha => ?_⟩
  · rw [hinput, hechoes.readable, List.length_nil]
  · refine ⟨hechoes.settled.reading hopen, ?_⟩
    rw [houtput, ne_eq, List.length_eq_zero_iff]
    exact hechoes.traffic.drains hopen
  · obtain ⟨t', ht', -⟩ := hechoes.exists_step fresh hfits ha
    exact ⟨t', ht'⟩

/-- Two chunks of which the socket takes 10 bytes, then 900, then the rest, and the end of the
stream. -/
def twoChunks : List Event :=
  [.handleRead (some (List.replicate 1000 7)) (.room 10), .handlewrite (.room 900),
    .handleRead (some (List.replicate 300 9)) (.room 0), .handlewrite (.room 2000),
    .handleRead (some []) (.room 0)]

theorem echo_of_reaches_two_chunks : ∃ t : BufferedTraffic, t.received.length = 1300 ∧
    t.closed = true ∧ t.conn.written ++ t.conn.outputBuffer_.readable = t.received := by
  obtain ⟨t, hreach, hreceived, hclosed⟩ := Reaches.exists_of_run (C := Fits) (s := start)
    (P := fun t => t.received.length = 1300 ∧ t.closed = true) (step fun _ => 0) twoChunks
    (by decide +kernel)
  exact ⟨t, hreceived, hclosed, (echo_of_reaches hreach).1⟩

/-! ### All of it goes out -/

/-- A write event for which the socket has room makes the output buffer shorter. -/
theorem length_handlewrite_lt {c : TcpConnection} {n : ℕ} (hn : 0 < n)
    (hwriting : c.channel_.isWritingEvent = true) (hdrains : c.Drains) :
    (c.handlewrite (.room n)).1.outputBuffer_.length < c.outputBuffer_.length := by
  have hpos : 0 < c.outputBuffer_.length := List.length_pos_iff.mpr (hdrains.mp hwriting)
  obtain ⟨shut, hfst⟩ := c.handlewrite_fst (.room n)
  rw [hfst, TcpConnection.handlewriteOut_fst]
  simp only [TcpConnection.drains, hwriting, List.length_drop, List.length_take]
  omega

/-- `sendInLoop` leaves at most its message for the output buffer. -/
theorem length_sendInLoop_le (c : TcpConnection) (message : List UInt8) (r : WriteResult) :
    (c.sendInLoop message r).1.outputBuffer_.length ≤
      c.outputBuffer_.length + message.length := by
  have hshare := congrArg List.length (c.takes_append_leaves message r)
  have hle : (c.leaves message r).length ≤ message.length := by
    rw [List.length_append] at hshare
    split_ifs at hshare
    · rw [List.length_nil] at hshare
      omega
    · omega
  rw [TcpConnection.sendInLoop_fst, List.length_append]
  omega

/-- A write event takes at least one byte out of the output buffer, and an event adds at most the
bytes that arrive. -/
theorem Echoes.length_step (h : Echoes t) (hfits : Fits t a) (htakes : Takes t a)
    (hs : EchoServer.step fresh t a = some t') :
    t'.conn.outputBuffer_.readable.length + (if a.isWrite then 1 else 0) ≤
      t.conn.outputBuffer_.readable.length + a.data.length := by
  have htraffic := (h.step hfits hs).2
  have houtput : t'.conn.outputBuffer_.readable =
      (a.calls.foldl Traffic.call t.traffic).conn.outputBuffer_ :=
    congrArg (fun u : Traffic => u.conn.outputBuffer_) htraffic
  have hsame : t.traffic.conn.outputBuffer_ = t.conn.outputBuffer_.readable := rfl
  rw [houtput, ← hsame]
  cases a with
  | handleRead delivered r =>
    rcases delivered with _ | _ | ⟨b, data⟩
    · exact Nat.le_refl _
    · exact Nat.le_refl _
    · exact length_sendInLoop_le t.traffic.conn (b :: data) r
  | handlewrite r =>
    cases r with
    | room n =>
      have hopen : t.closed = false := by
        by_contra hclosed
        have hchannel : t.conn.channel_.Closed :=
          h.settled.unregistered (Bool.not_eq_false _ ▸ hclosed)
        exact absurd htakes.2 (by simp [hchannel.isWritingEvent])
      exact length_handlewrite_lt htakes.1 htakes.2 (h.traffic.drains hopen)
    | error e => exact htakes.elim
  | handleClose => exact Nat.le_refl _
  | connectDestoryed =>
    have hkeeps : t.traffic.conn.connectDestoryed.outputBuffer_ = t.traffic.conn.outputBuffer_ := by
      rw [TcpConnection.connectDestoryed]
      split_ifs <;> rfl
    exact Nat.le_of_eq (congrArg List.length hkeeps)

/-- After every run of a connection of the echo server whose events fit, in every continuation in
which the socket has room at each write event: there are at most as many write events as there are
bytes, those that wait at its start and those that arrive. Whenever the channel of the open
connection asks for no write event, all bytes that arrived have been sent back. -/
theorem writes_le_of_run (h : Reaches (ofStep (step fresh)) Fits start t) {as : List Event}
    (hrun : run (step fresh) (fun u a => Fits u a ∧ Takes u a) t as = some t') :
    as.countP Event.isWrite ≤
        t.conn.outputBuffer_.readableBytes + (as.map fun a => a.data.length).sum ∧
      (t'.closed = false → t'.conn.channel_.isWritingEvent = false →
        t'.conn.written = t'.received) := by
  have hechoes := echoes_of_reaches h
  have hstep (u : BufferedTraffic) (a : Event) (v : BufferedTraffic) (hu : Echoes u)
      (ha : Fits u a ∧ Takes u a) (hs : step fresh u a = some v) :=
    And.intro (hu.step ha.1 hs).1 (hu.length_step ha.1 ha.2 hs)
  have hcount := count_le_sum_of_run hstep hechoes hrun
  have hechoes' : Echoes t' :=
    (Reaches.of_run as hrun).invariant hechoes fun u a v hu ha hs => (hstep u a v hu ha hs).1
  refine ⟨?_, fun hopen hwriting => ?_⟩
  · rw [hechoes.inv.output.readableBytes_eq_length]
    omega
  · have hempty : t'.conn.outputBuffer_.readable = [] := by
      by_contra hne
      have hon : t'.conn.channel_.isWritingEvent = true := (hechoes'.traffic.drains hopen).mpr hne
      cases hwriting.symm.trans hon
    have hstream : t'.conn.written ++ t'.conn.outputBuffer_.readable = t'.messages.flatten :=
      hechoes'.traffic.stream
    rw [hempty, List.append_nil, hechoes'.messages] at hstream
    exact hstream

theorem writes_le_of_run_two_chunks : ∃ t : BufferedTraffic, t.received.length = 1300 ∧
    t.conn.written = t.received := by
  obtain ⟨t, hrun, hP⟩ := (Option.any_eq_true _ _).mp
    (by decide +kernel : (run (step fun _ => 0) (fun u a => Fits u a ∧ Takes u a) start
      (twoChunks.take 4)).any fun t => t.received.length = 1300 ∧ t.closed = false ∧
        t.conn.channel_.isWritingEvent = false)
  obtain ⟨hreceived, hopen, hwriting⟩ := of_decide_eq_true hP
  exact ⟨t, hreceived, (writes_le_of_run (Reaches.refl start) hrun).2 hopen hwriting⟩

end EchoServer

end TinyMuduo
