import TinyMuduo.Connection.Lifecycle

/-!
# Disconnected connections

A connection that has gone down is expected to stay down. `kDisconnected` is not final in the code:
`shutdown` tests `state_` and stores `kDisconnecting` in two steps, so that a `handleClose` in
between is overwritten, and `sendInLoop` registers the channel again for bytes that remain.

## Main definitions

* `ServerConnection.inert`, `ServerConnection.StaysDisconnected`: the steps that leave a
  disconnected connection alone.

## Main results

* `ServerConnection.disconnected_terminal`: in the runs of such steps `kDisconnected` is final.
-/

namespace TinyMuduo

/-- A call of `write` on the socket. -/
def Event.isWrite : Event → Bool
  | write _ _ => true
  | _ => false

namespace ServerConnection

variable {T P : Type*}

/-- The next step of the thread of the loop is `handleClose`, where `n` is the result of the
`readFd` of `handleRead`. -/
def handlesClose (s : ServerConnection T P) (n : ReadResult) : Bool :=
  match s.phase with
  | .handleEvent (.closecallback_ :: _) => true
  | .handleEvent (.readcallback_ :: _) => n == .zero
  | _ => false

/-- The next step of the thread of the loop has no effect on a disconnected connection: it is not
the store of `shutdown`, and not `sendInLoop`, unless its message is empty while bytes wait. -/
def inert (s : ServerConnection T P) : Bool :=
  match s.task with
  | some .setDisconnecting => false
  | some (.sendInLoop m) => m.held.isEmpty && !s.conn.outputBuffer_.isEmpty
  | _ => true

/-- `handleClose` runs while the channel is registered; and when the connection is disconnected,
`shutdown` does not store `kDisconnecting`, and `sendInLoop` has nothing to do. -/
def StaysDisconnected [DecidableEq P] (s : ServerConnection T P) : Action T P → Prop
  | .callback n _ => s.handlesClose n = true → s.conn.channel_.index_ = .KAdded
  | .task _ => s.disconnected = true → s.inert = true
  | .proceed t => s.disconnected = true → s.calls t ≠ some .setDisconnecting
  | _ => True

instance [DecidableEq P] (s : ServerConnection T P) :
    (a : Action T P) → Decidable (s.StaysDisconnected a)
  | .callback n _ =>
    inferInstanceAs (Decidable (s.handlesClose n = true → s.conn.channel_.index_ = .KAdded))
  | .task _ => inferInstanceAs (Decidable (s.disconnected = true → s.inert = true))
  | .proceed t =>
    inferInstanceAs (Decidable (s.disconnected = true → s.calls t ≠ some .setDisconnecting))
  | .poll _ | .handleEvent | .handleOther | .swap | .functor | .resume | .send _ _ _ | .shutdown _
  | .queueInLoop | .modify _ _ | .removeConnectionInLoop | .destroyServer => .isTrue trivial

variable [DecidableEq T] [DecidableEq P] {s s' : ServerConnection T P} {a : Action T P}

/-- A connection that is disconnected is in the state `kDisconnected`, with its channel closed. -/
def Terminal (s : ServerConnection T P) : Prop :=
  s.disconnected = true → s.conn.state_ = .kDisconnected ∧ s.conn.channel_.Closed

omit [DecidableEq T] [DecidableEq P] in
private theorem sendInLoop_of_inert (hinert : s.inert = true) {m : Message P}
    (htask : s.task = some (.sendInLoop m)) (r : WriteResult) :
    s.conn.writesDirectly = false ∧ (s.conn.sendInLoop (m.read s.mem) r).1 = s.conn := by
  simp only [inert, htask, Bool.and_eq_true, List.isEmpty_iff, Bool.not_eq_eq_eq_not, Bool.not_true,
    List.isEmpty_eq_false_iff] at hinert
  simpa [Message.read, bytesAt, hinert.1] using
    TcpConnection.sendInLoop_nil_of_buffered hinert.2 r

/-- What a step leaves as it was: the state, the output buffer, the calls of `write`, and the
channel out of the interest set. -/
structure Unchanged (s s' : ServerConnection T P) : Prop where
  disconnected : s'.disconnected = true
  state : s'.conn.state_ = s.conn.state_
  outputBuffer : s'.conn.outputBuffer_ = s.conn.outputBuffer_
  writes : s'.trace.filter Event.isWrite = s.trace.filter Event.isWrite
  closed : s'.conn.channel_.Closed

omit [DecidableEq T] [DecidableEq P] in
theorem Unchanged.trans {s'' : ServerConnection T P} (h : Unchanged s s')
    (h' : Unchanged s' s'') : Unchanged s s'' :=
  ⟨h'.disconnected, h'.state.trans h.state, h'.outputBuffer.trans h.outputBuffer,
    h'.writes.trans h.writes, h'.closed⟩

private theorem unchanged_of_moves (hd : s.disconnected = true) (hclosed : s.conn.channel_.Closed)
    (hr : s.Running) (hc : s.StaysDisconnected a) (hm : Moves s a s') : Unchanged s s' := by
  have hd' : s'.disconnected = true := by
    by_contra hleft
    exact absurd (disconnected_of_moves hm (Bool.eq_false_of_not_eq_true hleft)) (by simp [hd])
  cases hm with
  | handleClose hphase _ _ hclose =>
    have hadded := hc (by rcases hclose with rfl | ⟨rfl, rfl⟩ <;> simp [handlesClose, hphase])
    exact absurd hadded hclosed.not_added
  | disconnect htask =>
    have hleft := (hr.disconnecting htask).1
    simp [hd] at hleft
  | handlewrite =>
    have hwriting := hclosed.isWritingEvent
    have hout := TcpConnection.handlewriteOut_of_closed hclosed
    exact ⟨hd', by simp, by simp [hout], by simp [hwriting], by simpa [hout] using hclosed⟩
  | @sendInLoop r m htask =>
    obtain ⟨hdirect, hconn⟩ := sendInLoop_of_inert (hc hd) htask r
    exact ⟨hd', by simp, by simp [hconn], by simp [hdirect, Event.isWrite],
      by simpa [hconn] using hclosed⟩
  | connectEstablished htask => exact absurd htask hr.started.task
  | setDisconnecting hcall => exact absurd hcall (hc hd)
  | setDisconnectingOnLoop htask =>
    have hinert := hc hd
    simp [inert, htask] at hinert
  | removeChannel => exact ⟨hd', rfl, rfl, by simp [Event.isWrite], hclosed.remove⟩
  | _ => exact ⟨hd', by simp, by simp, by simp [Event.isWrite], by simpa using hclosed⟩

private theorem terminal_of_moves (hleft : s.disconnected = false) (hr : s.Running)
    (hc : s.StaysDisconnected a) (hm : Moves s a s') : s'.Terminal := by
  intro hd'
  cases hm with
  | handleClose hphase _ _ hclose =>
    have hadded := hc (by rcases hclose with rfl | ⟨rfl, rfl⟩ <;> simp [handlesClose, hphase])
    exact ⟨rfl, Registration.closed_disableAll hadded⟩
  | disconnect htask =>
    have hreading := hr.reading hleft (hr.disconnecting htask).2.2
    exact ⟨rfl, Registration.closed_disableAll hreading.added⟩
  | _ => simp_all [disconnected]

theorem Terminal.moves (h : s.Terminal) (hr : s.Running) (hc : s.StaysDisconnected a)
    (hm : Moves s a s') : s'.Terminal := by
  cases hd : s.disconnected with
  | false => exact terminal_of_moves hd hr hc hm
  | true =>
    obtain ⟨hstate, hclosed⟩ := h hd
    have hunchanged := unchanged_of_moves hd hclosed hr hc hm
    exact fun _ => ⟨hunchanged.state.trans hstate, hunchanged.closed⟩

omit [DecidableEq T] [DecidableEq P] in
theorem Fresh.disconnected (h : s.Fresh) : s.disconnected = false := by
  simp [ServerConnection.disconnected, h.trace]

/-- The invariant of the runs in which `kDisconnected` is terminal. -/
def TerminalLife (s : ServerConnection T P) : Prop := s.Fresh ∨ s.Running ∧ s.Terminal

theorem TerminalLife.moves (h : s.TerminalLife) (hc : s.StaysDisconnected a) (hm : Moves s a s') :
    s'.TerminalLife := by
  rcases h with hfresh | ⟨hr, ht⟩
  · rcases hfresh.moves hm with hfresh' | ⟨htask, rfl⟩
    · exact .inl hfresh'
    · refine .inr ⟨hfresh.running htask, fun hd => absurd hd ?_⟩
      simp [ServerConnection.disconnected, hfresh.trace]
  · exact .inr ⟨hr.moves hm, ht.moves hr hc hm⟩

/-- In every run in which `handleClose` runs on a registered channel and, after the connection is
disconnected, `shutdown` does not store `kDisconnecting` and `sendInLoop` has nothing to do: once
`kDisconnected` is stored, no later step changes `state_`, writes to the socket, appends to the
output buffer, or registers the channel again. -/
theorem disconnected_terminal {writeCompleteCallback highWaterMarkCallback : Bool}
    {highWaterMark : ℕ} {mem : P → ℕ → UInt8} {sameLoop : Bool}
    (h : Transition.Reaches (Transition.ofStep step) StaysDisconnected
      (init (T := T) (.init writeCompleteCallback highWaterMarkCallback highWaterMark) mem sameLoop)
      s) (hd : s.disconnected = true)
    (h' : Transition.Reaches (Transition.ofStep step) StaysDisconnected s s') :
    s'.conn.state_ = .kDisconnected ∧ s'.conn.outputBuffer_ = s.conn.outputBuffer_ ∧
      s'.trace.filter Event.isWrite = s.trace.filter Event.isWrite ∧
      s'.conn.channel_.interest = none := by
  have hlife : s.TerminalLife := h.invariant (.inl (fresh_init ..))
    fun _ _ _ hl hc hstep => hl.moves hc (moves_of_step hstep)
  obtain ⟨hr, ht⟩ : s.Running ∧ s.Terminal := by
    rcases hlife with hfresh | hlife
    · simp [hfresh.disconnected] at hd
    · exact hlife
  obtain ⟨hstate, hclosed⟩ := ht hd
  have hinv : s'.Running ∧ Unchanged s s' :=
    h'.invariant (I := fun u => u.Running ∧ Unchanged s u) ⟨hr, hd, rfl, rfl, rfl, hclosed⟩
      fun _ _ _ ⟨hr, hu⟩ hc hstep =>
        have hm := moves_of_step hstep
        ⟨hr.moves hm, hu.trans (unchanged_of_moves hu.disconnected hu.closed hr hc hm)⟩
  exact ⟨hinv.2.state.trans hstate, hinv.2.outputBuffer, hinv.2.writes, hinv.2.closed.interest⟩

/-- The peer closes while another thread is about to queue the functor of `shutdown`. -/
theorem disconnected_terminal_of_peer_close :
    ∃ s s' : ServerConnection Unit Unit, s.disconnected = true ∧ .shutdownwrite ∈ s'.trace ∧
      s'.conn.state_ = .kDisconnected ∧
      s'.trace.filter Event.isWrite = s.trace.filter Event.isWrite := by
  let s₀ : ServerConnection Unit Unit := init (.init false false 64) (fun _ _ => 7) false
  let closing : List (Action Unit Unit) := [.task (.room 0), .resume, .resume,
    .callback .zero (.room 0), .proceed (), .swap, .functor, .task (.room 0)]
  obtain ⟨s, hreach, hd, hclosing⟩ := Transition.Reaches.exists_of_run (C := StaysDisconnected)
    (s := s₀) (P := fun s => s.disconnected = true ∧
      (Transition.run step StaysDisconnected s closing).any (fun s' => .shutdownwrite ∈ s'.trace))
    step
    (establish.append [.shutdown (some ()), .proceed (), .poll (some EPOLLIN), .handleEvent,
      .callback .zero (.room 0)]) (by decide +kernel)
  obtain ⟨s', hreach', hmem⟩ := Transition.Reaches.exists_of_run step closing hclosing
  have hterminal := disconnected_terminal hreach hd hreach'
  exact ⟨s, s', hd, hmem, hterminal.1, hterminal.2.2.1⟩

/-- The peer closes while a message is queued and another thread is between the load and the store
of `shutdown`: `state_` changes, and the functor writes to the socket, appends to the output buffer
and registers the channel again. -/
theorem exists_reaches_not_terminal :
    ∃ s s' : ServerConnection Unit Unit,
      Transition.Reaches (Transition.ofStep step) Transition.anyLabel
        (init (.init false false 64) (fun _ _ => 7) false) s ∧
      Transition.Reaches (Transition.ofStep step) Transition.anyLabel s s' ∧
      s.disconnected = true ∧ s.conn.state_ = .kDisconnected ∧ s.conn.outputBuffer_ = [] ∧
      s.conn.channel_.interest = none ∧ s'.conn.state_ = .kDisconnecting ∧
      .write [] (some .EWOULDBLOCK) ∈ s'.trace ∧ s'.conn.outputBuffer_ = [7] ∧
      s'.conn.channel_.interest = some EPOLLOUT := by
  let running : List (Action Unit Unit) := [.task (.room 0), .resume, .resume,
    .callback .zero (.room 0), .proceed (), .swap, .functor, .task (.error .EWOULDBLOCK .other)]
  obtain ⟨s, hreach, hd, hstate, hbuffer, hinterest, hrunning⟩ :=
    Transition.Reaches.exists_of_run (C := Transition.anyLabel)
    (s := (init (.init false false 64) (fun _ _ => 7) false : ServerConnection Unit Unit))
    (P := fun s => s.disconnected = true ∧ s.conn.state_ = .kDisconnected ∧
      s.conn.outputBuffer_ = [] ∧ s.conn.channel_.interest = none ∧
      (Transition.run step Transition.anyLabel s running).any
        (fun s' => s'.conn.state_ = .kDisconnecting ∧
          .write [] (some .EWOULDBLOCK) ∈ s'.trace ∧ s'.conn.outputBuffer_ = [7] ∧
          s'.conn.channel_.interest = some EPOLLOUT)) step
    (establish.append [.send (some ()) () 1, .proceed (), .shutdown (some ()), .poll (some EPOLLIN),
      .handleEvent, .callback .zero (.room 0)]) (by decide +kernel)
  obtain ⟨s', hreach', hterminal⟩ := Transition.Reaches.exists_of_run step running hrunning
  exact ⟨s, s', hreach, hreach', hd, hstate, hbuffer, hinterest, hterminal⟩

end ServerConnection

end TinyMuduo
