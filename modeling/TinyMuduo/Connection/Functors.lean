import TinyMuduo.Connection.ServerConnection

/-!
# The callbacks in the queue of the loop

A connection queues callbacks of the user on its loop: `writeCompleteCallback_`, which it tests
first, and `highWaterMarkCallback_`, which it does not test. `TcpServer::newConnection` passes on
three callbacks of the server and no high-water mark callback. The functor that `sendInLoop` queues
when the output buffer reaches the high-water mark then wraps an empty function, and throws when
`doPendingFunctors` calls it.

## Main definitions

* `TcpConnection.Crosses`: `sendInLoop` finds the output buffer below the high-water mark, and does
  not leave it there.
* `TcpServer.newConnection`: the connections of a server.
* `ServerConnection.Invocable`, `ServerConnection.BelowMark`.

## Main results

* `ServerConnection.invocable_iff_of_moves`: the guard `BelowMark` is exact for every step.
* `ServerConnection.invocable_of_reaches`: in every guarded run all queued functors are invocable.
-/

namespace TinyMuduo

namespace TcpConnection

variable (c : TcpConnection)

/-- What `sendInLoop` leaves takes the output buffer from below the high-water mark to the mark. -/
def Crosses (message : List UInt8) (r : WriteResult) : Prop :=
  c.outputBuffer_.length < c.highWaterMark_ ∧
    c.highWaterMark_ ≤ c.outputBuffer_.length + (c.leaves message r).length

instance (message : List UInt8) (r : WriteResult) : Decidable (c.Crosses message r) :=
  inferInstanceAs (Decidable (_ ∧ _))

private theorem mem_bufferRemaining {remaining : List UInt8} {isSet : Bool} {size : ℕ} :
    .highWaterMark isSet size ∈ (c.bufferRemaining remaining).2 ↔
      (c.outputBuffer_.length < c.highWaterMark_ ∧
        c.highWaterMark_ ≤ c.outputBuffer_.length + remaining.length) ∧
      isSet = c.highWaterMarkCallback_ ∧ size = c.outputBuffer_.length + remaining.length := by
  simp only [bufferRemaining]
  split_ifs with h
  · simp [h.1, h.2]
  · exact iff_of_false List.not_mem_nil fun hc => h hc.1.symm

/-- The functors of a direct write that leaves the mark or more. -/
theorem sendInLoop_snd_of_room {message : List UInt8} {n : ℕ} (hdirect : c.writesDirectly = true)
    (hunset : c.writeCompleteCallback_ = false) (hpos : 0 < c.highWaterMark_)
    (hle : c.highWaterMark_ ≤ message.length - n) : (c.sendInLoop message (.room n)).2 =
      [.highWaterMark c.highWaterMarkCallback_ (message.length - n)] := by
  have hrest : 0 < message.length - n := Nat.lt_of_lt_of_le hpos hle
  simp [sendInLoop, directWrite, bufferRemaining, hdirect, hunset,
    c.outputBuffer_of_writesDirectly hdirect, hle, hpos, hrest]

/-- `sendInLoop` queues the functor of the high-water mark exactly when it crosses the mark. -/
theorem mem_sendInLoop {message : List UInt8} {r : WriteResult} {isSet : Bool} {size : ℕ} :
    .highWaterMark isSet size ∈ (c.sendInLoop message r).2 ↔
      c.Crosses message r ∧ isSet = c.highWaterMarkCallback_ ∧
        size = c.outputBuffer_.length + (c.leaves message r).length := by
  cases hdirect : c.writesDirectly with
  | false =>
    cases message with
    | nil => simp [sendInLoop, leaves, faults, hdirect, Crosses]
    | cons b bs => simp [sendInLoop, leaves, faults, hdirect, mem_bufferRemaining, Crosses]
  | true =>
    cases r with
    | room n =>
      cases hdrop : message.drop n <;>
        simp [sendInLoop, directWrite, leaves, faults, hdirect, hdrop, mem_bufferRemaining, Crosses]
    | error e logged =>
      cases message <;> cases hfault : (WriteResult.error e logged).faultError <;>
        simp [sendInLoop, directWrite_error, leaves, faults, hdirect, hfault, mem_bufferRemaining,
          Crosses]

theorem invocable_sendInLoop_iff (message : List UInt8) (r : WriteResult) :
    (∀ cb ∈ (c.sendInLoop message r).2, cb.invocable = true) ↔
      (c.highWaterMarkCallback_ = true ∨ ¬ c.Crosses message r) := by
  constructor
  · intro h
    by_cases hcrosses : c.Crosses message r
    · exact .inl (h _ (c.mem_sendInLoop.mpr ⟨hcrosses, rfl, rfl⟩))
    · exact .inr hcrosses
  · intro h cb hcb
    cases cb with
    | writeComplete => rfl
    | highWaterMark isSet size =>
      obtain ⟨hcrosses, hset, -⟩ := c.mem_sendInLoop.mp hcb
      exact hset.trans (h.resolve_right (not_not_intro hcrosses))

private theorem invocable_handlewriteOut (r : WriteResult) :
    ∀ cb ∈ (c.handlewriteOut r).2.1, cb.invocable = true := by
  simp only [handlewriteOut]
  split
  · split
    · split_ifs <;> simp [Callback.invocable]
    · simp
  · simp

end TcpConnection

namespace ServerConnection

variable {T P : Type*}

/-- Every functor that waits in the queue of the loop wraps a function. -/
def Invocable (s : ServerConnection T P) : Prop := ∀ f ∈ s.queue.items, f.invocable = true

/-- The thread of the loop runs a `sendInLoop` that crosses the high-water mark while
`highWaterMarkCallback_` is not set. -/
def crossesUnset (s : ServerConnection T P) : Action T P → Bool
  | .task r =>
    match s.task with
    | some (.sendInLoop m) =>
      !s.conn.highWaterMarkCallback_ && decide (s.conn.Crosses (m.read s.mem) r)
    | _ => false
  | _ => false

/-- No `sendInLoop` crosses the high-water mark while `highWaterMarkCallback_` is not set. -/
def BelowMark (s : ServerConnection T P) (a : Action T P) : Prop := s.crossesUnset a = false

instance (s : ServerConnection T P) (a : Action T P) : Decidable (s.BelowMark a) :=
  inferInstanceAs (Decidable (s.crossesUnset a = false))

section Queue

variable {s : ServerConnection T P}

private theorem belowMark_sendInLoop {m : Message P} {r : WriteResult}
    (htask : s.task = some (.sendInLoop m)) : s.BelowMark (.task r) ↔
      (s.conn.highWaterMarkCallback_ = true ∨ ¬ s.conn.Crosses (m.read s.mem) r) := by
  simp [BelowMark, crossesUnset, htask, or_iff_not_imp_left]

private theorem belowMark_task {task : Task P} {r : WriteResult} (htask : s.task = some task)
    (hother : ∀ m, task ≠ .sendInLoop m) : s.BelowMark (.task r) := by
  cases task with
  | sendInLoop m => exact absurd rfl (hother m)
  | _ => simp [BelowMark, crossesUnset, htask]

theorem Invocable.push (h : s.Invocable) {f : Functor P} (hf : f.invocable = true) :
    ∀ g ∈ (s.queue.push f).items, g.invocable = true := by
  intro g hg
  rw [StagedQueue.items_push] at hg
  rcases List.mem_append.mp hg with hg | hg
  · exact h g hg
  · exact List.mem_singleton.mp hg ▸ hf

theorem invocable_pushAll_iff (h : s.Invocable) {cbs : List Callback} :
    (∀ g ∈ (s.queue.pushAll (cbs.map .callback)).items, g.invocable = true) ↔
      ∀ cb ∈ cbs, cb.invocable = true := by
  simp only [StagedQueue.items_pushAll, List.forall_mem_append, List.forall_mem_map]
  exact and_iff_right h

end Queue

section Moves

variable [DecidableEq T] [DecidableEq P] {s s' : ServerConnection T P} {a : Action T P}

/-- Every step keeps the queued functors invocable exactly if it meets the guard. -/
theorem invocable_iff_of_moves (h : s.Invocable) (hm : Moves s a s') :
    s'.Invocable ↔ s.BelowMark a := by
  cases hm with
  | @sendInLoop r m htask =>
    rw [belowMark_sendInLoop htask, ← TcpConnection.invocable_sendInLoop_iff]
    exact invocable_pushAll_iff h
  | @handlewrite n r handlers hphase htask hstack =>
    refine iff_of_true ?_ rfl
    exact (invocable_pushAll_iff h).mpr (s.conn.invocable_handlewriteOut r)
  | swap hphase htask hstack hbatch =>
    refine iff_of_true (fun f hf => h f ?_) rfl
    rwa [← s.queue.items_swap hbatch]
  | functor hphase htask hstack hpop =>
    refine iff_of_true (fun f hf => h f ?_) rfl
    rw [StagedQueue.items_pop hpop]
    exact List.mem_cons_of_mem _ hf
  | queueShutdown hcall => exact iff_of_true (h.push rfl) rfl
  | queueSend hcall => exact iff_of_true (h.push rfl) rfl
  | queueInLoop => exact iff_of_true (h.push rfl) rfl
  | eraseFrom halive hloop => exact iff_of_true (h.push rfl) rfl
  | destroyFrom hmap => exact iff_of_true (h.push rfl) rfl
  | connectEstablished htask => exact iff_of_true h (belowMark_task htask (by simp))
  | connectDestoryed htask => exact iff_of_true h (belowMark_task htask (by simp))
  | disconnect htask => exact iff_of_true h (belowMark_task htask (by simp))
  | connectionCallback htask => exact iff_of_true h (belowMark_task htask (by simp))
  | eraseOnLoop htask halive => exact iff_of_true h (belowMark_task htask (by simp))
  | setDisconnectingOnLoop htask => exact iff_of_true h (belowMark_task htask (by simp))
  | shutdownInLoop htask => exact iff_of_true h (belowMark_task htask (by simp))
  | shutdownIfDisconnecting htask => exact iff_of_true h (belowMark_task htask (by simp))
  | _ => exact iff_of_true h rfl

end Moves

end ServerConnection

namespace TcpServer

variable {T P : Type*}

/-- `TcpServer::newConnection`: of the callbacks that the connection calls through the queue of its
loop it sets `writeCompleteCallback_`, to that of the server. The mark is that of the constructor of
`TcpConnection`. -/
def newConnection (writeCompleteCallback : Bool) (mem : P → ℕ → UInt8) (sameLoop : Bool) :
    ServerConnection T P :=
  .init (.init writeCompleteCallback false (64 * 1024 * 1024)) mem sameLoop

end TcpServer

namespace ServerConnection

variable {T P : Type*} [DecidableEq T] [DecidableEq P]

/-- In every run of a connection of a server in which no `sendInLoop` crosses the high-water mark
while `highWaterMarkCallback_` is not set, every functor in the queue of the loop is invocable, up
to the one that `doPendingFunctors` calls next. -/
theorem invocable_of_reaches {writeCompleteCallback : Bool} {mem : P → ℕ → UInt8}
    {sameLoop : Bool} {s : ServerConnection T P}
    (h : Transition.Reaches (Transition.ofStep step) BelowMark
      (TcpServer.newConnection writeCompleteCallback mem sameLoop) s) :
    ∀ f ∈ s.queue.items, f.invocable = true := by
  refine h.invariant (I := Invocable) (fun f hf => ?_) fun s a s' hs hc hstep =>
    (invocable_iff_of_moves hs (moves_of_step hstep)).mpr hc
  cases sameLoop with
  | false =>
    obtain rfl : f = .connectEstablished := by
      simpa [TcpServer.newConnection, init, StagedQueue.items] using hf
    rfl
  | true => exact absurd hf (by simp [TcpServer.newConnection, init, StagedQueue.items])

/-- Two sends, of which the first is buffered in part, and a writable event. -/
theorem invocable_of_reaches_drained : ∃ s : ServerConnection Unit Unit,
    s.queue.items = [.callback .writeComplete] ∧ s.conn.written = [7, 7, 7] ∧
      ∀ f ∈ s.queue.items, f.invocable = true := by
  obtain ⟨s, hreach, hitems, hwritten⟩ := Transition.Reaches.exists_of_run (C := BelowMark)
    (s := (TcpServer.newConnection true (fun _ _ => 7) true : ServerConnection Unit Unit))
    (P := fun s => s.queue.items = [.callback .writeComplete] ∧ s.conn.written = [7, 7, 7]) step
    [.task (.room 0), .task (.room 0), .send none () 2, .task (.room 1), .send none () 1,
      .task (.room 0), .resume, .resume, .swap, .functor, .poll (some EPOLLOUT), .handleEvent,
      .callback .zero (.room 5)] (by decide +kernel)
  exact ⟨s, hitems, hwritten, invocable_of_reaches hreach⟩

/-- The code of the user that `connectionCallback_` called returns, and the loop goes on to
`doPendingFunctors`. -/
theorem exists_functors {s : ServerConnection T P} (htask : s.task = none)
    (hstack : s.stack = [.userCode, .established]) (hphase : s.phase = .events none)
    (hbatch : s.queue.batch = []) :
    ∃ s', Transition.Reaches (Transition.ofStep step) Transition.anyLabel s s' ∧
      s'.phase = .functors ∧ s'.idle = true ∧ s'.queue = s.queue.swap := by
  refine ⟨{ s with
      stack := []
      trace := s.trace ++ [.established]
      phase := .functors
      queue := s.queue.swap }, .of_run [.resume, .resume, .swap] ?_, rfl, ?_, rfl⟩
  · simp [Transition.run, Transition.anyLabel, step, resume, swap, idle, htask, hstack, hphase,
      hbatch]
  · simp [idle, htask]

/-- A first send of which the socket leaves 64 MiB or more: the functor that `doPendingFunctors`
calls next wraps no function. -/
theorem exists_not_invocable_of_le {n k : ℕ} (hn : 64 * 1024 * 1024 + k ≤ n) :
    ∃ s : ServerConnection Unit Unit,
      Transition.Reaches (Transition.ofStep step) Transition.anyLabel
        (TcpServer.newConnection false (fun _ _ => 0) true) s ∧
      s.phase = .functors ∧ s.idle = true ∧
        ∃ f q, s.queue.pop = some (f, q) ∧ f.invocable = false := by
  let m : Message Unit := ⟨(), bytesAt (fun _ _ => 0) () n⟩
  obtain ⟨s, hreach, htask, hstack, hphase, hqueue, hconn⟩ : ∃ s : ServerConnection Unit Unit,
      Transition.Reaches (Transition.ofStep step) Transition.anyLabel
        (TcpServer.newConnection false (fun _ _ => 0) true) s ∧
      s.task = some (.sendInLoop m) ∧ s.stack = [.userCode, .established] ∧
      s.phase = .events none ∧ s.queue = ⟨[], []⟩ ∧
      s.conn = (TcpConnection.init false false (64 * 1024 * 1024)).connectEstablished :=
    ⟨_, .of_run [.task (.room 0), .task (.room 0), .send none () n] rfl, rfl, rfl, rfl, rfl, rfl⟩
  have hsent : s.step (.task (.room k)) = some (s.sendInLoop m (.room k)) := by
    rw [step, htask]
    rfl
  have hlen : (m.read s.mem).length = n := by simp [Message.read, bytesAt, m]
  have hqueued : (s.conn.sendInLoop (m.read s.mem) (.room k)).2 =
      [.highWaterMark false (n - k)] := by
    have hle : 64 * 1024 * 1024 ≤ (m.read s.mem).length - k := by omega
    rw [hconn, TcpConnection.sendInLoop_snd_of_room _ rfl rfl (Nat.succ_pos _) hle, hlen]
    rfl
  obtain ⟨s', hreach', hphase', hidle', hqueue'⟩ :=
    exists_functors (s := s.sendInLoop m (.room k)) rfl hstack hphase
      (by simp [hqueue, StagedQueue.pushAll])
  refine ⟨s', (hreach.snoc trivial hsent).trans hreach', hphase', hidle',
    .callback (.highWaterMark false (n - k)), ⟨[], []⟩, ?_, rfl⟩
  rw [hqueue']
  simp only [sendInLoop, queueCallbacks, hqueued, hqueue]
  rfl

/-- A connection of a server may queue an empty function, and call it. -/
theorem exists_not_invocable : ∃ s : ServerConnection Unit Unit,
    Transition.Reaches (Transition.ofStep step) Transition.anyLabel
      (TcpServer.newConnection false (fun _ _ => 0) true) s ∧
    s.phase = .functors ∧ s.idle = true ∧
      ∃ f q, s.queue.pop = some (f, q) ∧ f.invocable = false :=
  exists_not_invocable_of_le (n := 64 * 1024 * 1024 + 64 * 1024) le_rfl

end ServerConnection

end TinyMuduo
