import TinyMuduo.Connection.ServerConnection

/-!
# The life of a connection

`TcpServer::newConnection` hands `connectEstablished` to the loop of the connection. Until it runs,
the channel is not registered, no thread knows of the connection and no callback has been called
(`ServerConnection.Fresh`). It runs once, and from then on the states of the connection, the channel
and the functions that have begun go together (`ServerConnection.Running`), whatever the threads do.

## Main definitions

* `ServerConnection.Fresh`: `connectEstablished` is still to run.
* `ServerConnection.Running`: the invariant of a connection that was established.
* `ServerConnection.Life`: the connection is one or the other.

## Main results

* `ServerConnection.Life.moves`: every step keeps the invariant.
-/

namespace TinyMuduo

namespace ServerConnection

variable {T P : Type*} [DecidableEq T] [DecidableEq P] {s s' : ServerConnection T P}
  {a : Action T P}

/-- The log only grows. -/
theorem exists_trace_append (hm : Moves s a s') : ∃ new, s'.trace = s.trace ++ new := by
  cases hm <;> simp

theorem mem_trace_of_moves (hm : Moves s a s') {e : Event} (he : e ∈ s.trace) : e ∈ s'.trace := by
  obtain ⟨new, hnew⟩ := exists_trace_append hm
  exact hnew ▸ List.mem_append_left new he

private theorem published_of_moves (hm : Moves s a s') (h : s.published = true) :
    s'.published = true := by
  simp only [published, List.contains_eq_mem, Bool.or_eq_true, decide_eq_true_eq] at h ⊢
  exact h.imp (mem_trace_of_moves hm) (mem_trace_of_moves hm)

/-- A connection stays disconnected. -/
theorem disconnected_of_moves (hm : Moves s a s') (hleft : s'.disconnected = false) :
    s.disconnected = false := by
  rw [← Bool.not_eq_true, disconnected_iff] at hleft ⊢
  exact fun hd => hleft (hd.imp (mem_trace_of_moves hm) (mem_trace_of_moves hm))

/-- The connection keeps its state, or begins to close, or is disconnected, if it does not start. -/
theorem stage_of_moves (hm : Moves s a s') (hstart : s.task ≠ some .connectEstablished) :
    s'.conn.state_ = s.conn.state_ ∧ s'.disconnected = s.disconnected ∨
      s'.conn.state_ = .kDisconnecting ∨
      s'.conn.state_ = .kDisconnected ∧ s'.disconnected = true := by
  cases hm with
  | connectEstablished htask => exact absurd htask hstart
  | setDisconnecting | setDisconnectingOnLoop => exact .inr (.inl rfl)
  | handleClose | disconnect => exact .inr (.inr ⟨rfl, by simp [disconnected]⟩)
  | _ => left; constructor <;> simp [disconnected]

/-- A state from before the closing is not entered again. -/
theorem state_ne_of_moves (hm : Moves s a s') (hstart : s.task ≠ some .connectEstablished)
    {state : StateE} (hopen : state = .kConnecting ∨ state = .kConnected)
    (hs : s.conn.state_ ≠ state) : s'.conn.state_ ≠ state := by
  rcases stage_of_moves hm hstart with ⟨hstate, -⟩ | hstate | ⟨hstate, -⟩
  · exact hstate ▸ hs
  · rcases hopen with rfl | rfl <;> simp [hstate]
  · rcases hopen with rfl | rfl <;> simp [hstate]

/-- Only a thread that knows of the connection starts a call. -/
theorem published_of_calls (hm : Moves s a s') (h : ∀ t, s.calls t ≠ none → s.published = true)
    {t : T} (ht : s'.calls t ≠ none) : s'.published = true := by
  refine published_of_moves hm ?_
  cases hm with
  | sendFrom hmay | shutdownFrom hmay => exact (mayCall_some.mp hmay).1
  | setDisconnecting hcall | queueShutdown hcall | queueSend hcall =>
    exact h _ (ne_of_eq_of_ne hcall (Option.some_ne_none _))
  | _ => exact h t ht

/-- Before `connectEstablished` runs: it is next, or the first functor in the queue of another
loop. -/
def Starting (s : ServerConnection T P) : Prop :=
  s.task = some .connectEstablished ∧ s.stack = [] ∧ .connectEstablished ∉ s.queue.items ∨
    s.sameLoop = false ∧ s.task = none ∧ (s.stack = [] ∨ s.stack = [.userCode]) ∧
      ∃ rest, s.queue.items = .connectEstablished :: rest ∧ .connectEstablished ∉ rest

omit [DecidableEq T] [DecidableEq P] in
theorem Starting.queueInLoop (h : s.Starting) {f : Functor P} (hf : f ≠ .connectEstablished) :
    (s.queueInLoop f).Starting := by
  rcases h with ⟨htask, hstack, hitems⟩ | ⟨hloop, htask, hstack, rest, hitems, hrest⟩
  · exact .inl ⟨htask, hstack, by simp [hitems, hf.symm]⟩
  · exact .inr ⟨hloop, htask, hstack, rest ++ [f], by simp [hitems], by simp [hrest, hf.symm]⟩

/-- Before `connectEstablished` runs nothing has happened to the connection. -/
structure Fresh (s : ServerConnection T P) : Prop where
  trace : s.trace = []
  state : s.conn.state_ = .kConnecting
  channel : s.conn.channel_ = Registration.init
  calls : ∀ t, s.calls t = none
  events : ∀ m, s.phase ≠ .events (some m)
  handlers : ∀ hs, s.phase ≠ .handleEvent hs
  baseLoop : s.baseLoop = 0
  starting : s.Starting

omit [DecidableEq T] [DecidableEq P] in
/-- The thread of the loop runs nothing else of the connection. -/
theorem Fresh.task_eq (h : s.Fresh) {task : Task P} (htask : s.task = some task) :
    task = .connectEstablished := by
  rcases h.starting with ⟨hstart, -⟩ | ⟨-, hnone, -⟩
  · exact Option.some.inj (htask.symm.trans hstart)
  · cases htask.symm.trans hnone

omit [DecidableEq T] [DecidableEq P] in
theorem Fresh.frame_eq (h : s.Fresh) {f : Frame} {stack : List Frame}
    (hstack : s.stack = f :: stack) : f = .userCode := by
  rcases h.starting with ⟨-, hnil, -⟩ | ⟨-, -, hnil | hcons, -⟩
  · cases hstack.symm.trans hnil
  · cases hstack.symm.trans hnil
  · exact (List.cons.inj (hstack.symm.trans hcons)).1

omit [DecidableEq T] [DecidableEq P] in
/-- With nothing of the connection to run, `connectEstablished` waits in the queue. -/
theorem Fresh.queued (h : s.Fresh) (htask : s.task = none) :
    s.sameLoop = false ∧ ∃ rest, s.queue.items = .connectEstablished :: rest ∧
      .connectEstablished ∉ rest := by
  rcases h.starting with ⟨hstart, -⟩ | ⟨hloop, -, -, hqueue⟩
  · cases htask.symm.trans hstart
  · exact ⟨hloop, hqueue⟩

/-- Nothing happens to the connection until `connectEstablished` runs. -/
theorem Fresh.moves (h : s.Fresh) (hm : Moves s a s') :
    s'.Fresh ∨ s.task = some .connectEstablished ∧ s' = s.connectEstablished := by
  have ⟨htrace, hstate, hchannel, hcalls, hevents, hhandlers, hbase, hstarting⟩ := h
  cases hm with
  | connectEstablished htask => exact .inr ⟨htask, rfl⟩
  | poll hphase htask hstack hreport =>
    refine .inl ⟨htrace, hstate, hchannel, hcalls, fun m hm => ?_, by simp, hbase, hstarting⟩
    simpa [mayReport, hchannel, Registration.init] using hreport m (by simpa using hm)
  | handleOther hphase htask hstack =>
    obtain ⟨hloop, hqueue⟩ := h.queued htask
    exact .inl ⟨htrace, hstate, hchannel, hcalls, hevents, hhandlers, hbase,
      .inr ⟨hloop, htask, .inr rfl, hqueue⟩⟩
  | swap hphase htask hstack hbatch =>
    refine .inl ⟨htrace, hstate, hchannel, hcalls, by simp, by simp, hbase, ?_⟩
    simpa [Starting, StagedQueue.items_swap _ hbatch] using hstarting
  | functor hphase htask hstack hpop =>
    obtain ⟨-, rest, hitems, hrest⟩ := h.queued htask
    obtain ⟨rfl, rfl⟩ := List.cons.inj ((StagedQueue.items_pop hpop).symm.trans hitems)
    exact .inl ⟨htrace, hstate, hchannel, hcalls, hevents, hhandlers, hbase,
      .inl ⟨rfl, rfl, hrest⟩⟩
  | functors hphase htask hstack =>
    exact .inl ⟨htrace, hstate, hchannel, hcalls, by simp, by simp, hbase, hstarting⟩
  | userCode htask hstack =>
    obtain ⟨hloop, hqueue⟩ := h.queued htask
    refine .inl ⟨htrace, hstate, hchannel, hcalls, hevents, hhandlers, hbase,
      .inr ⟨hloop, htask, .inl ?_, hqueue⟩⟩
    rcases hstarting with ⟨-, hnil, -⟩ | ⟨-, -, hnil | hcons, -⟩
    · cases hstack.symm.trans hnil
    · cases hstack.symm.trans hnil
    · exact (List.cons.inj (hstack.symm.trans hcons)).2
  | queueInLoop =>
    exact .inl ⟨htrace, hstate, hchannel, hcalls, hevents, hhandlers, hbase,
      hstarting.queueInLoop (by simp)⟩
  | destroyFrom =>
    exact .inl ⟨htrace, hstate, hchannel, hcalls, hevents, hhandlers, hbase,
      hstarting.queueInLoop (by simp)⟩
  | sendRefused | shutdownRefused => exact .inl h
  | modify | destroyUnmapped =>
    exact .inl ⟨htrace, hstate, hchannel, hcalls, hevents, hhandlers, hbase, hstarting⟩
  | handleEvent hphase => exact absurd hphase (hevents _)
  | handled hphase | handleClose hphase | handleError hphase | messageCallback hphase
  | handlewrite hphase => exact absurd hphase (hhandlers _)
  | connectDestoryed htask | disconnect htask | connectionCallback htask | eraseOnLoop htask
  | sendInLoop htask | setDisconnectingOnLoop htask | shutdownInLoop htask
  | shutdownIfDisconnecting htask => cases h.task_eq htask
  | established htask hstack | closeOnLoop htask hstack | closeFrom htask hstack
  | removeChannel htask hstack => cases h.frame_eq hstack
  | sendOnLoop hmay hconnected | sendFrom hmay hconnected | shutdownOnLoop hmay hconnected
  | shutdownFrom hmay hconnected => cases hstate.symm.trans hconnected
  | setDisconnecting hcall | queueShutdown hcall | queueSend hcall =>
    cases (hcalls _).symm.trans hcall
  | eraseFrom halive hloop => exact absurd hbase hloop.ne'
  | destroyOnLoop hmap hloop htask => cases hloop.symm.trans (h.queued htask).1

/-- `connectEstablished` does not run again. -/
structure Started (s : ServerConnection T P) : Prop where
  task : s.task ≠ some .connectEstablished
  items : .connectEstablished ∉ s.queue.items
  state : s.conn.state_ ≠ .kConnecting

theorem Started.moves (h : s.Started) (hm : Moves s a s') : s'.Started := by
  obtain ⟨htask, hitems, hstate⟩ := h
  have hstate' := state_ne_of_moves hm htask (.inl rfl) hstate
  cases hm with
  | swap hphase htask' hstack hbatch =>
    exact ⟨htask, by rwa [StagedQueue.items_swap _ hbatch], hstate'⟩
  | functor hphase htask' hstack hpop =>
    rw [StagedQueue.items_pop hpop, List.mem_cons, not_or] at hitems
    exact ⟨by simpa using fun heq => hitems.1 heq.symm, hitems.2, hstate'⟩
  | connectEstablished hstart => exact absurd hstart htask
  | _ => exact ⟨by first | exact htask | simp, by simpa using hitems, hstate'⟩

/-- What holds of the connection once `connectEstablished` has run. -/
structure Running (s : ServerConnection T P) : Prop where
  started : s.Started
  left : s.disconnected = true → s.conn.state_ ≠ .kConnected
  stored : s.conn.state_ = .kDisconnected → s.disconnected = true
  disconnecting : s.task = some .disconnect →
    s.disconnected = false ∧ .removeChannel ∈ s.stack ∧ .destroyed ∉ s.trace
  removing : .removeChannel ∈ s.stack → .connectDestoryed ∈ s.trace ∧
    (s.task = some .disconnect ∨ s.conn.state_ ≠ .kConnected)
  destroyed : .destroyed ∈ s.trace → .connectDestoryed ∈ s.trace ∧ s.conn.state_ ≠ .kConnected
  disconnect : .disconnect ∈ s.trace → .connectDestoryed ∈ s.trace
  returning : .connectDestoryed ∈ s.trace → .removeChannel ∈ s.stack ∨ .destroyed ∈ s.trace
  reading : s.disconnected = false → .destroyed ∉ s.trace → s.conn.channel_.Reading
  established : .established ∈ s.trace ∨ .established ∈ s.stack
  handling : (∃ m, s.phase = .events (some m)) ∨ (∃ h hs, s.phase = .handleEvent (h :: hs)) →
    .established ∈ s.trace

omit [DecidableEq T] [DecidableEq P] in
theorem Fresh.stack_items (h : s.Fresh) (htask : s.task = some .connectEstablished) :
    s.stack = [] ∧ .connectEstablished ∉ s.queue.items := by
  rcases h.starting with ⟨-, hstack, hitems⟩ | ⟨-, htask', -⟩
  · exact ⟨hstack, hitems⟩
  · simp [htask] at htask'

omit [DecidableEq T] [DecidableEq P] in
theorem Fresh.running (h : s.Fresh) (htask : s.task = some .connectEstablished) :
    s.connectEstablished.Running := by
  obtain ⟨hstack, hitems⟩ := h.stack_items htask
  obtain ⟨htrace, hstate, hchannel, hcalls, hevents, hhandlers, hbase, hstarting⟩ := h
  have hreading : s.conn.channel_.enableReading.Reading :=
    Registration.reading_enableReading (by rw [hchannel]; rfl)
  constructor <;> simp_all [disconnected]
  exact ⟨by simp, hitems, by simp⟩

namespace Running

section Fields

variable (h : s.Running) (hm : Moves s a s')
include h hm

private theorem moves_left : s'.disconnected = true → s'.conn.state_ ≠ .kConnected := by
  intro hd
  rcases stage_of_moves hm h.started.task with ⟨hstate, hsame⟩ | hstate | ⟨hstate, -⟩
  · exact hstate ▸ h.left (hsame ▸ hd)
  · simp [hstate]
  · simp [hstate]

private theorem moves_stored : s'.conn.state_ = .kDisconnected → s'.disconnected = true := by
  intro hstored
  rcases stage_of_moves hm h.started.task with ⟨hstate, hsame⟩ | hstate | ⟨-, hd⟩
  · exact hsame.trans (h.stored (hstate.symm.trans hstored))
  · cases hstate.symm.trans hstored
  · exact hd

private theorem moves_disconnecting : s'.task = some .disconnect →
    s'.disconnected = false ∧ .removeChannel ∈ s'.stack ∧ .destroyed ∉ s'.trace := by
  intro hdisconnect
  cases hm with
  | connectDestoryed htask =>
    have hstate : s.conn.state_ = .kConnected := by
      by_contra hstate
      simp [hstate] at hdisconnect
    have hleft : ¬ s.disconnected = true := fun hd => h.left hd hstate
    exact ⟨by simpa [disconnected] using hleft, by simp,
      by simpa using fun hd => (h.destroyed hd).2 hstate⟩
  | sendFrom hmay hstate | eraseFrom halive hloop =>
    simpa [disconnected] using h.disconnecting hdisconnect
  | sendRefused hstate | shutdownRefused hstate | shutdownFrom hmay hstate
  | setDisconnecting hcall | queueShutdown hcall | queueSend hcall | queueInLoop | modify
  | destroyUnmapped hmap | destroyFrom hmap => exact h.disconnecting hdisconnect
  | _ => simp_all

theorem moves_removing : .removeChannel ∈ s'.stack → .connectDestoryed ∈ s'.trace ∧
    (s'.task = some .disconnect ∨ s'.conn.state_ ≠ .kConnected) := by
  have htask := h.started.task
  have hremoving := h.removing
  cases hm with
  | connectDestoryed htask' =>
    intro
    by_cases hstate : s.conn.state_ = .kConnected <;> simp [hstate]
  | sendOnLoop hmay hstate => simp_all [mayCall_none]
  | shutdownOnLoop hmay hstate => simp_all [mayCall_none]
  | _ => simp_all

private theorem moves_destroyed :
    .destroyed ∈ s'.trace → .connectDestoryed ∈ s'.trace ∧ s'.conn.state_ ≠ .kConnected := by
  intro hd
  by_cases hold : .destroyed ∈ s.trace
  · obtain ⟨hbegun, hstate⟩ := h.destroyed hold
    exact ⟨mem_trace_of_moves hm hbegun, state_ne_of_moves hm h.started.task (.inr rfl) hstate⟩
  · cases hm with
    | removeChannel htask hstack =>
      obtain ⟨hbegun, hnow⟩ := h.removing (by simp [hstack])
      exact ⟨List.mem_append_left _ hbegun, hnow.resolve_left (by simp [htask])⟩
    | _ => exact absurd (by simpa using hd) hold

private theorem moves_disconnect : .disconnect ∈ s'.trace → .connectDestoryed ∈ s'.trace := by
  intro hd
  by_cases hold : .disconnect ∈ s.trace
  · exact mem_trace_of_moves hm (h.disconnect hold)
  · cases hm with
    | disconnect htask =>
      obtain ⟨-, hframe, -⟩ := h.disconnecting htask
      exact List.mem_append_left _ (h.removing hframe).1
    | _ => exact absurd (by simpa using hd) hold

private theorem moves_returning :
    .connectDestoryed ∈ s'.trace → .removeChannel ∈ s'.stack ∨ .destroyed ∈ s'.trace := by
  intro hd
  have hreturning := h.returning
  cases hm with
  | connectDestoryed => exact .inl (by simp)
  | removeChannel => exact .inr (by simp)
  | _ => simp_all

private theorem moves_reading :
    s'.disconnected = false → .destroyed ∉ s'.trace → s'.conn.channel_.Reading := by
  intro hleft hdestroyed
  have hreading := h.reading (disconnected_of_moves hm hleft) fun hd =>
    hdestroyed (mem_trace_of_moves hm hd)
  cases hm with
  | handlewrite hphase htask hstack => exact TcpConnection.reading_handlewriteOut hreading _
  | sendInLoop htask => exact TcpConnection.reading_sendInLoop hreading _ _
  | shutdownInLoop htask => exact s.conn.channel_shutdownInLoop ▸ hreading
  | handleClose hphase htask hstack hclose => simp [disconnected] at hleft
  | disconnect htask => simp [disconnected] at hleft
  | connectEstablished htask => exact absurd htask h.started.task
  | removeChannel htask hstack => simp at hdestroyed
  | _ => exact hreading

theorem moves_established : .established ∈ s'.trace ∨ .established ∈ s'.stack := by
  rcases h.established with hdone | hnext
  · exact .inl (mem_trace_of_moves hm hdone)
  · cases hm with
    | established => exact .inl (by simp)
    | _ => simp_all

/-- The handlers of the channel run only after the start of `connectEstablished` has been logged:
`poll` reports nothing before. -/
theorem moves_handling :
    (∃ m, s'.phase = .events (some m)) ∨ (∃ h hs, s'.phase = .handleEvent (h :: hs)) →
      .established ∈ s'.trace := by
  intro hphase'
  refine mem_trace_of_moves hm ?_
  cases hm with
  | poll hphase htask hstack hreport => exact h.established.resolve_right (by simp [hstack])
  | handleEvent hphase htask hstack => exact h.handling (.inl ⟨_, hphase⟩)
  | handleClose hphase htask hstack | handleError hphase htask hstack
  | messageCallback hphase htask hstack | handlewrite hphase htask hstack =>
    exact h.handling (.inr ⟨_, _, hphase⟩)
  | swap hphase htask hstack hbatch | functors hphase htask hstack | handled hphase htask hstack =>
    simp at hphase'
  | connectDestoryed htask | disconnect htask | connectionCallback htask | sendInLoop htask
  | shutdownInLoop htask | shutdownIfDisconnecting htask =>
    exact h.handling (by simpa using hphase')
  | _ => exact h.handling hphase'

end Fields

theorem moves (h : s.Running) (hm : Moves s a s') : s'.Running where
  started := h.started.moves hm
  left := h.moves_left hm
  stored := h.moves_stored hm
  disconnecting := h.moves_disconnecting hm
  removing := h.moves_removing hm
  destroyed := h.moves_destroyed hm
  disconnect := h.moves_disconnect hm
  returning := h.moves_returning hm
  reading := h.moves_reading hm
  established := h.moves_established hm
  handling := h.moves_handling hm

end Running

omit [DecidableEq T] [DecidableEq P] in
theorem fresh_init (writeCompleteCallback highWaterMarkCallback : Bool) (highWaterMark : ℕ)
    (mem : P → ℕ → UInt8) (sameLoop : Bool) :
    (init (T := T) (.init writeCompleteCallback highWaterMarkCallback highWaterMark) mem
      sameLoop).Fresh := by
  cases sameLoop <;>
    exact ⟨rfl, rfl, rfl, fun _ => rfl, by simp [init], by simp [init], rfl, by
      simp [Starting, init, StagedQueue.items]⟩

/-- The invariant of every run: `connectEstablished` is to run, or has run. -/
def Life (s : ServerConnection T P) : Prop := s.Fresh ∨ s.Running

theorem Life.moves (h : s.Life) (hm : Moves s a s') : s'.Life := by
  rcases h with hfresh | hrunning
  · rcases hfresh.moves hm with hfresh' | ⟨htask, rfl⟩
    · exact .inl hfresh'
    · exact .inr (hfresh.running htask)
  · exact .inr (hrunning.moves hm)

/-- At most the start of `connectEstablished` is logged while the connection is fresh. -/
theorem Fresh.trace_of_moves (h : s.Fresh) (hm : Moves s a s') {e : Event} (he : e ∈ s'.trace) :
    e = .connectEstablished := by
  rcases h.moves hm with hfresh | ⟨-, rfl⟩
  · simp [hfresh.trace] at he
  · simpa [h.trace] using he

/-- The steps by which another loop runs the queued `connectEstablished`, up to its next `poll`. -/
def establish {T P : Type*} : List (Action T P) :=
  [.poll none, .swap, .functor, .task (.room 0), .task (.room 0), .resume, .resume, .functor]

end ServerConnection

end TinyMuduo
