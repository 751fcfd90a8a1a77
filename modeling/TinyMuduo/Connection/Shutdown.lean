import TinyMuduo.Connection.Capture

/-!
# The half-close after the data

`TcpConnection::shutdown` stores `kDisconnecting` and sends `shutdownInLoop` to the loop;
`shutdownInLoop` closes the writing half of the socket unless write interest is on. When a backlog
drains, `handlewrite` calls `shutdownInLoop` too if it finds `kDisconnecting`. This file is about a
connection that one thread uses, with any number of calls of `send` and then `shutdown`.

A byte that `send` has accepted is in the functor of `send`, in the output buffer or on the socket,
in the order of the calls (`ServerConnection.Streams`). Off the thread of the loop the functor of
`shutdown` follows those of `send` in the queue (`ServerConnection.Ordered`). Two paths reach
`shutdownInLoop` before the data has left: `handlewrite` does not wait for messages that are still
queued, and `handleClose` turns write interest off without emptying the output buffer.

## Main definitions

* `acceptedBytes`, `writtenBytes`, `Event.writeFails`: the bytes of the log.
* `ServerConnection.inTransit`: the bytes between `send` and `sendInLoop`.
* `ServerConnection.DrainsFirst`: the steps that do not take one of the two paths.

## Main results

* `ServerConnection.written_of_shutdownwrite`: in the runs of such steps, all accepted bytes are on
  the socket before the half-close.
-/

namespace TinyMuduo

namespace Event

/-- The bytes of a message that `send` accepted. -/
@[simp] def acceptedBytes : Event → List UInt8
  | accepted message => message
  | _ => []

/-- The bytes that the socket accepted. -/
@[simp] def writtenBytes : Event → List UInt8
  | write bytes _ => bytes
  | _ => []

/-- A write error: `write` failed, and not because it would block. -/
def writeFails : Event → Bool
  | write _ (some e) => e != .EWOULDBLOCK
  | _ => false

end Event

/-- The bytes of the messages that `send` accepted. -/
def acceptedBytes (log : List Event) : List UInt8 := log.flatMap Event.acceptedBytes

/-- The bytes that the socket accepted. -/
def writtenBytes (log : List Event) : List UInt8 := log.flatMap Event.writtenBytes

section Bytes

variable (e : Event) (log new : List Event)

@[simp] theorem acceptedBytes_nil : acceptedBytes [] = [] := rfl

@[simp] theorem acceptedBytes_cons :
    acceptedBytes (e :: log) = e.acceptedBytes ++ acceptedBytes log := rfl

@[simp] theorem acceptedBytes_append :
    acceptedBytes (log ++ new) = acceptedBytes log ++ acceptedBytes new :=
  List.flatMap_append

@[simp] theorem writtenBytes_nil : writtenBytes [] = [] := rfl

@[simp] theorem writtenBytes_cons :
    writtenBytes (e :: log) = e.writtenBytes ++ writtenBytes log := rfl

@[simp] theorem writtenBytes_append :
    writtenBytes (log ++ new) = writtenBytes log ++ writtenBytes new :=
  List.flatMap_append

end Bytes

/-- The bytes that a functor of `send` is to process. -/
@[simp] def Functor.held {P : Type*} : Functor P → List UInt8
  | sendInLoop m => m.held
  | _ => []

/-- The bytes that the thread of the loop is about to process. -/
@[simp] def Task.held {P : Type*} : Task P → List UInt8
  | sendInLoop m => m.held
  | _ => []

/-- The bytes that a call of `send` is about to queue. -/
@[simp] def Call.held {P : Type*} : Call P → List UInt8
  | sendInLoop m => m.held
  | _ => []

@[simp] theorem Functor.held_task {P : Type*} (f : Functor P) :
    f.task.elim [] Task.held = f.held := by
  cases f <;> rfl

@[simp] theorem Functor.flatMap_held_callback {P : Type*} (cbs : List Callback) :
    (cbs.map Functor.callback).flatMap (Functor.held (P := P)) = [] := by
  simp [List.flatMap_map]

@[simp] theorem Task.elim_held_ite {P : Type*} {c : Prop} [Decidable c] (t : Task P) :
    (if c then some t else none).elim [] Task.held = if c then t.held else [] := by
  split_ifs <;> rfl

namespace ServerConnection

variable {T P : Type*}

/-- The bytes of the functors of `send` in the queue. -/
def queuedBytes (s : ServerConnection T P) : List UInt8 := s.queue.items.flatMap Functor.held

/-- The bytes that the user, a thread or code on the thread of the loop, is about to queue. -/
@[simp] def callBytes (calls : T → Option (Call P)) : Option T → List UInt8
  | none => []
  | some t => (calls t).elim [] Call.held

/-- The bytes that `send` has accepted and `sendInLoop` has not processed, in order. -/
def inTransit (s : ServerConnection T P) (u : Option T) : List UInt8 :=
  s.task.elim [] Task.held ++ s.queuedBytes ++ callBytes s.calls u

/-- Only `u` calls `send` and `shutdown`. -/
def UsedBy (u : Option T) : Action T P → Prop
  | .send caller _ _ => caller = u
  | .shutdown caller => caller = u
  | _ => True

/-- The thread of the loop takes neither path to a half-close before the data: at the end of
`handlewrite`, when `state_` is `kDisconnecting` and write interest off, no bytes are queued; and
when `shutdownInLoop` begins on a disconnected connection with write interest off, the output buffer
is empty. -/
def HalfClosesLast (s : ServerConnection T P) : Action T P → Prop
  | .task _ => s.conn.channel_.isWritingEvent = false →
      (s.task = some .shutdownIfDisconnecting → s.conn.state_ = .kDisconnecting →
        s.queuedBytes = []) ∧
      (s.task = some .shutdownInLoop → s.disconnected = true → s.conn.outputBuffer_ = [])
  | _ => True

instance [DecidableEq T] (u : Option T) : (a : Action T P) → Decidable (UsedBy u a)
  | .send caller _ _ | .shutdown caller => inferInstanceAs (Decidable (caller = u))
  | .poll _ | .handleEvent | .handleOther | .swap | .functor | .callback _ _ | .task _ | .resume
  | .proceed _ | .queueInLoop | .modify _ _ | .removeConnectionInLoop | .destroyServer =>
    .isTrue trivial

instance [DecidableEq P] (s : ServerConnection T P) :
    (a : Action T P) → Decidable (s.HalfClosesLast a)
  | .task _ => inferInstanceAs (Decidable (s.conn.channel_.isWritingEvent = false →
      (s.task = some .shutdownIfDisconnecting → s.conn.state_ = .kDisconnecting →
        s.queuedBytes = []) ∧
      (s.task = some .shutdownInLoop → s.disconnected = true → s.conn.outputBuffer_ = [])))
  | .poll _ | .handleEvent | .handleOther | .swap | .functor | .callback _ _ | .resume
  | .send _ _ _ | .shutdown _ | .proceed _ | .queueInLoop | .modify _ _ | .removeConnectionInLoop
  | .destroyServer => .isTrue trivial

/-- Only `u` uses the connection, its strings keep their bytes until they are sent, and the
half-close comes last. -/
def DrainsFirst (u : Option T) (s : ServerConnection T P) (a : Action T P) : Prop :=
  UsedBy u a ∧ s.KeepsStrings a ∧ s.HalfClosesLast a

/-- The bytes accepted are those on the socket, those in the output buffer and those on the way to
`sendInLoop`, unless a write has failed. -/
structure Streams (u : Option T) (s : ServerConnection T P) : Prop where
  written : writtenBytes s.trace = s.conn.written
  accepted : (∀ e ∈ s.trace, e.writeFails = false) →
    acceptedBytes s.trace = s.conn.written ++ s.conn.outputBuffer_ ++ s.inTransit u
  others : ∀ t, s.calls t ≠ none → some t = u
  onLoop : u = none → s.queuedBytes = []

/-- `shutdownInLoop` is under way. -/
def ShuttingDown (s : ServerConnection T P) : Prop :=
  s.conn.state_ = .kDisconnecting ∨ s.task = some .shutdownInLoop ∨
    .shutdownInLoop ∈ s.queue.items ∨ ∃ t, s.calls t = some .shutdownInLoop

/-- `shutdownInLoop` comes after the functors of `send`. -/
structure Ordered (u : Option T) (s : ServerConnection T P) : Prop where
  state : s.ShuttingDown → s.conn.state_ ≠ .kConnecting ∧ s.conn.state_ ≠ .kConnected
  call : s.ShuttingDown → callBytes s.calls u = []
  caller : s.task = some .setDisconnecting → u = none
  items : s.queue.items.Pairwise fun f g => f = .shutdownInLoop → g.held = []
  task : s.task = some .shutdownInLoop → s.conn.channel_.isWritingEvent = false →
    s.queuedBytes = []
  drains : s.disconnected = false → s.conn.Drains
  shutdownwrite : Log.Holds (fun pre e => e = .shutdownwrite →
    (∀ e ∈ pre, e.writeFails = false) → writtenBytes pre = acceptedBytes pre) s.trace

variable [DecidableEq T] [DecidableEq P] {s s' : ServerConnection T P} {a : Action T P}
  {u : Option T}

namespace Streams

variable (h : s.Streams u) (hc : UsedBy u a) (hcap : s.Captured) (hm : Moves s a s')

include h hm in
private theorem moves_written : writtenBytes s'.trace = s'.conn.written := by
  have hwritten := h.written
  cases hm with
  | handlewrite =>
    cases hwriting : s.conn.channel_.isWritingEvent <;>
      simp [TcpConnection.handlewriteOut_fst, TcpConnection.drains, hwriting, hwritten]
  | sendInLoop =>
    cases hdirect : s.conn.writesDirectly <;>
      simp [TcpConnection.sendInLoop_fst, TcpConnection.takes, hdirect, hwritten]
  | shutdownInLoop =>
    cases hwriting : s.conn.channel_.isWritingEvent <;> simp [hwriting, hwritten]
  | _ => simp_all

include h hc hm in
private theorem moves_others : ∀ t, s'.calls t ≠ none → some t = u := by
  have hothers := h.others
  intro x hx
  cases hm with
  | @sendFrom t =>
    by_cases ht : x = t
    · exact ht ▸ hc
    · exact hothers x (by simpa [ht] using hx)
  | @shutdownFrom t =>
    by_cases ht : x = t
    · exact ht ▸ hc
    · exact hothers x (by simpa [ht] using hx)
  | @setDisconnecting t hcall =>
    by_cases ht : x = t
    · exact hothers x (by simp [ht, hcall])
    · exact hothers x (by simpa [ht] using hx)
  | @queueShutdown t =>
    by_cases ht : x = t
    · simp [ht] at hx
    · exact hothers x (by simpa [ht] using hx)
  | @queueSend t =>
    by_cases ht : x = t
    · simp [ht] at hx
    · exact hothers x (by simpa [ht] using hx)
  | _ => exact hothers x hx

omit [DecidableEq T] [DecidableEq P] in
/-- A message is dropped only after a write error. -/
theorem faults_eq_false {bytes : List UInt8} {r : WriteResult}
    (h : s.conn.writesDirectly = true → (Event.write bytes r.errno).writeFails = false) :
    s.conn.faults r = false := by
  cases hdirect : s.conn.writesDirectly with
  | false => simp [TcpConnection.faults, hdirect]
  | true =>
    cases r with
    | room n => simp [TcpConnection.faults]
    | error e logged =>
      have he : e = .EWOULDBLOCK := by
        simpa [WriteResult.errno, Event.writeFails] using h hdirect
      simp [TcpConnection.faults, WriteResult.faultError, he]

include h hc hcap hm in
theorem moves_accepted (hok : ∀ e ∈ s'.trace, e.writeFails = false) :
    acceptedBytes s'.trace = s'.conn.written ++ s'.conn.outputBuffer_ ++ s'.inTransit u := by
  have hothers := h.others
  have haccepted := h.accepted fun e he => hok e (mem_trace_of_moves hm he)
  unfold inTransit queuedBytes at *
  cases hm with
  | swap _ _ _ hbatch => simpa [StagedQueue.items_swap _ hbatch] using haccepted
  | functor _ htask _ hpop => simpa [htask, StagedQueue.items_pop hpop] using haccepted
  | @handlewrite n r _ _ htask =>
    have hwritten := TcpConnection.written_handlewriteOut s.conn r
    simp only [htask, Option.elim_none, List.nil_append] at haccepted
    cases hwriting : s.conn.channel_.isWritingEvent <;>
      simp [haccepted, hwriting, ← List.append_assoc, hwritten]
  | @sendInLoop r m htask =>
    have hread := hcap.read m (.inl htask)
    have hfault : s.conn.faults r = false := by
      refine faults_eq_false fun hdirect =>
        hok (.write (s.conn.takes (m.read s.mem) r) r.errno) (by simp [hdirect])
    have hwritten := TcpConnection.written_sendInLoop s.conn m.held r
    simp only [hfault, Bool.false_eq_true, if_false] at hwritten
    simp only [htask, Option.elim_some, Task.held] at haccepted
    cases hdirect : s.conn.writesDirectly <;>
      simp [haccepted, hdirect, hread, ← List.append_assoc, hwritten]
  | shutdownInLoop htask =>
    cases hwriting : s.conn.channel_.isWritingEvent <;> simp [haccepted, htask, hwriting]
  | sendOnLoop hmay =>
    obtain rfl : none = u := hc
    have hqueued := h.onLoop rfl
    obtain ⟨-, htask, -⟩ := mayCall_none.mp hmay
    simp only [queuedBytes] at hqueued
    simp [haccepted, htask, hqueued]
  | @sendFrom t _ _ hmay =>
    obtain rfl : some t = u := hc
    simp [haccepted, (mayCall_some.mp hmay).2]
  | @queueSend t m hcall =>
    obtain rfl := hothers t (by simp [hcall])
    simpa [hcall] using haccepted
  | @queueShutdown t hcall | @setDisconnecting t hcall =>
    obtain rfl := hothers t (by simp [hcall])
    simpa [hcall] using haccepted
  | @shutdownFrom t hmay =>
    obtain rfl : some t = u := hc
    simpa [(mayCall_some.mp hmay).2] using haccepted
  | shutdownOnLoop hmay =>
    obtain ⟨-, htask, -⟩ := mayCall_none.mp hmay
    simpa [htask] using haccepted
  | _ =>
    clear hcap hc hok hothers
    simp_all

include h hm in
private theorem moves_onLoop (hu : u = none) : s'.queuedBytes = [] := by
  have hqueued := h.onLoop hu
  have hothers := h.others
  unfold queuedBytes at *
  cases hm with
  | swap _ _ _ hbatch => rwa [StagedQueue.items_swap _ hbatch]
  | functor _ _ _ hpop =>
    rw [StagedQueue.items_pop hpop, List.flatMap_cons, List.append_eq_nil_iff] at hqueued
    exact hqueued.2
  | @queueSend t m hcall => exact absurd (hothers t (by simp [hcall])) (by simp [hu])
  | queueShutdown | queueInLoop | eraseFrom | destroyFrom | handlewrite | sendInLoop =>
    simpa using hqueued
  | _ => exact hqueued

omit h hc hcap hm in
theorem moves (h : s.Streams u) (hc : UsedBy u a) (hcap : s.Captured) (hm : Moves s a s') :
    s'.Streams u where
  written := h.moves_written hm
  accepted hok := h.moves_accepted hc hcap hm hok
  others := h.moves_others hc hm
  onLoop hu := h.moves_onLoop hm hu

end Streams

/-- The state of a connection that is closing does not go back. -/
theorem state_of_moves (hl : s.Life) (hm : Moves s a s')
    (hs : s.conn.state_ ≠ .kConnecting ∧ s.conn.state_ ≠ .kConnected) :
    s'.conn.state_ ≠ .kConnecting ∧ s'.conn.state_ ≠ .kConnected := by
  have htask : s.task ≠ some .connectEstablished := by
    rcases hl with hfresh | hr
    · exact absurd hfresh.state hs.1
    · exact hr.started.task
  exact ⟨state_ne_of_moves hm htask (.inl rfl) hs.1, state_ne_of_moves hm htask (.inr rfl) hs.2⟩

/-- No call begins once the connection is closing. -/
theorem callBytes_of_moves (hm : Moves s a s') (hs : s.conn.state_ ≠ .kConnected)
    (hcall : callBytes s.calls u = []) : callBytes s'.calls u = [] := by
  cases u with
  | none => rfl
  | some x =>
    cases hm with
    | sendFrom _ hstate | shutdownFrom _ hstate => exact absurd hstate hs
    | @setDisconnecting t | @queueShutdown t | @queueSend t =>
      by_cases hx : x = t
      · simp [hx]
      · simpa [hx] using hcall
    | _ => exact hcall

namespace Ordered

variable (h : s.Ordered u) (hst : s.Streams u) (hl : s.Life) (hc : UsedBy u a) (hm : Moves s a s')

include h hst hm in
/-- `shutdownInLoop` gets under way by the store of `shutdown`. -/
theorem shuttingDown_of_moves (hs : s'.ShuttingDown) :
    s.ShuttingDown ∨ s'.conn.state_ = .kDisconnecting ∧ callBytes s'.calls u = [] := by
  unfold ShuttingDown at *
  cases hm with
  | swap _ _ _ hbatch => exact .inl (by simpa [StagedQueue.items_swap _ hbatch] using hs)
  | functor _ _ _ hpop =>
    left
    rcases hs with hs | hs | hs | hs
    · exact .inl hs
    · exact .inr (.inr (.inl (by
        simp [StagedQueue.items_pop hpop, Functor.task_eq_shutdownInLoop.mp hs])))
    · exact .inr (.inr (.inl (by simp [StagedQueue.items_pop hpop, hs])))
    · exact .inr (.inr (.inr hs))
  | sendFrom | shutdownFrom | queueSend =>
    left
    rcases hs with hs | hs | hs | ⟨x, hx⟩
    · exact .inl hs
    · exact .inr (.inl hs)
    · exact .inr (.inr (.inl (by simpa using hs)))
    · rcases update_calls_eq hx with hcall | hx
      · simp at hcall
      · exact .inr (.inr (.inr ⟨x, hx⟩))
  | queueShutdown hcall => exact .inl (.inr (.inr (.inr ⟨_, hcall⟩)))
  | @setDisconnecting t hcall =>
    obtain rfl := hst.others t (by simp [hcall])
    exact .inr ⟨rfl, by simp⟩
  | setDisconnectingOnLoop htask =>
    obtain rfl := h.caller htask
    exact .inr ⟨rfl, rfl⟩
  | poll | handleEvent | handleOther | functors | handled | handleError | messageCallback
  | established | closeFrom | removeChannel | userCode | sendRefused | shutdownRefused | modify
  | destroyUnmapped => exact .inl hs
  | _ => simp_all

include h hst hl hm in
private theorem moves_state (hs : s'.ShuttingDown) :
    s'.conn.state_ ≠ .kConnecting ∧ s'.conn.state_ ≠ .kConnected := by
  rcases h.shuttingDown_of_moves hst hm hs with hs | ⟨hstate, -⟩
  · exact state_of_moves hl hm (h.state hs)
  · simp [hstate]

include h hst hm in
private theorem moves_call (hs : s'.ShuttingDown) : callBytes s'.calls u = [] := by
  rcases h.shuttingDown_of_moves hst hm hs with hs | ⟨-, hcall⟩
  · exact callBytes_of_moves hm (h.state hs).2 (h.call hs)
  · exact hcall

include h hc hm in
private theorem moves_caller (htask' : s'.task = some .setDisconnecting) : u = none := by
  have hcaller := h.caller
  cases hm with
  | shutdownOnLoop => exact hc.symm
  | _ => simp_all

omit [DecidableEq T] [DecidableEq P] in
private theorem pairwise_append {items new : List (Functor P)}
    (hitems : items.Pairwise fun f g => f = .shutdownInLoop → g.held = [])
    (hnew : ∀ g ∈ new, .shutdownInLoop ∈ items ++ new → g.held = []) :
    (items ++ new).Pairwise fun f g => f = .shutdownInLoop → g.held = [] := by
  refine List.pairwise_append.mpr ⟨hitems, ?_, ?_⟩
  · exact List.pairwise_of_forall_mem_list fun f hf g hg hfs =>
      hnew g hg (List.mem_append_right items (hfs ▸ hf))
  · exact fun f hf g hg hfs => hnew g hg (List.mem_append_left new (hfs ▸ hf))

include h hst hm in
private theorem moves_items :
    s'.queue.items.Pairwise fun f g => f = .shutdownInLoop → g.held = [] := by
  have hitems := h.items
  cases hm with
  | swap _ _ _ hbatch => rwa [StagedQueue.items_swap _ hbatch]
  | functor _ _ _ hpop =>
    rw [StagedQueue.items_pop hpop, List.pairwise_cons] at hitems
    exact hitems.2
  | @queueSend t m hcall =>
    obtain rfl := hst.others t (by simp [hcall])
    simp only [queueInLoop, StagedQueue.items_push]
    refine pairwise_append hitems fun g hg hshut => ?_
    obtain rfl := List.mem_singleton.mp hg
    simpa [hcall] using h.call (.inr (.inr (.inl (by simpa using hshut))))
  | handlewrite | sendInLoop =>
    simp only [ServerConnection.handlewrite, ServerConnection.sendInLoop, queueCallbacks,
      StagedQueue.items_pushAll]
    refine pairwise_append hitems fun g hg _ => ?_
    obtain ⟨cb, -, rfl⟩ := List.mem_map.mp hg
    rfl
  | queueShutdown | queueInLoop | eraseFrom | destroyFrom =>
    simp only [queueInLoop, StagedQueue.items_push]
    refine pairwise_append hitems fun g hg _ => ?_
    obtain rfl := List.mem_singleton.mp hg
    rfl
  | _ => exact hitems

include h hst hm in
/-- No bytes join the queue while `shutdownInLoop` is next. -/
theorem moves_task (hlast : s.HalfClosesLast a) (htask' : s'.task = some .shutdownInLoop)
    (hwriting : s'.conn.channel_.isWritingEvent = false) : s'.queuedBytes = [] := by
  have htask := h.task
  unfold queuedBytes at *
  cases hm with
  | functor _ _ _ hpop =>
    obtain rfl := Functor.task_eq_shutdownInLoop.mp htask'
    have hitems := h.items
    rw [StagedQueue.items_pop hpop, List.pairwise_cons] at hitems
    exact List.flatMap_eq_nil_iff.mpr fun g hg => hitems.1 g hg rfl
  | shutdownIfDisconnecting hnow =>
    simp only [ServerConnection.shutdownIfDisconnecting, Option.ite_none_right_eq_some,
      and_true] at htask'
    exact (hlast hwriting).1 hnow htask'
  | setDisconnectingOnLoop hnow => exact hst.onLoop (h.caller hnow)
  | @queueSend t m hcall =>
    obtain rfl := hst.others t (by simp [hcall])
    have hheld : m.held = [] := by simpa [hcall] using h.call (.inr (.inl htask'))
    simp [htask htask' hwriting, hheld]
  | sendFrom | shutdownFrom | setDisconnecting | sendRefused | shutdownRefused | modify
  | destroyUnmapped => exact htask htask' hwriting
  | queueShutdown | queueInLoop | eraseFrom | destroyFrom => simpa using htask htask' hwriting
  | _ => simp_all

include h hm in
private theorem moves_drains (hd : s'.disconnected = false) : s'.conn.Drains := by
  have hdrains := h.drains (disconnected_of_moves hm hd)
  cases hm with
  | handlewrite => exact hdrains.handlewriteOut _
  | sendInLoop => exact hdrains.sendInLoop _ _
  | connectEstablished => exact hdrains.connectEstablished
  | shutdownInLoop | removeChannel => simpa [TcpConnection.Drains] using hdrains
  | handleClose | disconnect => simp [disconnected] at hd
  | _ => exact hdrains

include h hst in
omit [DecidableEq T] [DecidableEq P] in
/-- When `shutdownInLoop` is next with write interest off, everything accepted is on the socket. -/
theorem written_of_task {r : WriteResult} (hlast : s.HalfClosesLast (.task r))
    (htask : s.task = some .shutdownInLoop) (hwriting : s.conn.channel_.isWritingEvent = false)
    (hok : ∀ e ∈ s.trace, e.writeFails = false) : writtenBytes s.trace = acceptedBytes s.trace := by
  have hbuffer : s.conn.outputBuffer_ = [] := by
    cases hd : s.disconnected with
    | false =>
      by_contra hbuffer
      simp [(h.drains hd).mpr hbuffer] at hwriting
    | true =>
      exact (hlast hwriting).2 htask hd
  have hqueued := h.task htask hwriting
  have hcall := h.call (.inr (.inl htask))
  rw [hst.written, hst.accepted hok, inTransit, hbuffer, hqueued, hcall, htask]
  simp

include hm in
omit h hst hl hc in
/-- `::shutdown` is called by `shutdownInLoop` only. -/
theorem shutdownwrite_of_moves :
    (∃ new, s'.trace = s.trace ++ new ∧ .shutdownwrite ∉ new) ∨
      ∃ r, a = .task r ∧ s.task = some .shutdownInLoop ∧ s' = s.shutdownInLoop := by
  cases hm with
  | shutdownInLoop htask => exact .inr ⟨_, rfl, htask, rfl⟩
  | _ => left; simp

include h hst hm in
private theorem moves_shutdownwrite (hlast : s.HalfClosesLast a) :
    Log.Holds (fun pre e => e = .shutdownwrite →
      (∀ e ∈ pre, e.writeFails = false) → writtenBytes pre = acceptedBytes pre) s'.trace := by
  rcases shutdownwrite_of_moves hm with ⟨new, hnew, hnot⟩ | ⟨r, rfl, htask, rfl⟩
  · rw [hnew]
    exact h.shutdownwrite.append_of_notMem hnot
  · refine Log.holds_append.mpr ⟨h.shutdownwrite,
      Log.holds_ite_nil_singleton.mpr fun hwriting _ hok => ?_⟩
    simp only [List.append_nil] at hok ⊢
    exact h.written_of_task hst hlast htask (by simpa using hwriting) hok

omit h hst hl hc hm in
theorem moves (h : s.Ordered u) (hst : s.Streams u) (hl : s.Life) (hc : UsedBy u a)
    (hlast : s.HalfClosesLast a) (hm : Moves s a s') : s'.Ordered u where
  state hs := h.moves_state hst hl hm hs
  call hs := h.moves_call hst hm hs
  caller htask := h.moves_caller hc hm htask
  items := h.moves_items hst hm
  task htask hwriting := h.moves_task hst hm hlast htask hwriting
  drains hd := h.moves_drains hm hd
  shutdownwrite := h.moves_shutdownwrite hst hm hlast

end Ordered

/-- The invariant of the runs in which the data goes first. -/
structure Draining (u : Option T) (s : ServerConnection T P) : Prop where
  life : s.Life
  captured : s.Captured
  streams : s.Streams u
  ordered : s.Ordered u

theorem Draining.moves (h : s.Draining u) (hc : s.DrainsFirst u a) (hm : Moves s a s') :
    s'.Draining u where
  life := h.life.moves hm
  captured := h.captured.moves hc.2.1 hm
  streams := h.streams.moves hc.1 h.captured hm
  ordered := h.ordered.moves h.streams h.life hc.1 hc.2.2 hm

omit [DecidableEq T] [DecidableEq P] in
private theorem draining_init (writeCompleteCallback highWaterMarkCallback : Bool)
    (highWaterMark : ℕ) (mem : P → ℕ → UInt8) (sameLoop : Bool) :
    (init (T := T) (.init writeCompleteCallback highWaterMarkCallback highWaterMark) mem
      sameLoop).Draining u where
  life := .inl (fresh_init ..)
  captured := captured_init ..
  streams := by
    refine ⟨rfl, fun _ => ?_, by simp [init], fun _ => ?_⟩
    · cases u <;> cases sameLoop <;> rfl
    · cases sameLoop <;> rfl
  ordered := by
    have hnot : ¬ (init (T := T) (.init writeCompleteCallback highWaterMarkCallback highWaterMark)
        mem sameLoop).ShuttingDown := by
      cases sameLoop <;> simp [ShuttingDown, init, TcpConnection.init, StagedQueue.items]
    refine ⟨fun hs => absurd hs hnot, fun hs => absurd hs hnot, ?_, ?_,
      fun htask => absurd (.inr (.inl htask)) hnot, fun _ => TcpConnection.drains_init .., by
      simp [init]⟩
    · cases sameLoop <;> simp [init]
    · cases sameLoop <;> simp [init, StagedQueue.items]

/-- In every run in which only `u` calls `send` and `shutdown`, does not modify its strings before
they are sent, and the half-close comes last: when the writing half of the socket is closed and no
write has failed, the bytes on the socket are those of the messages that `send` has accepted. -/
theorem written_of_shutdownwrite {writeCompleteCallback highWaterMarkCallback : Bool}
    {highWaterMark : ℕ} {mem : P → ℕ → UInt8} {sameLoop : Bool} (u : Option T)
    (h : Transition.Reaches (Transition.ofStep step) (DrainsFirst u)
      (init (.init writeCompleteCallback highWaterMarkCallback highWaterMark) mem sameLoop) s) :
    Log.Holds (fun pre e => e = .shutdownwrite →
      (∀ e ∈ pre, e.writeFails = false) → writtenBytes pre = acceptedBytes pre) s.trace := by
  have hdraining : s.Draining u := h.invariant (draining_init ..)
    fun _ _ _ hd hc hstep => hd.moves hc (moves_of_step hstep)
  exact hdraining.ordered.shutdownwrite

/-- The message waits in the output buffer when `shutdown` is called; `handlewrite` drains it and
closes the writing half. -/
theorem written_of_shutdownwrite_of_backlog :
    ∃ s : ServerConnection Unit Unit, .shutdownwrite ∈ s.trace ∧ acceptedBytes s.trace = [7] ∧
      Log.Holds (fun pre e => e = .shutdownwrite →
        (∀ e ∈ pre, e.writeFails = false) → writtenBytes pre = acceptedBytes pre) s.trace := by
  let s₀ : ServerConnection Unit Unit := init (.init false false 64) (fun _ _ => 7) false
  obtain ⟨s, hreach, hmem, hacc⟩ := Transition.Reaches.exists_of_run
    (C := fun (s : ServerConnection Unit Unit) a =>
      UsedBy (some ()) a ∧ a.modifies = false ∧ s.HalfClosesLast a) (s := s₀)
    (P := fun s => .shutdownwrite ∈ s.trace ∧ acceptedBytes s.trace = [7]) step
    (establish.append [.send (some ()) () 1, .proceed (), .shutdown (some ()), .proceed (),
      .proceed (), .poll none, .swap, .functor, .task (.room 0), .functor, .task (.room 0),
      .functor, .poll (some EPOLLOUT), .handleEvent, .callback .positive (.room 1),
      .task (.room 0), .task (.room 0)]) (by decide +kernel)
  have hreach' : Transition.Reaches (Transition.ofStep step) (DrainsFirst (some ())) s₀ s :=
    hreach.mono fun _ _ hc => ⟨hc.1, keepsStrings_of_modifies hc.2.1, hc.2.2⟩
  exact ⟨s, hmem, hacc, written_of_shutdownwrite (some ()) hreach'⟩

/-- A thread sends two messages and calls `shutdown` while the first one waits in the output buffer
and the second one in the queue: `handlewrite` drains the first and closes the writing half. -/
theorem exists_reaches_shutdownwrite_before_data :
    ∃ s : ServerConnection Unit Unit,
      Transition.Reaches (Transition.ofStep step) (fun _ => UsedBy (some ()))
        (init (.init false false 64) (fun _ _ => 7) false) s ∧
      .shutdownwrite ∈ s.trace ∧ (∀ e ∈ s.trace, e.writeFails = false) ∧
      acceptedBytes s.trace = [7, 7] ∧ writtenBytes s.trace = [7] :=
  Transition.Reaches.exists_of_run step
    (establish.append [.send (some ()) () 1, .proceed (), .poll none, .swap, .functor,
      .task (.room 0), .functor, .send (some ()) () 1, .proceed (), .shutdown (some ()),
      .proceed (), .poll (some EPOLLOUT), .handleEvent, .callback .positive (.room 1),
      .task (.room 0), .task (.room 0)]) (by decide +kernel)

end ServerConnection

end TinyMuduo
