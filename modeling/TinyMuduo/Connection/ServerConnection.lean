import Mathlib.Logic.Function.Basic
import TinyMuduo.Connection.TcpConnection
import TinyMuduo.Library.Log
import TinyMuduo.Library.StagedQueue

/-!
# A connection of a server, with its loop and the threads that use it

The life of a connection created by `TcpServer::newConnection` involves the thread of its own loop
(channel events, then queued functors), the thread of the server's loop (`removeConnection`, the
destructor of `TcpServer`) and the threads of the user, which call `send` and `shutdown`. This file
embeds `resoure/Tcpserver.cpp` and `resoure/TcpConnection.cpp` as one transition system in which
every load and every store of `state_`, every section under the mutex of a loop and every system
call is a step.

The thread of the connection's loop is a stack: a `task` is a function that is about to run, or to
go on after a load of `state_`; a `Frame` is the rest of a function that waits for another one to
return. Below the stack is the loop itself, in one of the phases of `Eventloop::loop`. Its queue of
functors is the staged queue that `TinyMuduo.Loop.Eventloop` refines. With no other loops the server
uses its own loop for the connection (`sameLoop`), and `runInLoop` runs in place.

`poll` reports for a registered channel any events among those asked for, `EPOLLERR` and
`EPOLLHUP`. A user learns of a connection by its first `connectionCallback_`. Handlers of other
channels and other functors are code of the user. The memory that strings own is `mem`; `send` from
another thread passes a pointer into it. What has no defined behaviour is not a step: the server's
functions after its destructor, a functor that wraps an empty callback.

`destroyServer` is the body of `TcpServer::~TcpServer`. The members of the server that go behind it
take the threads of the pool and their loops with them (`TinyMuduo.Loop.Join`). A loop that has
ended takes no steps any more; what its end does to the shared pointers in its queue is in
`TinyMuduo.Connection.Ownership`.

## Main definitions

* `Message`, `Functor`, `Task`, `Frame`, `Call`, `Phase`, `Event`.
* `ServerConnection`, `ServerConnection.init`, `ServerConnection.Action`, `ServerConnection.step`.

## Main results

* `ServerConnection.moves_of_step`: every step is one of the transitions `ServerConnection.Moves`.
-/

namespace TinyMuduo

/-- A string passed to `send`: the pointer `c_str()` to its bytes, and the bytes that it holds at
the call. The code passes on the pointer and the number of bytes. -/
structure Message (P : Type*) where
  c_str : P
  held : List UInt8
  deriving DecidableEq

/-- The bytes of a string of length `len` at `p`. -/
def bytesAt {P : Type*} (mem : P → ℕ → UInt8) (p : P) (len : ℕ) : List UInt8 :=
  (List.range len).map (mem p)

/-- The bytes that `sendInLoop` finds behind the pointer. -/
def Message.read {P : Type*} (mem : P → ℕ → UInt8) (m : Message P) : List UInt8 :=
  bytesAt mem m.c_str m.held.length

@[simp] theorem Message.read_mk {P : Type*} (mem : P → ℕ → UInt8) (p : P) (len : ℕ) :
    Message.read mem ⟨p, bytesAt mem p len⟩ = bytesAt mem p len := by
  simp [Message.read, bytesAt]

/-- The functors in the queue of the loop. -/
inductive Functor (P : Type*)
  | connectEstablished
  | connectDestoryed
  | sendInLoop (m : Message P)
  | shutdownInLoop
  | callback (cb : Callback)
  | user
  deriving DecidableEq

/-- What the thread of the loop does next. -/
inductive Task (P : Type*)
  | connectEstablished
  | connectDestoryed
  | disconnect
  | connectionCallback
  | removeConnectionInLoop
  | sendInLoop (m : Message P)
  | setDisconnecting
  | shutdownInLoop
  | shutdownIfDisconnecting
  deriving DecidableEq

/-- What waits for a function to return: the rest of `connectEstablished`, of `handleClose` and of
`connectDestoryed` after `connectionCallback_`, and code of the user. -/
inductive Frame
  | established
  | closeCallback
  | removeChannel
  | userCode
  deriving DecidableEq

namespace Functor

variable {P : Type*}

/-- The functor wraps a function. -/
def invocable : Functor P → Bool
  | callback cb => cb.invocable
  | _ => true

/-- The function of the connection that the functor calls. -/
def task : Functor P → Option (Task P)
  | connectEstablished => some .connectEstablished
  | connectDestoryed => some .connectDestoryed
  | sendInLoop m => some (.sendInLoop m)
  | shutdownInLoop => some .shutdownInLoop
  | callback _ | user => none

/-- The code of the user that the functor calls. -/
def frames : Functor P → List Frame
  | callback _ | user => [.userCode]
  | _ => []

@[simp] theorem task_eq_connectEstablished {f : Functor P} :
    f.task = some .connectEstablished ↔ f = .connectEstablished := by
  cases f <;> simp [task]

@[simp] theorem task_eq_sendInLoop {f : Functor P} {m : Message P} :
    f.task = some (.sendInLoop m) ↔ f = .sendInLoop m := by
  cases f <;> simp [task]

@[simp] theorem task_eq_shutdownInLoop {f : Functor P} :
    f.task = some .shutdownInLoop ↔ f = .shutdownInLoop := by
  cases f <;> simp [task]

@[simp] theorem task_ne_setDisconnecting {f : Functor P} : f.task ≠ some .setDisconnecting := by
  cases f <;> simp [task]

@[simp] theorem task_ne_disconnect {f : Functor P} : f.task ≠ some .disconnect := by
  cases f <;> simp [task]

@[simp] theorem count_disconnect_task [DecidableEq P] (f : Functor P) :
    f.task.toList.count .disconnect = 0 := by
  cases f <;> simp [task]

@[simp] theorem count_removeConnectionInLoop_task [DecidableEq P] (f : Functor P) :
    f.task.toList.count .removeConnectionInLoop = 0 := by
  cases f <;> simp [task]

@[simp] theorem count_connectDestoryed_task [DecidableEq P] (f : Functor P) :
    f.task.toList.count .connectDestoryed = [f].count .connectDestoryed := by
  cases f <;> simp [task]

@[simp] theorem count_map_callback [DecidableEq P] (cbs : List Callback) :
    (cbs.map callback).count (connectDestoryed : Functor P) = 0 := by
  simp [List.count_eq_zero]

@[simp] theorem count_removeChannel_frames {f : Functor P} : f.frames.count .removeChannel = 0 := by
  cases f <;> simp [frames]

@[simp] theorem count_closeCallback_frames {f : Functor P} : f.frames.count .closeCallback = 0 := by
  cases f <;> simp [frames]

@[simp] theorem mem_frames {f : Functor P} {frame : Frame} :
    frame ∈ f.frames ↔ frame = .userCode ∧ f.task = none := by
  cases f <;> simp [frames, task]

end Functor

/-- The rest of a call of `send` or `shutdown` by another thread after the load of `state_`: the
store of `shutdown`, and the functor for `runInLoop`. -/
inductive Call (P : Type*)
  | setDisconnecting
  | shutdownInLoop
  | sendInLoop (m : Message P)
  deriving DecidableEq

/-- The phases of `Eventloop::loop`: `poll`, the events of the active channels (with those of the
connection's channel until they are handled), `handleEventWithGuard` of the connection's channel
(with the callbacks to run), and `doPendingFunctors`. -/
inductive Phase
  | polling
  | events (revents : Option EventMask)
  | handleEvent (handlers : List Handler)
  | functors
  deriving DecidableEq

/-- What happens to the connection, in order. -/
inductive Event
  | connectEstablished
  | established
  | accepted (message : List UInt8)
  | sendInLoop (processed held : List UInt8)
  | write (accepted : List UInt8) (error : Option Errno)
  | shutdownwrite
  | handleClose
  | erase (n : ℕ)
  | connectDestoryed
  | disconnect
  | destroyed
  | connectionCallback (connected : Bool)
  deriving DecidableEq

/-- The result of `readFd`. -/
inductive ReadResult
  | positive
  | zero
  | negative
  deriving DecidableEq

/-- A connection of a `TcpServer` with its loop (`phase`, `queue`, and the stack `task`, `stack` of
its thread), the calls by other threads (`calls`), the functors `removeConnectionInLoop` in the
server's loop, whether the server is alive and maps the connection's name, and the log. -/
structure ServerConnection (T P : Type*) where
  conn : TcpConnection
  mem : P → ℕ → UInt8
  phase : Phase
  queue : StagedQueue (Functor P)
  task : Option (Task P)
  stack : List Frame
  calls : T → Option (Call P)
  sameLoop : Bool
  baseLoop : ℕ
  alive : Bool
  inMap : Bool
  trace : List Event

namespace ServerConnection

variable {T P : Type*}

/-- The state that `TcpServer::newConnection` leaves: `connectEstablished` is queued on another
loop, or called in place. -/
def init (conn : TcpConnection) (mem : P → ℕ → UInt8) (sameLoop : Bool) : ServerConnection T P where
  conn := conn
  mem := mem
  phase := if sameLoop then .events none else .polling
  queue := ⟨[], if sameLoop then [] else [.connectEstablished]⟩
  task := if sameLoop then some .connectEstablished else none
  stack := []
  calls := fun _ => none
  sameLoop := sameLoop
  baseLoop := 0
  alive := true
  inMap := true
  trace := []

variable (s : ServerConnection T P)

@[simp] def log (e : Event) : ServerConnection T P := { s with trace := s.trace ++ [e] }

/-- The thread of the loop is in no function: it is in the loop itself. -/
def idle : Bool := s.task.isNone && s.stack.isEmpty

theorem idle_iff : s.idle = true ↔ s.task = none ∧ s.stack = [] := by
  simp [idle]

@[simp] def queueInLoop (f : Functor P) : ServerConnection T P := { s with queue := s.queue.push f }

/-- The functors that a function of the connection queues. -/
@[simp] def queueCallbacks (cbs : List Callback) : ServerConnection T P :=
  { s with queue := s.queue.pushAll (cbs.map .callback) }

/-- `handleClose` has run, or `connectDestoryed` has stored `kDisconnected`. -/
def disconnected : Bool := s.trace.contains .handleClose || s.trace.contains .disconnect

theorem disconnected_iff :
    s.disconnected = true ↔ .handleClose ∈ s.trace ∨ .disconnect ∈ s.trace := by
  simp [disconnected]

/-- The user has been told of the connection. -/
def published : Bool :=
  s.trace.contains (.connectionCallback true) || s.trace.contains (.connectionCallback false)

/-! ### The loop -/

/-- `epoll_wait` may report the events `revents` for the connection's channel. -/
def mayReport (revents : EventMask) : Bool :=
  match s.conn.channel_.interest with
  | some events => revents != 0 && revents &&& ~~~(events ||| EPOLLERR ||| EPOLLHUP) == 0
  | none => false

/-- `poller_->poll` returns, with events of the connection's channel or without. -/
def poll (revents : Option EventMask) : Option (ServerConnection T P) :=
  match s.phase with
  | .polling =>
    if s.idle && revents.all s.mayReport then some { s with phase := .events revents } else none
  | _ => none

/-- `channel::handleEvent` of the connection's channel starts. -/
def handleEvent : Option (ServerConnection T P) :=
  match s.phase with
  | .events (some revents) =>
    if s.idle then some { s with phase := .handleEvent revents.handleEventWithGuard } else none
  | _ => none

/-- The handler of another active channel starts. -/
def handleOther : Option (ServerConnection T P) :=
  match s.phase with
  | .events _ => if s.idle then some { s with stack := [.userCode] } else none
  | _ => none

/-- All active channels are handled: `doPendingFunctors` takes the batch. -/
def swap : Option (ServerConnection T P) :=
  match s.phase with
  | .events none =>
    if s.idle && s.queue.batch.isEmpty then
      some { s with phase := .functors, queue := s.queue.swap }
    else none
  | _ => none

/-- The next functor of the batch, or the end of `doPendingFunctors`. -/
def functor : Option (ServerConnection T P) :=
  match s.phase with
  | .functors =>
    if s.idle then
      match s.queue.pop with
      | some (f, q) =>
        if f.invocable then some { s with queue := q, task := f.task, stack := f.frames } else none
      | none => some { s with phase := .polling }
    else none
  | _ => none

/-- `TcpConnection::handleClose` up to `connectionCallback_`; `handlers` remain to be run. -/
@[simp] def handleClose (handlers : List Handler) : ServerConnection T P :=
  { s with
    conn := s.conn.handleClose
    phase := .handleEvent handlers
    task := some .connectionCallback
    stack := [.closeCallback]
    trace := s.trace ++ [.handleClose] }

/-- `TcpConnection::handleRead` with the result of `readFd`. -/
def handleRead (handlers : List Handler) : ReadResult → ServerConnection T P
  | .positive => { s with phase := .handleEvent handlers, stack := [.userCode] }
  | .zero => s.handleClose handlers
  | .negative => { s with phase := .handleEvent handlers }

/-- `TcpConnection::handlewrite` up to the load of `state_`, with the result of `write`. -/
@[simp] def handlewrite (handlers : List Handler) (r : WriteResult) : ServerConnection T P :=
  let (conn, queued, tests) := s.conn.handlewriteOut r
  { s with
    conn := conn
    phase := .handleEvent handlers
    task := if tests then some .shutdownIfDisconnecting else none
    trace := s.trace ++
      if s.conn.channel_.isWritingEvent then [Event.write (s.conn.drains r) r.errno] else []
    }.queueCallbacks queued

/-- The next callback of the connection's channel, with the result of its system call, or the end of
`handleEvent`. -/
def callback (n : ReadResult) (r : WriteResult) : Option (ServerConnection T P) :=
  match s.phase with
  | .handleEvent [] => if s.idle then some { s with phase := .events none } else none
  | .handleEvent (.closecallback_ :: handlers) =>
    if s.idle then some (s.handleClose handlers) else none
  | .handleEvent (.errorcallback_ :: handlers) =>
    if s.idle then some { s with phase := .handleEvent handlers } else none
  | .handleEvent (.readcallback_ :: handlers) =>
    if s.idle then some (s.handleRead handlers n) else none
  | .handleEvent (.writecallback_ :: handlers) =>
    if s.idle then some (s.handlewrite handlers r) else none
  | _ => none

/-! ### Functions of the connection and the server -/

/-- `TcpServer::removeConnectionInLoop` up to `runInLoop`. -/
@[simp] def erase : ServerConnection T P :=
  { s with inMap := false, trace := s.trace ++ [.erase (if s.inMap then 1 else 0)] }

/-- `TcpConnection::sendInLoop` with the result of `write`. -/
@[simp] def sendInLoop (m : Message P) (r : WriteResult) : ServerConnection T P :=
  let message := m.read s.mem
  let (conn, queued) := s.conn.sendInLoop message r
  { s with
    conn := conn
    task := none
    trace := s.trace ++ Event.sendInLoop message m.held ::
      if s.conn.writesDirectly then [Event.write (s.conn.takes message r) r.errno] else []
    }.queueCallbacks queued

/-- `TcpConnection::shutdownInLoop`. -/
@[simp] def shutdownInLoop : ServerConnection T P :=
  { s with
    conn := s.conn.shutdownInLoop
    task := none
    trace := s.trace ++ if s.conn.channel_.isWritingEvent then [] else [.shutdownwrite] }

/-- `TcpConnection::connectEstablished` up to `connectionCallback_`. -/
@[simp] def connectEstablished : ServerConnection T P :=
  { s with
    conn := s.conn.connectEstablished
    task := some .connectionCallback
    stack := .established :: s.stack
    trace := s.trace ++ [.connectEstablished] }

/-- `TcpConnection::connectDestoryed` up to the load of `state_`. -/
@[simp] def connectDestoryed : ServerConnection T P :=
  { s with
    task := if s.conn.state_ = .kConnected then some .disconnect else none
    stack := .removeChannel :: s.stack
    trace := s.trace ++ [.connectDestoryed] }

/-- The branch of `TcpConnection::connectDestoryed` for `kConnected`, up to
`connectionCallback_`. -/
@[simp] def disconnect : ServerConnection T P :=
  { s with
    conn := s.conn.disconnect
    task := some .connectionCallback
    trace := s.trace ++ [.disconnect] }

/-- `connectionCallback_` is called. -/
@[simp] def connectionCallback : ServerConnection T P :=
  { s with
    task := none
    stack := .userCode :: s.stack
    trace := s.trace ++ [.connectionCallback (s.conn.state_ == .kConnected)] }

/-- The store of `TcpConnection::shutdown` on the thread of the loop. -/
@[simp] def setDisconnecting : ServerConnection T P :=
  { s with
    conn := s.conn.setState .kDisconnecting
    task := some .shutdownInLoop }

/-- The load of `state_` at the end of `TcpConnection::handlewrite`. -/
@[simp] def shutdownIfDisconnecting : ServerConnection T P :=
  { s with task := if s.conn.state_ = .kDisconnecting then some .shutdownInLoop else none }

/-- The task of the thread of the loop; `r` is the result of the `write` of `sendInLoop`. -/
def exec (r : WriteResult) : Task P → Option (ServerConnection T P)
  | .connectEstablished => some s.connectEstablished
  | .connectDestoryed => some s.connectDestoryed
  | .disconnect => some s.disconnect
  | .connectionCallback => some s.connectionCallback
  | .removeConnectionInLoop =>
    if s.alive then some { s.erase with task := some .connectDestoryed } else none
  | .sendInLoop m => some (s.sendInLoop m r)
  | .setDisconnecting => some s.setDisconnecting
  | .shutdownInLoop => some s.shutdownInLoop
  | .shutdownIfDisconnecting => some s.shutdownIfDisconnecting

/-- A function returns to the one below it. -/
def resume : Option (ServerConnection T P) :=
  match s.task, s.stack with
  | none, .established :: stack =>
    some { s with stack := stack, trace := s.trace ++ [.established] }
  | none, .closeCallback :: stack =>
    if s.alive then
      some (if s.sameLoop then { s with task := some .removeConnectionInLoop, stack := stack }
        else { s with baseLoop := s.baseLoop + 1, stack := stack })
    else none
  | none, .removeChannel :: stack =>
    some { s with
      conn := s.conn.removeChannel
      stack := stack
      trace := s.trace ++ [.destroyed] }
  | none, .userCode :: stack => some { s with stack := stack }
  | _, _ => none

/-- `removeConnectionInLoop` in the server's loop, when that is another one. -/
def removeConnectionInLoop : Option (ServerConnection T P) :=
  if s.alive && !s.sameLoop && s.baseLoop > 0 then
    some ({ s.erase with baseLoop := s.baseLoop - 1 }.queueInLoop .connectDestoryed)
  else none

/-- The thread of the loop may call `send`, `shutdown` and the destructor of the server. -/
def inUserCode : Bool := s.task.isNone && s.stack.head? == some .userCode

/-- The body of `TcpServer::~TcpServer` in the server's thread. -/
def destroyServer : Option (ServerConnection T P) :=
  if s.alive && (!s.sameLoop || s.inUserCode || s.idle && s.phase = .polling) then
    let s' := { s with alive := false, inMap := false }
    some (if s.inMap then
        if s.sameLoop then { s' with task := some .connectDestoryed }
        else s'.queueInLoop .connectDestoryed
      else s')
  else none

/-! ### Threads of the user -/

variable [DecidableEq T]

/-- The thread may call `send` and `shutdown`. -/
def mayCall (caller : Option T) : Bool :=
  s.published && match caller with
    | none => s.inUserCode
    | some t => (s.calls t).isNone

/-- `TcpConnection::send` up to the load of `state_`. On the thread of the loop `sendInLoop` is
next; another thread is about to queue it. -/
def send (caller : Option T) (p : P) (len : ℕ) : Option (ServerConnection T P) :=
  if s.mayCall caller then
    if s.conn.state_ = .kConnected then
      let m : Message P := ⟨p, bytesAt s.mem p len⟩
      let s' := s.log (.accepted m.held)
      some (match caller with
        | none => { s' with task := some (.sendInLoop m) }
        | some t => { s' with calls := Function.update s.calls t (some (.sendInLoop m)) })
    else some s
  else none

/-- `TcpConnection::shutdown` up to the load of `state_`. -/
def shutdown (caller : Option T) : Option (ServerConnection T P) :=
  if s.mayCall caller then
    if s.conn.state_ = .kConnected then
      some (match caller with
        | none => { s with task := some .setDisconnecting }
        | some t => { s with calls := Function.update s.calls t (some .setDisconnecting) })
    else some s
  else none

/-- The next step of the call by the thread `t`: the store of `state_`, or `emplace_back`. -/
def proceed (t : T) : Option (ServerConnection T P) :=
  match s.calls t with
  | some .setDisconnecting => some { s with
      conn := s.conn.setState .kDisconnecting
      calls := Function.update s.calls t (some .shutdownInLoop) }
  | some .shutdownInLoop =>
    some { s.queueInLoop .shutdownInLoop with calls := Function.update s.calls t none }
  | some (.sendInLoop m) =>
    some { s.queueInLoop (.sendInLoop m) with calls := Function.update s.calls t none }
  | none => none

/-- The steps of the threads. `poll`, `handleEvent`, `handleOther`, `swap`, `functor`, `callback`,
`task` and `resume` are those of the loop's thread. A user may modify the memory of its strings and
queue other functors at any time. -/
inductive Action (T P : Type*)
  | poll (revents : Option EventMask)
  | handleEvent
  | handleOther
  | swap
  | functor
  | callback (n : ReadResult) (r : WriteResult)
  | task (r : WriteResult)
  | resume
  | send (caller : Option T) (p : P) (len : ℕ)
  | shutdown (caller : Option T)
  | proceed (t : T)
  | queueInLoop
  | modify (p : P) (bytes : ℕ → UInt8)
  | removeConnectionInLoop
  | destroyServer

/-- One step of some thread. -/
def step {T P : Type*} [DecidableEq T] [DecidableEq P] (s : ServerConnection T P) :
    Action T P → Option (ServerConnection T P)
  | .poll revents => s.poll revents
  | .handleEvent => s.handleEvent
  | .handleOther => s.handleOther
  | .swap => s.swap
  | .functor => s.functor
  | .callback n r => s.callback n r
  | .task r => s.task.bind (s.exec r)
  | .resume => s.resume
  | .send caller p len => s.send caller p len
  | .shutdown caller => s.shutdown caller
  | .proceed t => s.proceed t
  | .queueInLoop => some (s.queueInLoop .user)
  | .modify p bytes => some { s with mem := Function.update s.mem p bytes }
  | .removeConnectionInLoop => s.removeConnectionInLoop
  | .destroyServer => s.destroyServer

/-! ### What a step can do -/

/-- The transitions, one constructor for each branch of the code. -/
inductive Moves {T P : Type*} [DecidableEq T] [DecidableEq P] (s : ServerConnection T P) :
    Action T P → ServerConnection T P → Prop
  | poll {revents} (hphase : s.phase = .polling) (htask : s.task = none) (hstack : s.stack = [])
      (hreport : ∀ m, revents = some m → s.mayReport m = true) :
      Moves s (.poll revents) { s with phase := .events revents }
  | handleEvent {m} (hphase : s.phase = .events (some m)) (htask : s.task = none)
      (hstack : s.stack = []) :
      Moves s .handleEvent { s with phase := .handleEvent m.handleEventWithGuard }
  | handleOther {m} (hphase : s.phase = .events m) (htask : s.task = none) (hstack : s.stack = []) :
      Moves s .handleOther { s with stack := [.userCode] }
  | swap (hphase : s.phase = .events none) (htask : s.task = none) (hstack : s.stack = [])
      (hbatch : s.queue.batch = []) :
      Moves s .swap { s with phase := .functors, queue := s.queue.swap }
  | functor {f q} (hphase : s.phase = .functors) (htask : s.task = none) (hstack : s.stack = [])
      (hpop : s.queue.pop = some (f, q)) :
      Moves s .functor { s with queue := q, task := f.task, stack := f.frames }
  | functors (hphase : s.phase = .functors) (htask : s.task = none) (hstack : s.stack = []) :
      Moves s .functor { s with phase := .polling }
  | handled {n r} (hphase : s.phase = .handleEvent []) (htask : s.task = none)
      (hstack : s.stack = []) : Moves s (.callback n r) { s with phase := .events none }
  | handleClose {n r h handlers} (hphase : s.phase = .handleEvent (h :: handlers))
      (htask : s.task = none) (hstack : s.stack = [])
      (hclose : h = .closecallback_ ∨ h = .readcallback_ ∧ n = .zero) :
      Moves s (.callback n r) (s.handleClose handlers)
  | handleError {n r h handlers} (hphase : s.phase = .handleEvent (h :: handlers))
      (htask : s.task = none) (hstack : s.stack = []) :
      Moves s (.callback n r) { s with phase := .handleEvent handlers }
  | messageCallback {n r h handlers} (hphase : s.phase = .handleEvent (h :: handlers))
      (htask : s.task = none) (hstack : s.stack = []) :
      Moves s (.callback n r) { s with phase := .handleEvent handlers, stack := [.userCode] }
  | handlewrite {n r handlers} (hphase : s.phase = .handleEvent (.writecallback_ :: handlers))
      (htask : s.task = none) (hstack : s.stack = []) :
      Moves s (.callback n r) (s.handlewrite handlers r)
  | connectEstablished {r} (htask : s.task = some .connectEstablished) :
      Moves s (.task r) s.connectEstablished
  | connectDestoryed {r} (htask : s.task = some .connectDestoryed) :
      Moves s (.task r) s.connectDestoryed
  | disconnect {r} (htask : s.task = some .disconnect) : Moves s (.task r) s.disconnect
  | connectionCallback {r} (htask : s.task = some .connectionCallback) :
      Moves s (.task r) s.connectionCallback
  | eraseOnLoop {r} (htask : s.task = some .removeConnectionInLoop) (halive : s.alive = true) :
      Moves s (.task r) { s.erase with task := some .connectDestoryed }
  | sendInLoop {r m} (htask : s.task = some (.sendInLoop m)) : Moves s (.task r) (s.sendInLoop m r)
  | setDisconnectingOnLoop {r} (htask : s.task = some .setDisconnecting) :
      Moves s (.task r) s.setDisconnecting
  | shutdownInLoop {r} (htask : s.task = some .shutdownInLoop) :
      Moves s (.task r) s.shutdownInLoop
  | shutdownIfDisconnecting {r} (htask : s.task = some .shutdownIfDisconnecting) :
      Moves s (.task r) s.shutdownIfDisconnecting
  | established {stack} (htask : s.task = none) (hstack : s.stack = .established :: stack) :
      Moves s .resume { s with stack := stack, trace := s.trace ++ [.established] }
  | closeOnLoop {stack} (htask : s.task = none) (hstack : s.stack = .closeCallback :: stack)
      (halive : s.alive = true) :
      Moves s .resume { s with task := some .removeConnectionInLoop, stack := stack }
  | closeFrom {stack} (htask : s.task = none) (hstack : s.stack = .closeCallback :: stack)
      (halive : s.alive = true) :
      Moves s .resume { s with baseLoop := s.baseLoop + 1, stack := stack }
  | removeChannel {stack} (htask : s.task = none) (hstack : s.stack = .removeChannel :: stack) :
      Moves s .resume { s with
        conn := s.conn.removeChannel
        stack := stack
        trace := s.trace ++ [.destroyed] }
  | userCode {stack} (htask : s.task = none) (hstack : s.stack = .userCode :: stack) :
      Moves s .resume { s with stack := stack }
  | sendRefused {caller p len} (hstate : s.conn.state_ ≠ .kConnected) :
      Moves s (.send caller p len) s
  | sendOnLoop {p len} (hmay : s.mayCall none = true) (hstate : s.conn.state_ = .kConnected) :
      Moves s (.send none p len) { s.log (.accepted (bytesAt s.mem p len)) with
        task := some (.sendInLoop ⟨p, bytesAt s.mem p len⟩) }
  | sendFrom {t p len} (hmay : s.mayCall (some t) = true) (hstate : s.conn.state_ = .kConnected) :
      Moves s (.send (some t) p len) { s.log (.accepted (bytesAt s.mem p len)) with
        calls := Function.update s.calls t (some (.sendInLoop ⟨p, bytesAt s.mem p len⟩)) }
  | shutdownRefused {caller} (hstate : s.conn.state_ ≠ .kConnected) : Moves s (.shutdown caller) s
  | shutdownOnLoop (hmay : s.mayCall none = true) (hstate : s.conn.state_ = .kConnected) :
      Moves s (.shutdown none) { s with task := some .setDisconnecting }
  | shutdownFrom {t} (hmay : s.mayCall (some t) = true) (hstate : s.conn.state_ = .kConnected) :
      Moves s (.shutdown (some t)) { s with
        calls := Function.update s.calls t (some .setDisconnecting) }
  | setDisconnecting {t} (hcall : s.calls t = some .setDisconnecting) :
      Moves s (.proceed t) { s with
        conn := s.conn.setState .kDisconnecting
        calls := Function.update s.calls t (some .shutdownInLoop) }
  | queueShutdown {t} (hcall : s.calls t = some .shutdownInLoop) : Moves s (.proceed t)
      { s.queueInLoop .shutdownInLoop with calls := Function.update s.calls t none }
  | queueSend {t m} (hcall : s.calls t = some (.sendInLoop m)) : Moves s (.proceed t)
      { s.queueInLoop (.sendInLoop m) with calls := Function.update s.calls t none }
  | queueInLoop : Moves s .queueInLoop (s.queueInLoop .user)
  | modify {p bytes} : Moves s (.modify p bytes) { s with mem := Function.update s.mem p bytes }
  | eraseFrom (halive : s.alive = true) (hloop : s.baseLoop > 0) :
      Moves s .removeConnectionInLoop
        ({ s.erase with baseLoop := s.baseLoop - 1 }.queueInLoop .connectDestoryed)
  | destroyUnmapped (hmap : s.inMap = false) :
      Moves s .destroyServer { s with alive := false, inMap := false }
  | destroyOnLoop (hmap : s.inMap = true) (hloop : s.sameLoop = true)
      (htask : s.task = none) (hstack : s.stack.head? = some .userCode ∨ s.stack = []) :
      Moves s .destroyServer { s with
        alive := false, inMap := false, task := some .connectDestoryed }
  | destroyFrom (hmap : s.inMap = true) :
      Moves s .destroyServer
        ({ s with alive := false, inMap := false }.queueInLoop .connectDestoryed)

variable {s} {s' : ServerConnection T P}

omit [DecidableEq T] in
theorem inUserCode_iff :
    s.inUserCode = true ↔ s.task = none ∧ ∃ stack, s.stack = .userCode :: stack := by
  simp only [inUserCode, Bool.and_eq_true, Option.isNone_iff_eq_none, beq_iff_eq]
  cases s.stack <;> simp [List.head?]

omit [DecidableEq T] in
theorem mayCall_none : s.mayCall none = true ↔
    s.published = true ∧ s.task = none ∧ ∃ stack, s.stack = .userCode :: stack := by
  simp [mayCall, inUserCode_iff]

omit [DecidableEq T] in
theorem mayCall_some {t : T} :
    s.mayCall (some t) = true ↔ s.published = true ∧ s.calls t = none := by
  simp [mayCall]

section Moves

variable [DecidableEq P]

private theorem moves_of_poll {revents : Option EventMask} (h : s.poll revents = some s') :
    Moves s (.poll revents) s' := by
  simp only [poll] at h
  split at h
  case h_1 hphase =>
    simp only [Option.ite_none_right_eq_some, Bool.and_eq_true, idle_iff, Option.all_eq_true,
      Option.some.injEq] at h
    obtain ⟨⟨⟨htask, hstack⟩, hreport⟩, rfl⟩ := h
    exact .poll hphase htask hstack hreport
  case h_2 => exact absurd h (by simp)

private theorem moves_of_handleEvent (h : s.handleEvent = some s') : Moves s .handleEvent s' := by
  simp only [handleEvent] at h
  split at h
  case h_1 hphase =>
    simp only [Option.ite_none_right_eq_some, idle_iff, Option.some.injEq] at h
    obtain ⟨⟨htask, hstack⟩, rfl⟩ := h
    exact .handleEvent hphase htask hstack
  case h_2 => exact absurd h (by simp)

private theorem moves_of_handleOther (h : s.handleOther = some s') : Moves s .handleOther s' := by
  simp only [handleOther] at h
  split at h
  case h_1 hphase =>
    simp only [Option.ite_none_right_eq_some, idle_iff, Option.some.injEq] at h
    obtain ⟨⟨htask, hstack⟩, rfl⟩ := h
    exact .handleOther hphase htask hstack
  case h_2 => exact absurd h (by simp)

private theorem moves_of_swap (h : s.swap = some s') : Moves s .swap s' := by
  simp only [swap] at h
  split at h
  case h_1 hphase =>
    simp only [Option.ite_none_right_eq_some, Bool.and_eq_true, idle_iff, List.isEmpty_iff,
      Option.some.injEq] at h
    obtain ⟨⟨⟨htask, hstack⟩, hbatch⟩, rfl⟩ := h
    exact .swap hphase htask hstack hbatch
  case h_2 => exact absurd h (by simp)

private theorem moves_of_functor (h : s.functor = some s') : Moves s .functor s' := by
  simp only [functor] at h
  split at h
  case h_1 hphase =>
    simp only [Option.ite_none_right_eq_some, idle_iff] at h
    obtain ⟨⟨htask, hstack⟩, h⟩ := h
    split at h
    case h_1 hpop =>
      simp only [Option.ite_none_right_eq_some, Option.some.injEq] at h
      obtain ⟨-, rfl⟩ := h
      exact .functor hphase htask hstack hpop
    case h_2 =>
      obtain rfl := Option.some.inj h
      exact .functors hphase htask hstack
  case h_2 => exact absurd h (by simp)

private theorem moves_of_callback {n : ReadResult} {r : WriteResult}
    (h : s.callback n r = some s') : Moves s (.callback n r) s' := by
  simp only [callback] at h
  split at h
  case h_6 => exact absurd h (by simp)
  all_goals
    rename_i hphase
    simp only [Option.ite_none_right_eq_some, idle_iff, Option.some.injEq] at h
    obtain ⟨⟨htask, hstack⟩, rfl⟩ := h
  · exact .handled hphase htask hstack
  · exact .handleClose hphase htask hstack (.inl rfl)
  · exact .handleError hphase htask hstack
  · cases n with
    | positive => exact .messageCallback hphase htask hstack
    | zero => exact .handleClose hphase htask hstack (.inr ⟨rfl, rfl⟩)
    | negative => exact .handleError hphase htask hstack
  · exact .handlewrite hphase htask hstack

private theorem moves_of_resume (h : s.resume = some s') : Moves s .resume s' := by
  simp only [resume] at h
  split at h
  case h_1 htask hstack =>
    obtain rfl := Option.some.inj h
    exact .established htask hstack
  case h_2 htask hstack =>
    simp only [Option.ite_none_right_eq_some, Option.some.injEq] at h
    obtain ⟨halive, rfl⟩ := h
    split_ifs
    · exact .closeOnLoop htask hstack halive
    · exact .closeFrom htask hstack halive
  case h_3 htask hstack =>
    obtain rfl := Option.some.inj h
    exact .removeChannel htask hstack
  case h_4 htask hstack =>
    obtain rfl := Option.some.inj h
    exact .userCode htask hstack
  case h_5 => exact absurd h (by simp)

private theorem moves_of_send {caller : Option T} {p : P} {len : ℕ}
    (h : s.send caller p len = some s') : Moves s (.send caller p len) s' := by
  simp only [send] at h
  split_ifs at h with hmay hstate
  · cases caller with
    | none =>
      obtain rfl := Option.some.inj h
      exact .sendOnLoop hmay hstate
    | some t =>
      obtain rfl := Option.some.inj h
      exact .sendFrom hmay hstate
  · obtain rfl := Option.some.inj h
    exact .sendRefused hstate

private theorem moves_of_shutdown {caller : Option T} (h : s.shutdown caller = some s') :
    Moves s (.shutdown caller) s' := by
  simp only [shutdown] at h
  split_ifs at h with hmay hstate
  · cases caller with
    | none =>
      obtain rfl := Option.some.inj h
      exact .shutdownOnLoop hmay hstate
    | some t =>
      obtain rfl := Option.some.inj h
      exact .shutdownFrom hmay hstate
  · obtain rfl := Option.some.inj h
    exact .shutdownRefused hstate

private theorem moves_of_proceed {t : T} (h : s.proceed t = some s') : Moves s (.proceed t) s' := by
  simp only [proceed] at h
  split at h
  case h_1 hcall =>
    obtain rfl := Option.some.inj h
    exact .setDisconnecting hcall
  case h_2 hcall =>
    obtain rfl := Option.some.inj h
    exact .queueShutdown hcall
  case h_3 hcall =>
    obtain rfl := Option.some.inj h
    exact .queueSend hcall
  case h_4 => exact absurd h (by simp)

private theorem moves_of_removeConnectionInLoop (h : s.removeConnectionInLoop = some s') :
    Moves s .removeConnectionInLoop s' := by
  simp only [removeConnectionInLoop, Option.ite_none_right_eq_some, Bool.and_eq_true,
    decide_eq_true_eq, Option.some.injEq] at h
  obtain ⟨⟨⟨halive, -⟩, hloop⟩, rfl⟩ := h
  exact .eraseFrom halive hloop

private theorem moves_of_destroyServer (h : s.destroyServer = some s') :
    Moves s .destroyServer s' := by
  simp only [destroyServer, Option.ite_none_right_eq_some, Bool.and_eq_true, Bool.or_eq_true,
    Option.some.injEq] at h
  obtain ⟨⟨-, hwhere⟩, rfl⟩ := h
  split_ifs with hmap hloop
  · rw [hloop] at hwhere
    simp only [Bool.not_true, Bool.false_eq_true, false_or, idle_iff, inUserCode_iff] at hwhere
    rcases hwhere with ⟨htask, stack, hstack⟩ | ⟨⟨htask, hstack⟩, -⟩
    · exact .destroyOnLoop hmap hloop htask (.inl (by simp [hstack]))
    · exact .destroyOnLoop hmap hloop htask (.inr hstack)
  · exact .destroyFrom hmap
  · exact .destroyUnmapped (by simpa using hmap)

private theorem moves_of_exec {t : Task P} {r : WriteResult} (htask : s.task = some t)
    (h : s.exec r t = some s') : Moves s (.task r) s' := by
  cases t with
  | removeConnectionInLoop =>
    simp only [exec, Option.ite_none_right_eq_some, Option.some.injEq] at h
    obtain ⟨halive, rfl⟩ := h
    exact .eraseOnLoop htask halive
  | connectEstablished => exact Option.some.inj h ▸ .connectEstablished htask
  | connectDestoryed => exact Option.some.inj h ▸ .connectDestoryed htask
  | disconnect => exact Option.some.inj h ▸ .disconnect htask
  | connectionCallback => exact Option.some.inj h ▸ .connectionCallback htask
  | sendInLoop m => exact Option.some.inj h ▸ .sendInLoop htask
  | setDisconnecting => exact Option.some.inj h ▸ .setDisconnectingOnLoop htask
  | shutdownInLoop => exact Option.some.inj h ▸ .shutdownInLoop htask
  | shutdownIfDisconnecting => exact Option.some.inj h ▸ .shutdownIfDisconnecting htask

/-- Every step is one of the transitions. -/
theorem moves_of_step {a : Action T P} (h : s.step a = some s') : Moves s a s' := by
  cases a with
  | poll revents => exact moves_of_poll h
  | handleEvent => exact moves_of_handleEvent h
  | handleOther => exact moves_of_handleOther h
  | swap => exact moves_of_swap h
  | functor => exact moves_of_functor h
  | callback n r => exact moves_of_callback h
  | task r =>
    obtain ⟨t, htask, hexec⟩ := Option.bind_eq_some_iff.mp h
    exact moves_of_exec htask hexec
  | resume => exact moves_of_resume h
  | send caller p len => exact moves_of_send h
  | shutdown caller => exact moves_of_shutdown h
  | proceed t => exact moves_of_proceed h
  | queueInLoop =>
    obtain rfl := Option.some.inj h
    exact .queueInLoop
  | modify p bytes =>
    obtain rfl := Option.some.inj h
    exact .modify
  | removeConnectionInLoop => exact moves_of_removeConnectionInLoop h
  | destroyServer => exact moves_of_destroyServer h

end Moves

end ServerConnection

end TinyMuduo
