import Mathlib.Logic.Function.Basic
import TinyMuduo.Library.StagedQueue

/-!
# The event loop and its queue of functors

`Eventloop::loop` (`resoure/Eventloop.cpp`) polls, runs the handlers of the active channels and
then the functors queued by `Eventloop::queueInLoop`. This file embeds the loop, one step for each
access to the data that it shares with other threads: the stores to `looping_`, `quit_` and
`callingPendingFunctors_`, the sections under `m_mutex` and the accesses to `wakeupfd_`. Any number
of threads call `queueInLoop`, `runInLoop` and `quit` in between; the thread of the loop makes such
calls before the loop, from a handler or from a functor.

The list of the functors that were queued is then the queue of a `StagedQueue`: the swap under the
mutex exchanges the batch of `doPendingFunctors` with `pendingFunctions_`.

The timers, the channels other than `wakeupChannel_` and `threadID_` are left out: a handler is
known by the calls that it makes.

## Main definitions

* `LoopPc`: where the thread of the loop stands.
* `Eventloop`, `Eventloop.queueInLoop`, `Eventloop.runInLoop`, `Eventloop.quit`,
  `Eventloop.wakeup`, `Eventloop.handleRead`, `Eventloop.poll`, `Eventloop.loop`.
* `Eventloop.Action`, `Eventloop.step`: the interleavings of the threads.
* `Eventloop.history`: the queue of functors, as a staged queue with its history.

## Main results

* `Eventloop.reaches_history`: a run of the loop is a run of the staged queue.
* `Eventloop.queued_conserved`: nothing is lost, duplicated or reordered, and a functor runs in a
  batch formed after it was queued.
-/

namespace TinyMuduo

/-- Where the thread of an event loop stands. The batch of `doPendingFunctors` is its local variable
`functors` from the functor that is called next. -/
inductive LoopPc (F : Type*)
  | outside
  | looping
  | condition
  | polling
  | events (wakeupActive : Bool)
  | calling
  | swapping
  | functors (rest : List F)
  | functor (cb : F) (rest : List F)

namespace LoopPc

variable {F : Type*}

/-- The functors of the batch that have not been called. -/
def batch : LoopPc F → List F
  | functors rest | functor _ rest => rest
  | _ => []

/-- The thread of the loop is in code of the user, which may call the loop. -/
def inUserCode : LoopPc F → Bool
  | outside | events _ | functor _ _ => true
  | _ => false

end LoopPc

/-- An event loop with functors of type `F`, shared by its own thread and those of the type `T`.
`notifying` holds of the threads that have done the first half of `queueInLoop` or `quit` and not
the wakeup; `queued` and `executed` list the functors in the order in which they were emplaced and
called, each with the number `batches` of swaps before. -/
structure Eventloop (T F : Type*) where
  looping_ : Bool
  quit_ : Bool
  callingPendingFunctors_ : Bool
  pendingFunctions_ : List F
  wakeupfd_ : ℕ
  pc : LoopPc F
  notifying : Option T → Bool
  batches : ℕ
  queued : List (F × ℕ)
  executed : List (F × ℕ)

/-- `Eventloop::isInLoopThread`: the thread of the loop is `none`. -/
def isInLoopThread {T : Type*} (caller : Option T) : Bool :=
  caller.isNone

namespace Eventloop

variable {T F : Type*}

/-- The loop that the constructor makes. -/
def init : Eventloop T F :=
  ⟨false, false, false, [], 0, .outside, fun _ => false, 0, [], []⟩

variable (e : Eventloop T F)

/-- The thread may make a call: it has returned from the last one and, when it is the thread of the
loop, it is in code of the user. -/
def mayCall (caller : Option T) : Bool :=
  !e.notifying caller && (!isInLoopThread caller || e.pc.inUserCode)

/-- `Eventloop::wakeup`, with `wakeupfd_` as the counter of the eventfd. -/
def wakeup : Eventloop T F :=
  { e with wakeupfd_ := e.wakeupfd_ + 1 }

section Calls

variable [DecidableEq T]

/-- `Eventloop::queueInLoop` up to the end of the section under the mutex. -/
def queueInLoop (caller : Option T) (cb : F) : Option (Eventloop T F) :=
  if e.mayCall caller then
    some { e with
      pendingFunctions_ := e.pendingFunctions_ ++ [cb]
      notifying := Function.update e.notifying caller true
      queued := e.queued ++ [(cb, e.batches)] }
  else none

/-- `Eventloop::runInLoop`. In the thread of the loop `cb` runs in place: what it calls are the
next calls of that thread. -/
def runInLoop (caller : Option T) (cb : F) : Option (Eventloop T F) :=
  if isInLoopThread caller then
    if e.mayCall caller then some e else none
  else e.queueInLoop caller cb

/-- `Eventloop::quit` up to the test of the thread. -/
def quit (caller : Option T) : Option (Eventloop T F) :=
  if e.mayCall caller then
    some { e with
      quit_ := true
      notifying := Function.update e.notifying caller (!isInLoopThread caller) }
  else none

/-- The end of `queueInLoop` and `quit`: the test whether to wake the loop, and the wakeup. -/
def notify (caller : Option T) : Option (Eventloop T F) :=
  if e.notifying caller then
    let e' := { e with notifying := Function.update e.notifying caller false }
    some (if !isInLoopThread caller || e.callingPendingFunctors_ then e'.wakeup else e')
  else none

end Calls

/-- `poller_->poll` returns; `wakeupChannel_` is active only when its eventfd is readable. -/
def poll (wakeupActive : Bool) : Option (Eventloop T F) :=
  match e.pc with
  | .polling =>
    if wakeupActive && e.wakeupfd_ == 0 then none else some { e with pc := .events wakeupActive }
  | _ => none

/-- `Eventloop::handleRead`, the handler of `wakeupChannel_`. -/
def handleRead : Option (Eventloop T F) :=
  match e.pc with
  | .events true =>
    if e.notifying none then none else some { e with wakeupfd_ := 0, pc := .events false }
  | _ => none

/-- The next step of the thread of the loop in `Eventloop::loop` and
`Eventloop::doPendingFunctors`, the return of the handlers and of a functor included. -/
def loop : Option (Eventloop T F) :=
  match e.pc with
  | .outside =>
    if e.notifying none then none else some { e with looping_ := true, pc := .looping }
  | .looping => some { e with quit_ := false, pc := .condition }
  | .condition =>
    if e.quit_ then some { e with looping_ := false, pc := .outside }
    else some { e with pc := .polling }
  | .polling | .events true => none
  | .events false => if e.notifying none then none else some { e with pc := .calling }
  | .calling => some { e with callingPendingFunctors_ := true, pc := .swapping }
  | .swapping =>
    some { e with
      pendingFunctions_ := []
      pc := .functors e.pendingFunctions_
      batches := e.batches + 1 }
  | .functors (cb :: rest) =>
    some { e with pc := .functor cb rest, executed := e.executed ++ [(cb, e.batches)] }
  | .functors [] => some { e with callingPendingFunctors_ := false, pc := .condition }
  | .functor _ rest => if e.notifying none then none else some { e with pc := .functors rest }

/-- The steps of the threads. -/
inductive Action (T F : Type*)
  | queueInLoop (caller : Option T) (cb : F)
  | runInLoop (caller : Option T) (cb : F)
  | quit (caller : Option T)
  | notify (caller : Option T)
  | poll (wakeupActive : Bool)
  | handleRead
  | loop

/-- One step of some thread. -/
def step {T F : Type*} [DecidableEq T] (e : Eventloop T F) : Action T F → Option (Eventloop T F)
  | .queueInLoop caller cb => e.queueInLoop caller cb
  | .runInLoop caller cb => e.runInLoop caller cb
  | .quit caller => e.quit caller
  | .notify caller => e.notify caller
  | .poll wakeupActive => e.poll wakeupActive
  | .handleRead => e.handleRead
  | .loop => e.loop

/-- The queue of functors with its history. -/
def history : StagedQueue.History F :=
  ⟨⟨e.pc.batch, e.pendingFunctions_⟩, e.batches, e.queued, e.executed⟩

/-! ### The queue of functors -/

open Transition StagedQueue

variable {e} {e' : Eventloop T F}

section Calls

variable [DecidableEq T] {caller : Option T} {cb : F}

theorem history_queueInLoop (h : e.queueInLoop caller cb = some e') :
    e.history.step (.push cb) = some e'.history := by
  obtain ⟨-, h⟩ := Option.ite_none_right_eq_some.mp h
  obtain rfl := Option.some.inj h
  rfl

theorem history_runInLoop (h : e.runInLoop caller cb = some e') :
    e'.history = e.history ∨ e.history.step (.push cb) = some e'.history := by
  simp only [runInLoop] at h
  split_ifs at h with hcaller hmay
  · obtain rfl := Option.some.inj h
    exact .inl rfl
  · exact .inr (history_queueInLoop h)

theorem history_quit (h : e.quit caller = some e') : e'.history = e.history := by
  obtain ⟨-, h⟩ := Option.ite_none_right_eq_some.mp h
  obtain rfl := Option.some.inj h
  rfl

theorem history_notify (h : e.notify caller = some e') : e'.history = e.history := by
  obtain ⟨-, h⟩ := Option.ite_none_right_eq_some.mp h
  obtain rfl := Option.some.inj h
  split_ifs <;> rfl

end Calls

theorem history_poll {wakeupActive : Bool} (h : e.poll wakeupActive = some e') :
    e'.history = e.history := by
  cases hpc : e.pc <;> simp only [poll, hpc, reduceCtorEq] at h
  obtain ⟨-, h⟩ := Option.ite_none_left_eq_some.mp h
  obtain rfl := Option.some.inj h
  simp [history, hpc, LoopPc.batch]

theorem history_handleRead (h : e.handleRead = some e') : e'.history = e.history := by
  unfold handleRead at h
  split at h
  case h_1 hpc =>
    obtain ⟨-, h⟩ := Option.ite_none_left_eq_some.mp h
    obtain rfl := Option.some.inj h
    simp [history, hpc, LoopPc.batch]
  case h_2 => exact absurd h (by simp)

/-- The thread of the loop touches the queue of functors in two places: the swap, and the call of
the next functor of the batch. -/
theorem history_loop (h : e.loop = some e') :
    e'.history = e.history ∨ e.history.step .swap = some e'.history ∨
      e.history.step .pop = some e'.history := by
  cases hpc : e.pc with
  | swapping =>
    simp only [loop, hpc, Option.some.injEq] at h
    subst h
    exact .inr (.inl (by simp [history, History.step, hpc, LoopPc.batch, StagedQueue.swap]))
  | functors rest =>
    cases rest with
    | nil =>
      simp only [loop, hpc, Option.some.injEq] at h
      subst h
      exact .inl (by simp [history, hpc, LoopPc.batch])
    | cons cb rest =>
      simp only [loop, hpc, Option.some.injEq] at h
      subst h
      exact .inr (.inr (by simp [history, History.step, hpc, LoopPc.batch, StagedQueue.pop]))
  | _ => exact .inl (by grind [loop, history, LoopPc.batch])

variable [DecidableEq T]

/-- A step of the threads is at most one operation of the staged queue. -/
theorem history_step {a : Action T F} (h : e.step a = some e') :
    e'.history = e.history ∨ ∃ op, e.history.step op = some e'.history := by
  cases a with
  | queueInLoop caller cb => exact .inr ⟨_, history_queueInLoop h⟩
  | runInLoop caller cb => exact (history_runInLoop h).imp_right fun hop => ⟨_, hop⟩
  | quit caller => exact .inl (history_quit h)
  | notify caller => exact .inl (history_notify h)
  | poll wakeupActive => exact .inl (history_poll h)
  | handleRead => exact .inl (history_handleRead h)
  | loop =>
    rcases history_loop h with hop | hop | hop
    · exact .inl hop
    · exact .inr ⟨_, hop⟩
    · exact .inr ⟨_, hop⟩

/-- A run of the threads is a run of the staged queue. -/
theorem reaches_history (h : Reaches (ofStep step) anyLabel (init : Eventloop T F) e) :
    Reaches (ofStep History.step) anyLabel History.init e.history :=
  h.map history fun u _ v _ _ hstep => by
    rcases history_step hstep with hop | ⟨op, hop⟩
    · exact hop ▸ Reaches.refl _
    · exact (Reaches.refl _).snoc trivial hop

/-- While a functor runs it is the last one executed, in the batch formed last. -/
def RunsLast (e : Eventloop T F) : Prop :=
  ∀ cb rest, e.pc = .functor cb rest → e.executed.getLast? = some (cb, e.batches)

omit [DecidableEq T] in
private theorem runsLast_loop (h : e.loop = some e') : e'.RunsLast := by
  intro cb rest hpc'
  cases hpc : e.pc with
  | functors rest => cases rest <;> grind [loop]
  | _ => grind [loop]

theorem RunsLast.step (hr : e.RunsLast) {a : Action T F} (h : e.step a = some e') :
    e'.RunsLast := by
  cases a with
  | loop => exact runsLast_loop h
  | queueInLoop caller cb =>
    obtain ⟨-, h⟩ := Option.ite_none_right_eq_some.mp h
    obtain rfl := Option.some.inj h
    exact hr
  | runInLoop caller cb =>
    simp only [Eventloop.step, runInLoop] at h
    split_ifs at h with hcaller hmay
    · obtain rfl := Option.some.inj h
      exact hr
    · obtain ⟨-, h⟩ := Option.ite_none_right_eq_some.mp h
      obtain rfl := Option.some.inj h
      exact hr
  | quit caller =>
    obtain ⟨-, h⟩ := Option.ite_none_right_eq_some.mp h
    obtain rfl := Option.some.inj h
    exact hr
  | notify caller =>
    obtain ⟨-, h⟩ := Option.ite_none_right_eq_some.mp h
    obtain rfl := Option.some.inj h
    split_ifs <;> exact hr
  | poll wakeupActive =>
    intro cb rest hpc
    grind [Eventloop.step, Eventloop.poll]
  | handleRead =>
    intro cb rest hpc
    grind [Eventloop.step, Eventloop.handleRead]

/-- The functors queued are those executed, the rest of the batch and `pendingFunctions_`, in this
order. The `i`-th functor executed is the `i`-th one queued, and its batch was formed after it was
queued: a functor queued while another one runs, in the batch formed last, is in a later batch. -/
theorem queued_conserved (h : Reaches (ofStep step) anyLabel (init : Eventloop T F) e) :
    e.queued.map Prod.fst =
        e.executed.map Prod.fst ++ (e.pc.batch ++ e.pendingFunctions_) ∧
      (∀ (i : ℕ) (y : F × ℕ), e.executed[i]? = some y →
        ∃ x, e.queued[i]? = some x ∧ x.1 = y.1 ∧ x.2 < y.2) ∧
      ∀ cb rest, e.pc = .functor cb rest → e.executed.getLast? = some (cb, e.batches) := by
  have hc : e.history.Conserved := History.conserved_of_reaches (reaches_history h)
  exact ⟨hc.pushed_eq, fun _ _ hy => hc.stamp_lt hy,
    h.invariant (I := RunsLast) (fun _ _ hpc => absurd hpc (by simp [init]))
      fun _ _ _ hr _ hstep => hr.step hstep⟩

/-- Another thread queues 7; while it runs, it queues 8, which waits for the next batch. -/
theorem queued_conserved_seven_eight :
    ∃ e : Eventloop Unit ℕ, e.executed = [(7, 1)] ∧ e.pendingFunctions_ = [8] ∧
      e.queued.map Prod.fst =
        e.executed.map Prod.fst ++ (e.pc.batch ++ e.pendingFunctions_) := by
  have hinit : Reaches (ofStep step) anyLabel (init : Eventloop Unit ℕ) init := Reaches.refl _
  have hqueue := (hinit.snoc (a := .queueInLoop (some ()) 7) trivial rfl).snoc
    (a := .notify (some ())) trivial rfl
  have hpoll := (((hqueue.snoc (a := .loop) trivial rfl).snoc (a := .loop) trivial rfl).snoc
    (a := .loop) trivial rfl).snoc (a := .poll false) trivial rfl
  have hrun := (((hpoll.snoc (a := .loop) trivial rfl).snoc (a := .loop) trivial rfl).snoc
    (a := .loop) trivial rfl).snoc (a := .loop) trivial rfl
  exact ⟨_, rfl, rfl, (queued_conserved (hrun.snoc (a := .queueInLoop none 8) trivial rfl)).1⟩

end Eventloop

end TinyMuduo
