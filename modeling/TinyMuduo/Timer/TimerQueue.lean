import Mathlib.Logic.Function.Basic
import TinyMuduo.Library.Transition
import TinyMuduo.Timer.Timer

/-!
# The timer queue

`TimerQueue` (`resoure/TimerQueue.cpp`) keeps its timers in two sets, `timers_` by expiration and
`activeTimers_` by address. When the timerfd is readable, `handleRead` moves a prefix of `timers_`
to the local vector `expired`, runs the callbacks, and then `reset` puts the timers that repeat back
and deletes the others. A callback may construct, add and cancel timers; a cancel of a timer that is
in no set is kept in `caneclingTimers_` until the batch is reset.

This file embeds the member functions, with the constructions of timers by any number of threads.
The store to a freshly constructed timer, the increment of `s_numCreated` and its load are steps of
their own. A timer that has been constructed is in flight until the thread of the loop executes
`addTimerInLoop` for it, in any order; its `TimerId` is the pair of its address and the number that
the constructor has loaded. The addresses are those of an allocator that may give the address of a
deleted timer away at once.

An access to a timer that does not exist, an assertion that fails and an access through `end()` are
faults. The address of the `Timer` that `getExpired` makes for its search is the argument
`sentinel`.

## Main definitions

* `Fault`, `TimerQueue`, with one definition for each member function of the class.
* `TimerQueue.expired`: the timers that `getExpired` finds.
* `TimerQueue.Action`, `TimerQueue.exec`, `TimerQueue.step`: the steps of the threads.
-/

namespace TinyMuduo

/-- What a member function must not do. -/
inductive Fault
  | assertion
  | dangling
  | endIterator
  deriving DecidableEq

/-- `assert`. -/
def assert (p : Prop) [Decidable p] : Except Fault Unit :=
  if p then .ok () else .error .assertion

/-- What is at an address: memory that is free, memory that has been allocated for a timer, or a
timer. -/
inductive Cell (C : Type)
  | free
  | raw
  | live (timer : Timer C)

/-- A construction of a `Timer` that is not finished: memory has been allocated, and then
`s_numCreated` has been incremented. -/
inductive Making (C : Type)
  | allocated (p : Addr) (cb : C) (when_ : ℤ) (interval : ℚ) (serial : ℕ)
  | counted (p : Addr) (cb : C) (when_ : ℤ) (interval : ℚ) (serial : ℕ)

namespace Making

variable {C : Type}

/-- Where the memory of the timer is. -/
def addr : Making C → Addr
  | allocated p _ _ _ _ | counted p _ _ _ _ => p

/-- The time that the constructor is given. -/
def when_ : Making C → ℤ
  | allocated _ _ when_ _ _ | counted _ _ when_ _ _ => when_

/-- The interval that the constructor is given. -/
def interval : Making C → ℚ
  | allocated _ _ _ interval _ | counted _ _ _ interval _ => interval

/-- The number of the construction. -/
def serial : Making C → ℕ
  | allocated _ _ _ _ serial | counted _ _ _ _ serial => serial

end Making

/-- Where the thread of the loop stands in `handleRead`: outside of it, between two callbacks, in
the callback of the last timer that ran, in `reset`. -/
inductive ReadPhase
  | idle
  | calling (now : ℤ) (ran todo : List Entry)
  | callback (now : ℤ) (ran todo : List Entry)
  | resetting (now : ℤ) (done todo : List Entry)
  deriving DecidableEq

/-- The entries of the vector `expired` that are still used. -/
def ReadPhase.expired : ReadPhase → List Entry
  | idle => []
  | calling _ ran todo | callback _ ran todo => ran ++ todo
  | resetting _ _ todo => todo

/-- The thread of the loop is in code of the user. -/
def ReadPhase.inUserCode : ReadPhase → Bool
  | idle | callback _ _ _ => true
  | _ => false

/-- What has happened. -/
inductive TimerEvent
  | made (serial : ℕ) (id : TimerId) (interval : ℚ)
  | inserted (serial : ℕ)
  | cancelled (id : TimerId)
  | read
  | ran (serial : ℕ)
  | deleted (serial : ℕ)
  | settime (newValue : Timespec)
  deriving DecidableEq

/-- A `TimerQueue` with the timers of its program, those under construction by the other threads
`T` and by the thread of the loop included. `timerfd_` is the expiration for which the timerfd is
armed. `cancelled` lists the arguments of `cancelInLoop` since the last `handleRead` started,
`born` counts the constructions. -/
structure TimerQueue (T C : Type) where
  timerfd_ : Option ℤ
  timers_ : OrderedSet Entry
  activeTimers_ : OrderedSet TimerId
  caneclingTimers_ : OrderedSet TimerId
  callingExpiredTimers_ : Bool
  heap : Addr → Cell C
  s_numCreated : ℕ
  making : Option T → Option (Making C)
  inFlight : List Addr
  phase : ReadPhase
  cancelled : List TimerId
  born : ℕ
  log : List TimerEvent

namespace TimerQueue

variable {T C : Type}

/-- The constructor. -/
def init : TimerQueue T C :=
  ⟨none, .empty, .empty, .empty, false, fun _ => .free, 0, fun _ => none, [], .idle, [], 0, []⟩

variable (q : TimerQueue T C)

/-- An access to a timer through its address. -/
def deref (p : Addr) : Except Fault (Timer C) :=
  match q.heap p with
  | .live timer => .ok timer
  | .raw | .free => .error .dangling

/-- `delete`. -/
def delete (p : Addr) : Except Fault (TimerQueue T C) := do
  let timer ← q.deref p
  return { q with heap := Function.update q.heap p .free, log := q.log ++ [.deleted timer.serial] }

/-- `resetTimerfd`, with what `Timestamp::now` returns. -/
def resetTimerfd (expiration now : ℤ) : TimerQueue T C :=
  { q with
    timerfd_ := some expiration
    log := q.log ++ [.settime (howMuchTimeFromNow expiration now)] }

/-- `TimerQueue::insert`. -/
def insert (p : Addr) : Except Fault (TimerQueue T C × Bool) := do
  let timer ← q.deref p
  assert (q.timers_.size = q.activeTimers_.size)
  let ear := q.timers_.begin_.all fun it => timer.expiration_ < it.when_
  let result := q.timers_.insert ⟨timer.expiration_, p⟩
  assert (result.2 = true)
  let result' := q.activeTimers_.insert ⟨p, timer.sequence_⟩
  assert (result'.2 = true)
  assert (result.1.size = result'.1.size)
  return ({ q with
    timers_ := result.1
    activeTimers_ := result'.1
    log := q.log ++ [.inserted timer.serial] }, ear)

/-- `TimerQueue::addTimerInLoop`. -/
def addTimerInLoop (p : Addr) (now : ℤ) : Except Fault (TimerQueue T C) := do
  let (q', ear) ← q.insert p
  let timer ← q'.deref p
  return if ear then q'.resetTimerfd timer.expiration_ now else q'

/-- `TimerQueue::cancelInLoop`. -/
def cancelInLoop (timerid : TimerId) : Except Fault (TimerQueue T C) := do
  assert (q.timers_.size = q.activeTimers_.size)
  if timerid ∈ q.activeTimers_ then
    let timer ← q.deref timerid.timer_
    let result := q.timers_.erase ⟨timer.expiration_, timerid.timer_⟩
    assert (result.2 = 1)
    let q' ← { q with timers_ := result.1 }.delete timerid.timer_
    let active := (q.activeTimers_.erase timerid).1
    assert (result.1.size = active.size)
    return { q' with activeTimers_ := active }
  else if q.callingExpiredTimers_ then
    return { q with caneclingTimers_ := (q.caneclingTimers_.insert timerid).1 }
  else return q

/-- The entries that `getExpired` copies to its result. The loop over `timers_` compares with the
entry at `end`, which it reads whether there is one or not. -/
def expired (timers_ : OrderedSet Entry) (now : ℤ) (sentinel : Addr) : Except Fault (List Entry) :=
  match timers_.lowerBound ⟨now, sentinel⟩ with
  | some last =>
    if now < last.when_ then .ok (timers_.toList.takeWhile (·.when_ ≤ last.when_))
    else .error .assertion
  | none => if timers_.size = 0 then .ok [] else .error .endIterator

/-- The second loop of `getExpired`. -/
def eraseExpired (q : TimerQueue T C) : List Entry → Except Fault (TimerQueue T C)
  | [] => .ok q
  | mp :: entries => do
    let timer ← q.deref mp.timer
    eraseExpired { q with
      timers_ := (q.timers_.erase mp).1
      activeTimers_ := (q.activeTimers_.erase ⟨mp.timer, timer.sequence_⟩).1 } entries

/-- `TimerQueue::handleRead` up to the first callback, with `getExpired` taking the first `n`
timers: the read of the timerfd consumes what it was armed for. -/
def handleRead (now : ℤ) (n : ℕ) : Except Fault (TimerQueue T C) := do
  assert (q.timers_.size = q.activeTimers_.size)
  let entries := q.timers_.toList.take n
  let q' ← q.eraseExpired entries
  assert (q'.timers_.size = q'.activeTimers_.size)
  return { q' with
    timerfd_ := none
    callingExpiredTimers_ := true
    caneclingTimers_ := .empty
    phase := .calling now [] entries
    cancelled := []
    log := q.log ++ [.read] }

/-- The call of `Timer::run`. -/
def run (it : Entry) : Except Fault (TimerQueue T C) := do
  let timer ← q.deref it.timer
  return { q with log := q.log ++ [.ran timer.serial] }

/-- The iteration of `TimerQueue::reset` for one entry. -/
def reset (it : Entry) (now : ℤ) : Except Fault (TimerQueue T C) := do
  let timer ← q.deref it.timer
  if timer.repeat_ ∧ ⟨it.timer, timer.sequence_⟩ ∉ q.caneclingTimers_ then
    let (q', _) ←
      { q with heap := Function.update q.heap it.timer (.live (timer.restart now)) }.insert it.timer
    return q'
  else q.delete it.timer

/-- The end of `TimerQueue::reset`. -/
def rearm (now : ℤ) : Except Fault (TimerQueue T C) :=
  match q.timers_.begin_ with
  | none => .ok q
  | some it => do
    let timer ← q.deref it.timer
    return if 0 < timer.expiration_ then q.resetTimerfd timer.expiration_ now else q

/-! ### The steps of the threads -/

/-- The steps. -/
inductive Action (T C : Type)
  | new (caller : Option T) (p : Addr) (cb : C) (when_ : ℤ) (interval : ℚ)
  | count (caller : Option T)
  | load (caller : Option T)
  | addTimerInLoop (p : Addr) (now : ℤ)
  | cancelInLoop (timerid : TimerId)
  | handleRead (now : ℤ) (sentinel : Addr) (n : ℕ)
  | run
  | return_
  | endCalls
  | reset
  | rearm (now : ℤ)

/-- The thread may go on: it is not that of the loop, or in code of the user. -/
def mayAct (caller : Option T) : Bool :=
  caller.isSome || q.phase.inUserCode

/-- The step may be taken. A step of a construction needs one that has come so far, a timer has to
be in flight to be added, and the thread of the loop has to stand where its step starts, with no
construction of its own unfinished. -/
def enabled : Action T C → Bool
  | .new caller p _ _ _ =>
    q.mayAct caller && (q.making caller).isNone && (q.heap p matches .free)
  | .count caller => q.mayAct caller && (q.making caller matches some (.allocated ..))
  | .load caller => q.mayAct caller && (q.making caller matches some (.counted ..))
  | .addTimerInLoop p _ =>
    q.phase.inUserCode && (q.making none).isNone && decide (p ∈ q.inFlight)
  | .cancelInLoop _ => q.phase.inUserCode && (q.making none).isNone
  | .handleRead _ _ _ => (q.making none).isNone && (q.phase matches .idle)
  | .run => (q.phase matches .calling _ _ (_ :: _))
  | .return_ => (q.making none).isNone && (q.phase matches .callback ..)
  | .endCalls => (q.phase matches .calling _ _ [])
  | .reset => (q.phase matches .resetting _ _ (_ :: _))
  | .rearm _ => (q.phase matches .resetting _ _ [])

/-- What a step does. -/
def exec [DecidableEq T] : Action T C → Except Fault (TimerQueue T C)
  | .new caller p cb when_ interval =>
    .ok { q with
      heap := Function.update q.heap p .raw
      making := Function.update q.making caller (some (.allocated p cb when_ interval q.born))
      born := q.born + 1 }
  | .count caller =>
    match q.making caller with
    | some (.allocated p cb when_ interval serial) =>
      .ok { q with
        s_numCreated := q.s_numCreated + 1
        making := Function.update q.making caller (some (.counted p cb when_ interval serial)) }
    | _ => .ok q
  | .load caller =>
    match q.making caller with
    | some (.counted p cb when_ interval serial) =>
      .ok { q with
        heap := Function.update q.heap p (.live (.new cb when_ interval q.s_numCreated serial))
        making := Function.update q.making caller none
        inFlight := p :: q.inFlight
        log := q.log ++ [.made serial ⟨p, q.s_numCreated⟩ interval] }
    | _ => .ok q
  | .addTimerInLoop p now => do
    let q' ← q.addTimerInLoop p now
    return { q' with inFlight := q'.inFlight.erase p }
  | .cancelInLoop timerid => do
    let q' ← q.cancelInLoop timerid
    return { q' with
      cancelled := q'.cancelled ++ [timerid]
      log := q'.log ++ [.cancelled timerid] }
  | .handleRead now _ n => q.handleRead now n
  | .run =>
    match q.phase with
    | .calling now ran (it :: todo) => do
      let q' ← q.run it
      return { q' with phase := .callback now (ran ++ [it]) todo }
    | _ => .ok q
  | .return_ =>
    match q.phase with
    | .callback now ran todo => .ok { q with phase := .calling now ran todo }
    | _ => .ok q
  | .endCalls =>
    match q.phase with
    | .calling now ran _ =>
      .ok { q with callingExpiredTimers_ := false, phase := .resetting now [] ran }
    | _ => .ok q
  | .reset =>
    match q.phase with
    | .resetting now done (it :: todo) => do
      let q' ← q.reset it now
      return { q' with phase := .resetting now (done ++ [it]) todo }
    | _ => .ok q
  | .rearm now => do
    let q' ← q.rearm now
    return { q' with phase := .idle }

/-- One step of some thread. -/
def step [DecidableEq T] (q : TimerQueue T C) (a : Action T C) : Option (TimerQueue T C) :=
  if q.enabled a then (q.exec a).toOption else none

end TimerQueue

end TinyMuduo
