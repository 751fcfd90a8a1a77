import TinyMuduo.Timer.TimerQueue

/-!
# The timers of a loop

`Eventloop::runAfter` and `Eventloop::runEvery` (`resoure/Eventloop.cpp`) register a timer for the
second that `Timestamp::now` gives plus the delay in microseconds. This file adds the clock and the
registrations to the timer queue. A registration has the second from which the delay counts: that of
the registration, or that of the last run of a timer that repeats.

The delays are positive whole numbers of seconds. The readings of the clock in the thread of the
loop do not decrease.

## Main definitions

* `Schedule`, `Schedule.IsDue`: when a timer is due.
* `TimerLoop`, `TimerLoop.step`: the timer queue with the clock and the registrations.
* `TimerLoop.DueFits`: the condition under which a batch calls the timers that are due.
-/

namespace TinyMuduo

/-- How a timer is registered: from which second its delay counts, the delay, and whether the timer
repeats and has run. -/
structure Schedule where
  base : ℤ
  delay : ℕ
  repeats : Bool
  ran : Bool
  deriving DecidableEq

namespace Schedule

variable (r : Schedule)

/-- The timer runs once, and has run. -/
def IsOver : Prop := r.repeats = false ∧ r.ran = true

instance : Decidable r.IsOver := inferInstanceAs (Decidable (_ ∧ _))

/-- The second at which the timer is due has come. -/
def IsDue (now : ℤ) : Prop := ¬ r.IsOver ∧ r.base + r.delay ≤ now

instance (now : ℤ) : Decidable (r.IsDue now) := inferInstanceAs (Decidable (_ ∧ _))

/-- The interval that the constructor of the timer is given. -/
def interval : ℚ := if r.repeats then r.delay else 0

/-- The expiration of the timer: it is restarted with its interval. -/
def expiration : ℤ := if r.IsOver then r.base else addTime r.base r.delay

end Schedule

/-- A timer queue with the clock, the registrations of its timers by their numbers, and the timers
that were due when the timerfd was read last. -/
structure TimerLoop (T C : Type) where
  timerQueue_ : TimerQueue T C
  now : ℤ
  registered : ℕ → Schedule
  due : List ℕ

/-- The number of the timer at an address. -/
def TimerQueue.serialAt {T C : Type} (q : TimerQueue T C) (p : Addr) : ℕ :=
  match q.heap p with
  | .live t => t.serial
  | .raw | .free => 0

namespace TimerLoop

variable {T C : Type}

/-- A loop without timers, at some second. -/
def init (now : ℤ) : TimerLoop T C := ⟨.init, now, fun _ => ⟨now, 0, false, false⟩, []⟩

variable (s : TimerLoop T C)

/-- The registration of the timer at an address. -/
def registration (p : Addr) : Schedule := s.registered (s.timerQueue_.serialAt p)

/-- The timers that have not been deleted, when no batch is running: they are in `timers_`, or they
are in flight. -/
def waiting : List Addr :=
  s.timerQueue_.timers_.toList.map Entry.timer ++ s.timerQueue_.inFlight

/-- The steps: the registrations, the start of a batch, the call of a timer, and the other steps of
the timer queue. -/
inductive Action (T C : Type)
  | runAfter (caller : Option T) (p : Addr) (now : ℤ) (delay : ℕ) (cb : C)
  | runEvery (caller : Option T) (p : Addr) (now : ℤ) (interval : ℕ) (cb : C)
  | handleRead (now : ℤ) (sentinel : Addr)
  | run
  | queue (a : TimerQueue.Action T C)

/-- What a step of the queue reads from the clock, `none` for a step of another kind. -/
def reading (now : ℤ) : TimerQueue.Action T C → Option ℤ
  | .addTimerInLoop _ now' | .rearm now' => some now'
  | .count _ | .load _ | .cancelInLoop _ | .return_ | .endCalls | .reset => some now
  | .new .. | .handleRead .. | .run => none

/-- The registration of a timer: the constructor of `Timer` starts. Time may have passed since the
thread has read the clock. -/
def register [DecidableEq T] (s : TimerLoop T C) (caller : Option T) (p : Addr) (cb : C)
    (r : Schedule) : Option (TimerLoop T C) :=
  if 0 < r.delay then
    (s.timerQueue_.step (.new caller p cb (addTime r.base r.delay) r.interval)).map fun q =>
      { s with
        timerQueue_ := q
        now := max s.now r.base
        registered := Function.update s.registered s.timerQueue_.born r }
  else none

/-- The start of `handleRead`, with the timers that `getExpired` finds. -/
def handleRead [DecidableEq T] (s : TimerLoop T C) (now : ℤ) (sentinel : Addr) :
    Option (TimerLoop T C) :=
  match TimerQueue.expired s.timerQueue_.timers_ now sentinel with
  | .ok entries =>
    if s.now ≤ now ∧ (s.timerQueue_.heap sentinel matches .free) = true then
      (s.timerQueue_.step (.handleRead now sentinel entries.length)).map fun q =>
        { s with
          timerQueue_ := q
          now := now
          due := (s.waiting.filter fun p => (s.registration p).IsDue now).map
            s.timerQueue_.serialAt }
    else none
  | .error _ => none

/-- The call of a timer: the second of its last run is that of the batch. -/
def run [DecidableEq T] (s : TimerLoop T C) : Option (TimerLoop T C) :=
  match s.timerQueue_.phase with
  | .calling now _ (it :: _) =>
    (s.timerQueue_.step .run).map fun q =>
      { s with
        timerQueue_ := q
        registered := Function.update s.registered (s.timerQueue_.serialAt it.timer)
          { s.registration it.timer with base := now, ran := true } }
  | _ => none

/-- One step of some thread. -/
def step [DecidableEq T] (s : TimerLoop T C) : Action T C → Option (TimerLoop T C)
  | .runAfter caller p now delay cb => s.register caller p cb ⟨now, delay, false, false⟩
  | .runEvery caller p now interval cb => s.register caller p cb ⟨now, interval, true, false⟩
  | .handleRead now sentinel => s.handleRead now sentinel
  | .run => s.run
  | .queue a => do
    let now ← reading s.now a
    if s.now ≤ now then
      let q ← s.timerQueue_.step a
      return { s with timerQueue_ := q, now := now }
    else none

/-- The condition under which `getExpired` finds the timers in `timers_` that are due: there are no
timers, or

* no timer has run that was to run once,
* no timer expires at the time of the search with an address from `sentinel` on, and
* there are later expirations, and the timers that are due among them are those with the first one.
-/
def SearchFits (now : ℤ) (sentinel : Addr) : Prop :=
  s.timerQueue_.timers_.toList = [] ∨
    (∀ e ∈ s.timerQueue_.timers_.toList, ¬ (s.registration e.timer).IsOver) ∧
    (∀ e ∈ s.timerQueue_.timers_.toList, e.when_ = now → e.timer < sentinel) ∧
    (∃ e ∈ s.timerQueue_.timers_.toList, now < e.when_) ∧
    ∀ e ∈ s.timerQueue_.timers_.toList, now < e.when_ →
      ((s.registration e.timer).IsDue now ↔
        ∀ f ∈ s.timerQueue_.timers_.toList, now < f.when_ → e.when_ ≤ f.when_)

instance (now : ℤ) (sentinel : Addr) : Decidable (s.SearchFits now sentinel) :=
  inferInstanceAs (Decidable (_ ∨ _))

/-- The condition under which a batch calls the timers that are due: those in flight are not due. -/
def DueFits : Action T C → Prop
  | .handleRead now sentinel =>
    (∀ p ∈ s.timerQueue_.inFlight, ¬ (s.registration p).IsDue now) ∧ s.SearchFits now sentinel
  | _ => True

instance (s : TimerLoop T C) : (a : Action T C) → Decidable (s.DueFits a)
  | .handleRead now sentinel => inferInstanceAs (Decidable
    ((∀ p ∈ s.timerQueue_.inFlight, ¬ (s.registration p).IsDue now) ∧ s.SearchFits now sentinel))
  | .runAfter .. | .runEvery .. | .run | .queue _ => .isTrue trivial

end TimerLoop

end TinyMuduo
