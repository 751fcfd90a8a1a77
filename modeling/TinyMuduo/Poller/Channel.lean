import Mathlib.Data.BitVec

/-!
# Channels

A `channel` binds a file descriptor to the events it is interested in (`events_`) and to the state
of its registration in the poller (`index_`). This file embeds the event masks and the member
functions of `resoure/Channel.h` that change `events_`, each of which ends in `update()`, and the
registration of a single channel as `EPollPoller::updateChannel` and `EPollPoller::removeChannel`
drive it. The poller with all its channels is in `TinyMuduo.Poller.EPollPoller`, which proves
that it moves each channel in this way.

## Main definitions

* `EventMask`, `KNoneEvent`, `KReadEvent`, `KWriteEvent`: masks of `epoll` events.
* `Interest`: the member functions that change `events_`, by what they do to the mask.
* `Handler`, `EventMask.handleEventWithGuard`: the callbacks that the reported events run.
* `Registration`: `events_`, `index_` and the mask registered with the kernel, with `update`,
  `remove` and the member functions of `channel`.
* `Registration.Reading`, `Registration.Closed`: the registrations of a channel in use and of one
  that was disabled.

## Main results

* `Registration.consistent_update`, `Registration.Consistent.remove`: the index says whether the
  channel is registered, and the registered mask is `events_`.
-/

namespace TinyMuduo

/-- A mask of `epoll` events, an `int` in the source. -/
abbrev EventMask := BitVec 32

def EPOLLIN : EventMask := 0x001
def EPOLLPRI : EventMask := 0x002
def EPOLLOUT : EventMask := 0x004
def EPOLLERR : EventMask := 0x008
def EPOLLHUP : EventMask := 0x010

def KNoneEvent : EventMask := 0
def KReadEvent : EventMask := EPOLLIN ||| EPOLLPRI
def KWriteEvent : EventMask := EPOLLOUT

namespace EventMask

/-- The mask has a bit in common with `bits`. -/
def has (m bits : EventMask) : Bool := m &&& bits != 0

def isNoneEvent (m : EventMask) : Bool := m == KNoneEvent

def isWritingEvent (m : EventMask) : Bool := m.has KWriteEvent

def isReadingEvent (m : EventMask) : Bool := m.has KReadEvent

@[simp] theorem isWritingEvent_none : isWritingEvent KNoneEvent = false := by decide

@[simp] theorem isNoneEvent_none : isNoneEvent KNoneEvent = true := by decide

private theorem or_write_and_write (m : EventMask) :
    (m ||| KWriteEvent) &&& KWriteEvent = KWriteEvent := by
  refine BitVec.eq_of_getLsbD_eq fun i _ => ?_
  simp only [BitVec.getLsbD_and, BitVec.getLsbD_or]
  cases BitVec.getLsbD KWriteEvent i <;> simp

@[simp] theorem isWritingEvent_or_write (m : EventMask) :
    isWritingEvent (m ||| KWriteEvent) = true := by
  rw [isWritingEvent, has, or_write_and_write]
  decide

@[simp] theorem isWritingEvent_and_not_write (m : EventMask) :
    isWritingEvent (m &&& ~~~KWriteEvent) = false := by
  have h : (m &&& ~~~KWriteEvent) &&& KWriteEvent = 0 := by
    rw [BitVec.and_assoc, BitVec.not_and_self]
    exact BitVec.and_zero
  simp [isWritingEvent, has, h]

@[simp] theorem isWritingEvent_or_read (m : EventMask) :
    isWritingEvent (m ||| KReadEvent) = isWritingEvent m := by
  have h : (m ||| KReadEvent) &&& KWriteEvent = m &&& KWriteEvent := by
    rw [BitVec.and_or_distrib_right, show KReadEvent &&& KWriteEvent = 0 by decide]
    exact BitVec.or_zero
  rw [isWritingEvent, has, h, isWritingEvent, has]

private theorem or_read_and_read (m : EventMask) :
    (m ||| KReadEvent) &&& KReadEvent = KReadEvent := by
  refine BitVec.eq_of_getLsbD_eq fun i _ => ?_
  simp only [BitVec.getLsbD_and, BitVec.getLsbD_or]
  cases BitVec.getLsbD KReadEvent i <;> simp

@[simp] theorem isReadingEvent_or_read (m : EventMask) :
    isReadingEvent (m ||| KReadEvent) = true := by
  rw [isReadingEvent, has, or_read_and_read]
  decide

@[simp] theorem isReadingEvent_or_write (m : EventMask) :
    isReadingEvent (m ||| KWriteEvent) = isReadingEvent m := by
  have h : (m ||| KWriteEvent) &&& KReadEvent = m &&& KReadEvent := by
    rw [BitVec.and_or_distrib_right, show KWriteEvent &&& KReadEvent = 0 by decide]
    exact BitVec.or_zero
  rw [isReadingEvent, has, h, isReadingEvent, has]

@[simp] theorem isReadingEvent_and_not_write (m : EventMask) :
    isReadingEvent (m &&& ~~~KWriteEvent) = isReadingEvent m := by
  have h : (m &&& ~~~KWriteEvent) &&& KReadEvent = m &&& KReadEvent := by
    rw [BitVec.and_assoc, show ~~~KWriteEvent &&& KReadEvent = KReadEvent by decide]
  rw [isReadingEvent, has, h, isReadingEvent, has]

/-- A mask with read interest is not empty. -/
theorem isNoneEvent_of_isReadingEvent {m : EventMask} (h : isReadingEvent m = true) :
    isNoneEvent m = false := by
  by_contra hm
  rw [Bool.not_eq_false, isNoneEvent, beq_iff_eq] at hm
  subst hm
  exact absurd h (by decide)
end EventMask

/-- The callbacks of a channel. -/
inductive Handler
  | closecallback_
  | errorcallback_
  | readcallback_
  | writecallback_
  deriving DecidableEq

/-- `channel::handleEventWithGuard`: the callbacks that the reported events run, in order. -/
def EventMask.handleEventWithGuard (revents : EventMask) : List Handler :=
  (if revents.has EPOLLHUP && !revents.has EPOLLIN then [.closecallback_] else []) ++
  (if revents.has EPOLLERR then [.errorcallback_] else []) ++
  (if revents.has (EPOLLIN ||| EPOLLPRI) then [.readcallback_] else []) ++
  (if revents.has EPOLLOUT then [.writecallback_] else [])

/-- The close callback runs first. -/
theorem EventMask.closecallback_not_mem_tail (revents : EventMask) :
    .closecallback_ ∉ revents.handleEventWithGuard.tail := by
  unfold handleEventWithGuard
  split_ifs <;> simp

/-- The state of a channel in its poller: never added or removed, added, or taken out of the
kernel's interest set while the poller still knows it. -/
inductive Index
  | KNew
  | KAdded
  | KDeleted
  deriving DecidableEq

/-- The member functions of `channel` that change `events_`. Each one calls `update()`. -/
inductive Interest
  | enableReading
  | disableReading
  | enableWriting
  | disableWriting
  | disableAll

/-- The new value of `events_`. -/
def Interest.apply : Interest → EventMask → EventMask
  | .enableReading, e => e ||| KReadEvent
  | .disableReading, e => e &&& ~~~KReadEvent
  | .enableWriting, e => e ||| KWriteEvent
  | .disableWriting, e => e &&& ~~~KWriteEvent
  | .disableAll, _ => KNoneEvent

/-- One channel with its registration: the mask in the kernel's interest set, if it is there. -/
structure Registration where
  events_ : EventMask
  index_ : Index
  interest : Option EventMask
  deriving DecidableEq

namespace Registration

/-- A new channel. -/
def init : Registration := ⟨KNoneEvent, .KNew, none⟩

variable (r : Registration)

def isNoneEvent : Bool := r.events_.isNoneEvent

def isWritingEvent : Bool := r.events_.isWritingEvent

/-- `update()`: what `EPollPoller::updateChannel` does to the channel. -/
def update : Registration :=
  match r.index_ with
  | .KNew | .KDeleted => { r with index_ := .KAdded, interest := some r.events_ }
  | .KAdded => if r.isNoneEvent then { r with index_ := .KDeleted, interest := none }
    else { r with interest := some r.events_ }

/-- A change of `events_`, then `update()`. -/
def call (i : Interest) : Registration := { r with events_ := i.apply r.events_ }.update

def enableReading : Registration := r.call .enableReading

def disableReading : Registration := r.call .disableReading

def enableWriting : Registration := r.call .enableWriting

def disableWriting : Registration := r.call .disableWriting

def disableAll : Registration := r.call .disableAll

/-- `remove()`: what `EPollPoller::removeChannel` does to the channel. -/
def remove : Registration :=
  { r with index_ := .KNew, interest := if r.index_ = .KAdded then none else r.interest }

@[simp] theorem events_update : r.update.events_ = r.events_ := by
  unfold update
  split
  · rfl
  · rfl
  · split_ifs <;> rfl

@[simp] theorem events_call (i : Interest) : (r.call i).events_ = i.apply r.events_ :=
  events_update _

@[simp] theorem isWritingEvent_enableWriting : r.enableWriting.isWritingEvent = true := by
  simp [isWritingEvent, enableWriting, Interest.apply]

@[simp] theorem isWritingEvent_disableWriting : r.disableWriting.isWritingEvent = false := by
  simp [isWritingEvent, disableWriting, Interest.apply]

@[simp] theorem isWritingEvent_enableReading :
    r.enableReading.isWritingEvent = r.isWritingEvent := by
  simp [isWritingEvent, enableReading, Interest.apply]

@[simp] theorem isWritingEvent_remove : r.remove.isWritingEvent = r.isWritingEvent := rfl

/-- The index says whether the channel is registered, the registered mask is `events_`, and a
channel taken out of the interest set is interested in nothing. -/
structure Consistent : Prop where
  added : r.index_ = .KAdded → r.interest = some r.events_
  not_added : r.index_ ≠ .KAdded → r.interest = none
  deleted : r.index_ = .KDeleted → r.events_ = KNoneEvent

/-- `update()` leaves a consistent registration behind, whatever the new mask is. -/
theorem consistent_update : r.update.Consistent := by
  unfold update
  split
  · exact ⟨fun _ => rfl, by simp, by simp⟩
  · exact ⟨fun _ => rfl, by simp, by simp⟩
  · rename_i hindex
    split_ifs with hnone
    · exact ⟨by simp, fun _ => rfl, fun _ => by
        simpa [isNoneEvent, EventMask.isNoneEvent] using hnone⟩
    · exact ⟨fun _ => rfl, fun hne => absurd hindex hne, fun hd => by simp [hindex] at hd⟩

theorem consistent_call (i : Interest) : (r.call i).Consistent := consistent_update _

variable {r}

theorem Consistent.remove (h : r.Consistent) : r.remove.Consistent := by
  refine ⟨by simp [Registration.remove], fun _ => ?_, by simp [Registration.remove]⟩
  by_cases hindex : r.index_ = .KAdded
  · simp [Registration.remove, hindex]
  · simp [Registration.remove, hindex, h.not_added hindex]

/-! ### Reading and closed channels -/

/-- The channel is registered for reading. -/
structure Reading (r : Registration) : Prop where
  added : r.index_ = .KAdded
  reading : r.events_.isReadingEvent = true

theorem Reading.update (h : r.Reading) : r.update.Reading := by
  have hnone : r.isNoneEvent = false := EventMask.isNoneEvent_of_isReadingEvent h.reading
  have heq : r.update = { r with interest := some r.events_ } := by
    simp [Registration.update, h.added, hnone]
  rw [heq]
  exact ⟨h.added, h.reading⟩

theorem Reading.enableWriting (h : r.Reading) : r.enableWriting.Reading :=
  Reading.update ⟨h.added, by simpa [Interest.apply] using h.reading⟩

theorem Reading.disableWriting (h : r.Reading) : r.disableWriting.Reading :=
  Reading.update ⟨h.added, by simpa [Interest.apply] using h.reading⟩

theorem reading_enableReading (h : r.index_ = .KNew) : r.enableReading.Reading := by
  refine ⟨?_, by simp [enableReading, Interest.apply]⟩
  simp [enableReading, call, update, h]

/-- The channel asks for nothing and is not in the interest set. -/
structure Closed (r : Registration) : Prop where
  events : r.events_ = KNoneEvent
  not_added : r.index_ ≠ .KAdded
  interest : r.interest = none

theorem closed_disableAll (h : r.index_ = .KAdded) : r.disableAll.Closed := by
  have heq : r.disableAll = ⟨KNoneEvent, .KDeleted, none⟩ := by
    simp [disableAll, call, update, Interest.apply, h, isNoneEvent]
  rw [heq]
  exact ⟨rfl, by simp, rfl⟩

theorem Closed.remove (h : r.Closed) : r.remove.Closed :=
  ⟨h.events, by simp [Registration.remove], by simp [Registration.remove, h.interest]⟩

theorem Closed.isWritingEvent (h : r.Closed) : r.isWritingEvent = false := by
  rw [Registration.isWritingEvent, h.events, EventMask.isWritingEvent_none]

end Registration

end TinyMuduo
