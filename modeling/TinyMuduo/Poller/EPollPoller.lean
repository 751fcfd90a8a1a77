import Mathlib.Logic.Function.Basic
import TinyMuduo.Library.Transition
import TinyMuduo.Poller.Channel

/-!
# The epoll poller and its channels

Three records say what an `EPollPoller` watches: the `index_` of each channel, the map `channels_`
from file descriptors to channels, and the interest set of the kernel. This file embeds
`EPollPoller::updateChannel`, `removeChannel`, `update` and `fillActiveChannels`
(`resoure/EpollPoll.cpp`) over any number of channels, and proves that the three records agree
after every sequence of calls.

Channels are objects with addresses of a type `C`. They are created on a file descriptor that no
other live channel has, and destroyed (their descriptor being closed) after `remove()`. The kernel
serves a legal `epoll_ctl` request and refuses the others: `EPOLL_CTL_ADD` is legal for a descriptor
out of the interest set, `EPOLL_CTL_MOD` and `EPOLL_CTL_DEL` for one in it.

## Main definitions

* `epoll_ctl`, `EPollPoller`, `EPollPoller.update`, `EPollPoller.updateChannel`,
  `EPollPoller.removeChannel`, `EPollPoller.fillActiveChannels`.
* `EPollPoller.Action`, `EPollPoller.step`: the calls, as steps of the poller.
* `EPollPoller.Agrees`, `EPollPoller.Inv`: the agreement of the three records.

## Main results

* `EPollPoller.inv_step`: every call keeps the records in agreement.
* `EPollPoller.registration_agrees`: the agreement in every reachable state, and the legality of
  every request issued.
* `EPollPoller.view_step`: the poller moves each channel as `Registration` does on its own, and
  leaves the others alone.
* `EPollPoller.fillActiveChannels_isSome`: the pointers that the kernel hands back are live
  channels.
-/

namespace TinyMuduo

/-- The operations of `epoll_ctl`. -/
inductive CtlOp
  | EPOLL_CTL_ADD
  | EPOLL_CTL_MOD
  | EPOLL_CTL_DEL
  deriving DecidableEq

/-- An `epoll_event`: a mask and the pointer that comes back with the events. -/
structure EpollEvent (C : Type*) where
  events : EventMask
  ptr : C

/-- The interest set of an epoll instance. -/
abbrev InterestSet (C : Type*) := ℤ → Option (EpollEvent C)

/-- `epoll_ctl`; `none` is the error of an illegal request. -/
def epoll_ctl {C : Type*} (k : InterestSet C) (op : CtlOp) (fd : ℤ) (ev : EpollEvent C) :
    Option (InterestSet C) :=
  match op, k fd with
  | .EPOLL_CTL_ADD, none => some (Function.update k fd (some ev))
  | .EPOLL_CTL_MOD, some _ => some (Function.update k fd (some ev))
  | .EPOLL_CTL_DEL, some _ => some (Function.update k fd none)
  | _, _ => none

/-- The fields of a `channel` that the poller uses. -/
structure Channel where
  fd_ : ℤ
  events_ : EventMask
  revents_ : EventMask
  index_ : Index

/-- An `EPollPoller` with the live channels, the interest set of its `epollfd_`, and the requests
it has issued, each with its legality. -/
structure EPollPoller (C : Type*) where
  channel : C → Option Channel
  channels_ : ℤ → Option C
  interest : InterestSet C
  issued : List (CtlOp × ℤ × Bool)
  exited : Bool

namespace EPollPoller

variable {C : Type*} [DecidableEq C]

/-- The poller without channels. -/
def init : EPollPoller C := ⟨fun _ => none, fun _ => none, fun _ => none, [], false⟩

variable (p : EPollPoller C)

def setChannel (c : C) (ch : Channel) : EPollPoller C :=
  { p with channel := Function.update p.channel c (some ch) }

omit [DecidableEq C] in
/-- `EPollPoller::update`. A refused `EPOLL_CTL_DEL` is logged, any other refusal ends the
process. -/
def update (op : CtlOp) (c : C) (ch : Channel) : EPollPoller C :=
  match epoll_ctl p.interest op ch.fd_ ⟨ch.events_, c⟩ with
  | some k => { p with interest := k, issued := p.issued ++ [(op, ch.fd_, true)] }
  | none => { p with
      issued := p.issued ++ [(op, ch.fd_, false)]
      exited := p.exited || op != .EPOLL_CTL_DEL }

/-- `EPollPoller::updateChannel` on the channel `ch` at `c`. -/
def updateChannel (c : C) (ch : Channel) : EPollPoller C :=
  match ch.index_ with
  | .KNew =>
    let ch' := { ch with index_ := .KAdded }
    ({ p with channels_ := Function.update p.channels_ ch.fd_ (some c) }.setChannel c ch').update
      .EPOLL_CTL_ADD c ch'
  | .KDeleted =>
    let ch' := { ch with index_ := .KAdded }
    (p.setChannel c ch').update .EPOLL_CTL_ADD c ch'
  | .KAdded =>
    if ch.events_.isNoneEvent then
      (p.update .EPOLL_CTL_DEL c ch).setChannel c { ch with index_ := .KDeleted }
    else p.update .EPOLL_CTL_MOD c ch

/-- `EPollPoller::removeChannel` on the channel `ch` at `c`. -/
def removeChannel (c : C) (ch : Channel) : EPollPoller C :=
  let p' := { p with channels_ := Function.update p.channels_ ch.fd_ none }
  (if ch.index_ = .KAdded then p'.update .EPOLL_CTL_DEL c ch else p').setChannel c
    { ch with index_ := .KNew }

/-- `EPollPoller::fillActiveChannels` on the events that `epoll_wait` reports: the poller and the
active channels; `none` when a reported pointer is not a live channel. -/
def fillActiveChannels : EPollPoller C → List (EpollEvent C) → Option (EPollPoller C × List C)
  | p, [] => some (p, [])
  | p, ev :: evs =>
    (p.channel ev.ptr).bind fun ch =>
      (fillActiveChannels (p.setChannel ev.ptr { ch with revents_ := ev.events }) evs).map fun q =>
        (q.1, ev.ptr :: q.2)

/-- What happens to a poller and its channels. -/
inductive Action (C : Type*)
  | create (c : C) (fd : ℤ)
  | call (c : C) (i : Interest)
  | remove (c : C)
  | poll (evs : List (EpollEvent C))
  | destroy (c : C)

omit [DecidableEq C] in
/-- The events that `epoll_wait` may report: each one carries the pointer registered for some
descriptor, and bits of its mask or of the two that are always reported. -/
def Reported (evs : List (EpollEvent C)) : Prop :=
  ∀ ev ∈ evs, ∃ fd m, p.interest fd = some ⟨m, ev.ptr⟩ ∧
    ev.events &&& ~~~(m ||| EPOLLERR ||| EPOLLHUP) = 0

/-- The channel `c` is live and has the descriptor `fd`. -/
def Owns (c : C) (fd : ℤ) : Prop := ∃ ch, p.channel c = some ch ∧ ch.fd_ = fd

/-- One step of the poller. A channel is created at a free address on a descriptor that no live
channel has, and destroyed after it was removed. -/
inductive Step : EPollPoller C → Action C → EPollPoller C → Prop
  | create {p : EPollPoller C} {c : C} {fd : ℤ} (hrun : p.exited = false)
      (hc : p.channel c = none) (hfd : ∀ d, ¬ p.Owns d fd) :
      Step p (.create c fd) (p.setChannel c ⟨fd, KNoneEvent, 0, .KNew⟩)
  | call {p : EPollPoller C} {c : C} {ch : Channel} (hrun : p.exited = false)
      (hc : p.channel c = some ch) (i : Interest) :
      Step p (.call c i)
        ((p.setChannel c { ch with events_ := i.apply ch.events_ }).updateChannel c
          { ch with events_ := i.apply ch.events_ })
  | remove {p : EPollPoller C} {c : C} {ch : Channel} (hrun : p.exited = false)
      (hc : p.channel c = some ch) : Step p (.remove c) (p.removeChannel c ch)
  | poll {p q : EPollPoller C} {evs : List (EpollEvent C)} {active : List C}
      (hrun : p.exited = false) (hevs : p.Reported evs)
      (hfill : p.fillActiveChannels evs = some (q, active)) : Step p (.poll evs) q
  | destroy {p : EPollPoller C} {c : C} {ch : Channel} (hrun : p.exited = false)
      (hc : p.channel c = some ch) (hnew : ch.index_ = .KNew) :
      Step p (.destroy c) { p with channel := Function.update p.channel c none }

/-! ### The agreement of the three records -/

omit [DecidableEq C] in
/-- What the interest set and the map hold for the descriptor of the channel `ch` at `c`. -/
structure Agrees (c : C) (ch : Channel) (event : Option (EpollEvent C)) (mapped : Option C) :
    Prop where
  event_eq : event = if ch.index_ = .KAdded then some ⟨ch.events_, c⟩ else none
  mapped_eq : mapped = if ch.index_ = .KNew then none else some c
  deleted : ch.index_ = .KDeleted → ch.events_ = KNoneEvent

/-- Live channels have distinct descriptors, the interest set and the map agree with each of them
and hold nothing else, and every request issued was legal. -/
structure Inv (p : EPollPoller C) : Prop where
  fd_inj : ∀ {c d ch dh}, p.channel c = some ch → p.channel d = some dh → ch.fd_ = dh.fd_ → c = d
  agrees : ∀ {c ch}, p.channel c = some ch → Agrees c ch (p.interest ch.fd_) (p.channels_ ch.fd_)
  unowned : ∀ {fd}, (∀ c, ¬ p.Owns c fd) → p.interest fd = none ∧ p.channels_ fd = none
  legal : ∀ r ∈ p.issued, r.2.2 = true
  running : p.exited = false

omit [DecidableEq C] in
theorem inv_init : (init : EPollPoller C).Inv :=
  ⟨by simp [init], by simp [init], fun _ => ⟨rfl, rfl⟩, by simp [init], rfl⟩

/-- A change of the poller that concerns only the channel `ch` at `c` and the records of its
descriptor, and issues legal requests. -/
structure Local (p : EPollPoller C) (c : C) (ch ch' : Channel) (p' : EPollPoller C) : Prop where
  channel_eq : p'.channel = Function.update p.channel c (some ch')
  fd_eq : ch'.fd_ = ch.fd_
  interest_eq : ∀ fd, fd ≠ ch.fd_ → p'.interest fd = p.interest fd
  mapped_eq : ∀ fd, fd ≠ ch.fd_ → p'.channels_ fd = p.channels_ fd
  legal : ∀ r ∈ p'.issued, r ∈ p.issued ∨ r.2.2 = true
  exited_eq : p'.exited = p.exited

section Local

variable {p} {p' : EPollPoller C} {c : C} {ch ch' : Channel}

theorem Local.owns_iff (hl : Local p c ch ch' p') (hc : p.channel c = some ch) (d : C) (fd : ℤ) :
    p'.Owns d fd ↔ p.Owns d fd := by
  unfold Owns
  rw [hl.channel_eq]
  by_cases hd : d = c
  · subst hd
    simp [hc, hl.fd_eq]
  · simp [hd]

/-- A local change after which the records of the channel agree keeps all of them in agreement. -/
theorem Inv.of_local (hp : p.Inv) (hc : p.channel c = some ch) (hl : Local p c ch ch' p')
    (hag : Agrees c ch' (p'.interest ch.fd_) (p'.channels_ ch.fd_)) : p'.Inv := by
  have hchannel (d : C) (dh : Channel) (hd : p'.channel d = some dh) :
      (d = c ∧ dh = ch') ∨ (d ≠ c ∧ p.channel d = some dh) := by
    rw [hl.channel_eq] at hd
    by_cases hdc : d = c
    · subst hdc
      exact .inl ⟨rfl, by simpa using hd.symm⟩
    · exact .inr ⟨hdc, by simpa [hdc] using hd⟩
  constructor
  · intro d e dh eh hd he hfd
    rcases hchannel d dh hd with ⟨rfl, rfl⟩ | ⟨hdc, hd⟩ <;>
      rcases hchannel e eh he with ⟨rfl, rfl⟩ | ⟨hec, he⟩
    · rfl
    · exact hp.fd_inj hc he (hl.fd_eq.symm.trans hfd)
    · exact hp.fd_inj hd hc (hfd.trans hl.fd_eq)
    · exact hp.fd_inj hd he hfd
  · intro d dh hd
    rcases hchannel d dh hd with ⟨rfl, rfl⟩ | ⟨hdc, hd⟩
    · rw [hl.fd_eq]
      exact hag
    · have hne : dh.fd_ ≠ ch.fd_ := fun heq => hdc (hp.fd_inj hd hc heq)
      rw [hl.interest_eq _ hne, hl.mapped_eq _ hne]
      exact hp.agrees hd
  · intro fd hfd
    have hne : fd ≠ ch.fd_ := fun heq => hfd c ((hl.owns_iff hc c fd).mpr ⟨ch, hc, heq.symm⟩)
    rw [hl.interest_eq _ hne, hl.mapped_eq _ hne]
    exact hp.unowned fun d hd => hfd d ((hl.owns_iff hc d fd).mpr hd)
  · intro r hr
    exact (hl.legal r hr).elim (hp.legal r) id
  · rw [hl.exited_eq, hp.running]

end Local

/-! ### One call -/

/-- The registration of the channel `ch`, as the poller has it. -/
def registration (p : EPollPoller C) (ch : Channel) : Registration :=
  ⟨ch.events_, ch.index_, (p.interest ch.fd_).map EpollEvent.events⟩

/-- The poller after a request about the channel at `c` was served: the channel is now `ch'`, its
descriptor has the event `event` in the interest set and the pointer `mapped` in the map. -/
def served (p : EPollPoller C) (c : C) (ch' : Channel) (op : CtlOp)
    (event : Option (EpollEvent C)) (mapped : Option C) : EPollPoller C :=
  { p with
    channel := Function.update p.channel c (some ch')
    channels_ := Function.update p.channels_ ch'.fd_ mapped
    interest := Function.update p.interest ch'.fd_ event
    issued := p.issued ++ [(op, ch'.fd_, true)] }

section Calls

variable {p} {c : C} {ch ch' : Channel} {op : CtlOp} {event : Option (EpollEvent C)}
  {mapped : Option C}

private theorem local_served (hfd : ch'.fd_ = ch.fd_) :
    Local p c ch ch' (p.served c ch' op event mapped) := by
  refine ⟨rfl, hfd, fun fd hne => ?_, fun fd hne => ?_, fun r hr => ?_, rfl⟩
  · simp [served, hfd, hne]
  · simp [served, hfd, hne]
  · rcases List.mem_append.mp hr with hr | hr
    · exact .inl hr
    · simp [List.mem_singleton.mp hr]

/-- A served request keeps all records in agreement when the new records of the channel agree. -/
theorem Inv.served (hp : p.Inv) (hc : p.channel c = some ch) (hfd : ch'.fd_ = ch.fd_)
    (hag : Agrees c ch' event mapped) : (p.served c ch' op event mapped).Inv := by
  refine hp.of_local hc (local_served hfd) ?_
  simpa [EPollPoller.served, ← hfd] using hag

/-- A change of `events_` followed by `updateChannel` issues one legal request. The new records of
the channel agree, and its registration moves as `Registration.call` does. -/
theorem updateChannel_eq_served (hag : Agrees c ch (p.interest ch.fd_) (p.channels_ ch.fd_))
    (i : Interest) :
    ∃ ch' op event mapped,
      (p.setChannel c { ch with events_ := i.apply ch.events_ }).updateChannel c
        { ch with events_ := i.apply ch.events_ } = p.served c ch' op event mapped ∧
      ch'.fd_ = ch.fd_ ∧ Agrees c ch' event mapped ∧
      (⟨ch'.events_, ch'.index_, event.map EpollEvent.events⟩ : Registration) =
        (p.registration ch).call i := by
  have hevent := hag.event_eq
  have hmapped := hag.mapped_eq
  let e := i.apply ch.events_
  cases hindex : ch.index_ with
  | KNew | KDeleted =>
    refine ⟨{ ch with events_ := e, index_ := .KAdded }, .EPOLL_CTL_ADD, some ⟨e, c⟩, some c, ?_,
      rfl, ⟨by simp, by simp, by simp⟩, ?_⟩
    · simp_all [updateChannel, EPollPoller.served, setChannel, update, epoll_ctl, e]
    · simp [registration, Registration.call, Registration.update, hindex, e]
  | KAdded =>
    by_cases hnone : e.isNoneEvent
    · refine ⟨{ ch with events_ := e, index_ := .KDeleted }, .EPOLL_CTL_DEL, none, some c, ?_,
        rfl, ⟨by simp, by simp, fun _ => by simpa [EventMask.isNoneEvent] using hnone⟩, ?_⟩
      · simp_all [updateChannel, EPollPoller.served, setChannel, update, epoll_ctl, e]
      · simp_all [registration, Registration.call, Registration.update, Registration.isNoneEvent, e]
    · refine ⟨{ ch with events_ := e }, .EPOLL_CTL_MOD, some ⟨e, c⟩, some c, ?_,
        rfl, ⟨by simp [hindex], by simp [hindex], by simp [hindex]⟩, ?_⟩
      · simp_all [updateChannel, EPollPoller.served, setChannel, update, epoll_ctl, e]
      · simp_all [registration, Registration.call, Registration.update, Registration.isNoneEvent, e]

/-- `removeChannel` keeps all records in agreement, and moves the registration of the channel as
`Registration.remove` does. -/
theorem Inv.removeChannel (hp : p.Inv) (hc : p.channel c = some ch) :
    (p.removeChannel c ch).Inv ∧ ∃ ch', Local p c ch ch' (p.removeChannel c ch) ∧
      (p.removeChannel c ch).registration ch' = (p.registration ch).remove := by
  have hevent := (hp.agrees hc).event_eq
  by_cases hindex : ch.index_ = .KAdded
  · rw [if_pos hindex] at hevent
    have heq : p.removeChannel c ch =
        p.served c { ch with index_ := .KNew } .EPOLL_CTL_DEL none none := by
      simp [EPollPoller.removeChannel, EPollPoller.served, setChannel, update, epoll_ctl, hindex,
        hevent]
    rw [heq]
    refine ⟨hp.served hc rfl ⟨by simp, by simp, by simp⟩, _, local_served rfl, ?_⟩
    simp [registration, Registration.remove, EPollPoller.served, hindex]
  · rw [if_neg hindex] at hevent
    have hl : Local p c ch { ch with index_ := .KNew } (p.removeChannel c ch) := by
      refine ⟨?_, rfl, ?_, ?_, ?_, ?_⟩ <;>
        simp +contextual [EPollPoller.removeChannel, setChannel, hindex]
    refine ⟨hp.of_local hc hl ⟨?_, ?_, by simp⟩, _, hl, ?_⟩
    · simp [EPollPoller.removeChannel, setChannel, hindex, hevent]
    · simp [EPollPoller.removeChannel, setChannel, hindex]
    · simp [EPollPoller.removeChannel, setChannel, registration, Registration.remove, hindex]

/-- Storing the events that happened changes no record of the poller. -/
theorem local_setRevents (m : EventMask) :
    Local p c ch { ch with revents_ := m } (p.setChannel c { ch with revents_ := m }) :=
  ⟨rfl, rfl, fun _ _ => rfl, fun _ _ => rfl, fun _ hr => .inl hr, rfl⟩

theorem Inv.setRevents (hp : p.Inv) (hc : p.channel c = some ch) (m : EventMask) :
    (p.setChannel c { ch with revents_ := m }).Inv :=
  hp.of_local hc (local_setRevents m) ⟨(hp.agrees hc).event_eq, (hp.agrees hc).mapped_eq,
    (hp.agrees hc).deleted⟩

/-- A new channel on a descriptor that no live channel has. -/
theorem Inv.create (hp : p.Inv) (hc : p.channel c = none) {fd : ℤ} (hfd : ∀ d, ¬ p.Owns d fd) :
    (p.setChannel c ⟨fd, KNoneEvent, 0, .KNew⟩).Inv := by
  have hold {d : C} {dh : Channel} (hdc : d ≠ c)
      (hd : (p.setChannel c ⟨fd, KNoneEvent, 0, .KNew⟩).channel d = some dh) :
      p.channel d = some dh := by simpa [setChannel, hdc] using hd
  have hnew {dh : Channel} (hd : (p.setChannel c ⟨fd, KNoneEvent, 0, .KNew⟩).channel c = some dh) :
      dh = ⟨fd, KNoneEvent, 0, .KNew⟩ := by simpa [setChannel] using hd.symm
  constructor
  · intro d e dh eh hd he heq
    by_cases hdc : d = c <;> by_cases hec : e = c
    · rw [hdc, hec]
    · subst hdc
      obtain rfl := hnew hd
      exact absurd ⟨eh, hold hec he, heq.symm⟩ (hfd e)
    · subst hec
      obtain rfl := hnew he
      exact absurd ⟨dh, hold hdc hd, heq⟩ (hfd d)
    · exact hp.fd_inj (hold hdc hd) (hold hec he) heq
  · intro d dh hd
    by_cases hdc : d = c
    · subst hdc
      obtain rfl := hnew hd
      obtain ⟨hi, hm⟩ := hp.unowned hfd
      exact ⟨by simpa [setChannel] using hi, by simpa [setChannel] using hm, by simp⟩
    · exact hp.agrees (hold hdc hd)
  · intro fd' hfd'
    refine hp.unowned fun d hd => hfd' d ?_
    obtain ⟨dh, hd, hdfd⟩ := hd
    have hdc : d ≠ c := by
      rintro rfl
      simp [hc] at hd
    exact ⟨dh, by simpa [setChannel, hdc] using hd, hdfd⟩
  · exact hp.legal
  · exact hp.running

/-- The destruction of a channel that was removed. -/
theorem Inv.destroy (hp : p.Inv) (hc : p.channel c = some ch) (hnew : ch.index_ = .KNew) :
    ({ p with channel := Function.update p.channel c none } : EPollPoller C).Inv := by
  have hold {d : C} {dh : Channel} (hd : Function.update p.channel c none d = some dh) :
      d ≠ c ∧ p.channel d = some dh := by
    by_cases hdc : d = c
    · subst hdc
      simp at hd
    · exact ⟨hdc, by simpa [hdc] using hd⟩
  constructor
  · intro d e dh eh hd he heq
    exact hp.fd_inj (hold hd).2 (hold he).2 heq
  · intro d dh hd
    exact hp.agrees (hold hd).2
  · intro fd hfd
    by_cases heq : ch.fd_ = fd
    · subst heq
      have hag := hp.agrees hc
      exact ⟨by simpa [hnew] using hag.event_eq, by simpa [hnew] using hag.mapped_eq⟩
    · refine hp.unowned fun d hd => hfd d ?_
      obtain ⟨dh, hd, hdfd⟩ := hd
      have hdc : d ≠ c := by
        rintro rfl
        rw [hc] at hd
        exact heq (Option.some.inj hd ▸ hdfd)
      exact ⟨dh, by simpa [hdc] using hd, hdfd⟩
  · exact hp.legal
  · exact hp.running

end Calls

/-! ### Runs -/

/-- One iteration writes `revents_` of a live channel. -/
theorem fillActiveChannels_cons {p q : EPollPoller C} {ev : EpollEvent C}
    {evs : List (EpollEvent C)} {active : List C}
    (h : p.fillActiveChannels (ev :: evs) = some (q, active)) :
    ∃ ch active', p.channel ev.ptr = some ch ∧
      (p.setChannel ev.ptr { ch with revents_ := ev.events }).fillActiveChannels evs =
        some (q, active') := by
  obtain ⟨ch, hch, h⟩ := Option.bind_eq_some_iff.mp h
  obtain ⟨⟨q', active'⟩, hrest, heq⟩ := Option.map_eq_some_iff.mp h
  obtain ⟨rfl, -⟩ := Prod.mk.inj heq
  exact ⟨ch, active', hch, hrest⟩

theorem Inv.fillActiveChannels {evs : List (EpollEvent C)} {p q : EPollPoller C} {active : List C}
    (hp : p.Inv) (h : p.fillActiveChannels evs = some (q, active)) : q.Inv := by
  induction evs generalizing p active with
  | nil =>
    obtain ⟨rfl, -⟩ := Prod.mk.inj (Option.some.inj h)
    exact hp
  | cons ev evs ih =>
    obtain ⟨ch, active', hch, hrest⟩ := fillActiveChannels_cons h
    exact ih (hp.setRevents hch ev.events) hrest

/-- Every call keeps the three records in agreement. -/
theorem inv_step {p p' : EPollPoller C} {a : Action C} (hp : p.Inv) (h : Step p a p') : p'.Inv := by
  cases h with
  | create _ hc hfd => exact hp.create hc hfd
  | call _ hc i =>
    obtain ⟨ch', op, event, mapped, heq, hfd, hag, -⟩ := updateChannel_eq_served (hp.agrees hc) i
    rw [heq]
    exact hp.served hc hfd hag
  | remove _ hc => exact (hp.removeChannel hc).1
  | poll _ _ hfill => exact hp.fillActiveChannels hfill
  | destroy _ hc hnew => exact hp.destroy hc hnew

theorem inv_of_reaches {p : EPollPoller C}
    (hp : Transition.Reaches Step Transition.anyLabel init p) : p.Inv :=
  hp.invariant inv_init fun _ _ _ hq _ h => inv_step hq h

/-- **The records agree.** After every sequence of calls on any channels of a poller: the index of
a live channel is `KAdded` exactly when its descriptor is in the interest set, and then the
registered mask is its `events_` and the registered pointer is the channel; a channel with index
`KDeleted` is interested in nothing; its index is `KNew` exactly when `channels_` does not map its
descriptor to it; and every request issued to `epoll_ctl` was legal. -/
theorem registration_agrees {p : EPollPoller C}
    (hp : Transition.Reaches Step Transition.anyLabel init p) :
    (∀ c ch, p.channel c = some ch →
      (ch.index_ = .KAdded ↔ p.interest ch.fd_ ≠ none) ∧
      (ch.index_ = .KAdded → p.interest ch.fd_ = some ⟨ch.events_, c⟩) ∧
      (ch.index_ = .KDeleted → ch.events_ = KNoneEvent) ∧
      (ch.index_ = .KNew ↔ p.channels_ ch.fd_ ≠ some c)) ∧
    ∀ r ∈ p.issued, r.2.2 = true := by
  have hinv := inv_of_reaches hp
  refine ⟨fun c ch hc => ?_, hinv.legal⟩
  have hag := hinv.agrees hc
  refine ⟨?_, fun hindex => ?_, hag.deleted, ?_⟩
  · rw [hag.event_eq]
    split_ifs with hindex <;> simp [hindex]
  · rw [hag.event_eq, if_pos hindex]
  · rw [hag.mapped_eq]
    split_ifs with hindex <;> simp [hindex]

/-- The run that creates a channel on descriptor 5 and enables reading on it. -/
theorem registration_agrees_enableReading :
    ∃ p : EPollPoller Unit, p.channel () = some ⟨5, KReadEvent, 0, .KAdded⟩ ∧
      p.interest 5 = some ⟨KReadEvent, ()⟩ := by
  have hrun := ((Transition.Reaches.refl (init : EPollPoller Unit)).snoc (R := Step)
    (C := Transition.anyLabel) (a := .create () 5) trivial
    (.create rfl rfl fun _ ⟨_, h, _⟩ => by simp [init] at h)).snoc (a := .call () .enableReading)
    trivial (.call rfl rfl .enableReading)
  exact ⟨_, rfl, ((registration_agrees hrun).1 () _ rfl).2.1 rfl⟩

/-! ### One channel at a time -/

/-- The registrations of the live channels. -/
def view (p : EPollPoller C) (c : C) : Option Registration := (p.channel c).map p.registration

/-- What a call does to the registrations: it moves the one of its channel. -/
def Action.onView (v : C → Option Registration) : Action C → C → Option Registration
  | .create c _ => Function.update v c (some Registration.init)
  | .call c i => Function.update v c ((v c).map fun r => r.call i)
  | .remove c => Function.update v c ((v c).map Registration.remove)
  | .poll _ => v
  | .destroy c => Function.update v c none

theorem Local.view_eq {p p' : EPollPoller C} {c : C} {ch ch' : Channel} (hp : p.Inv)
    (hc : p.channel c = some ch) (hl : Local p c ch ch' p') :
    p'.view = Function.update p.view c (some (p'.registration ch')) := by
  funext d
  by_cases hdc : d = c
  · subst hdc
    simp [view, hl.channel_eq]
  · simp only [view, hl.channel_eq, Function.update_of_ne hdc]
    cases hd : p.channel d with
    | none => rfl
    | some dh =>
      have hne : dh.fd_ ≠ ch.fd_ := fun heq => hdc (hp.fd_inj hd hc heq)
      simp [registration, hl.interest_eq _ hne]

private theorem view_fillActiveChannels {evs : List (EpollEvent C)} {p q : EPollPoller C}
    {active : List C} (hp : p.Inv) (h : p.fillActiveChannels evs = some (q, active)) :
    q.view = p.view := by
  induction evs generalizing p active with
  | nil =>
    obtain ⟨rfl, -⟩ := Prod.mk.inj (Option.some.inj h)
    rfl
  | cons ev evs ih =>
    obtain ⟨ch, active', hch, hrest⟩ := fillActiveChannels_cons h
    rw [ih (hp.setRevents hch ev.events) hrest, (local_setRevents ev.events).view_eq hp hch]
    refine Function.update_eq_self_iff.mpr ?_
    simp [view, hch, registration, setChannel]

/-- The poller moves the registration of one channel at a time, as `Registration` does. -/
theorem view_step {p p' : EPollPoller C} {a : Action C} (hp : p.Inv) (h : Step p a p') :
    p'.view = a.onView p.view := by
  cases h with
  | @create c fd _ hc hfd =>
    funext d
    by_cases hdc : d = c
    · subst hdc
      simp [view, setChannel, Action.onView, registration, Registration.init, (hp.unowned hfd).1]
    · simp [view, setChannel, Action.onView, hdc]
      rfl
  | call _ hc i =>
    obtain ⟨ch', op, event, mapped, heq, hfd, -, hreg⟩ := updateChannel_eq_served (hp.agrees hc) i
    rw [heq, (local_served hfd).view_eq hp hc, Action.onView]
    simp only [view, hc, Option.map_some, ← hreg]
    simp [registration, EPollPoller.served]
  | remove _ hc =>
    obtain ⟨-, ch', hl, hreg⟩ := hp.removeChannel hc
    rw [hl.view_eq hp hc, hreg, Action.onView]
    simp [view, hc]
  | poll _ _ hfill => exact view_fillActiveChannels hp hfill
  | @destroy c ch _ hc hnew =>
    funext d
    by_cases hdc : d = c
    · subst hdc
      simp [view, Action.onView]
    · simp [view, Action.onView, hdc]
      rfl

/-! ### The pointers that come back -/

omit [DecidableEq C] in
/-- Every pointer in the interest set is a live channel. -/
theorem Inv.channel_ptr {p : EPollPoller C} (hp : p.Inv) {fd : ℤ} {ev : EpollEvent C}
    (hev : p.interest fd = some ev) : ∃ ch, p.channel ev.ptr = some ch := by
  by_contra hdead
  have hfree : ∀ c, ¬ p.Owns c fd := by
    rintro c ⟨ch, hc, rfl⟩
    have hag := (hp.agrees hc).event_eq
    rw [hev] at hag
    split_ifs at hag
    exact hdead ⟨ch, by rw [Option.some.inj hag]; exact hc⟩
  simp [(hp.unowned hfree).1] at hev

private theorem fillActiveChannels_isSome_of_live {evs : List (EpollEvent C)} {p : EPollPoller C}
    (h : ∀ ev ∈ evs, ∃ ch, p.channel ev.ptr = some ch) : (p.fillActiveChannels evs).isSome := by
  induction evs generalizing p with
  | nil => rfl
  | cons ev evs ih =>
    obtain ⟨ch, hch⟩ := h ev List.mem_cons_self
    simp only [EPollPoller.fillActiveChannels, hch, Option.bind_some, Option.isSome_map]
    refine ih fun ev' hev' => ?_
    obtain ⟨ch', hch'⟩ := h ev' (List.mem_cons_of_mem _ hev')
    by_cases heq : ev'.ptr = ev.ptr
    · exact ⟨_, by simp [setChannel, heq]; rfl⟩
    · exact ⟨ch', by simpa [setChannel, heq] using hch'⟩

/-- In every reachable state the pointers that the kernel reports are live channels, so that
`fillActiveChannels` writes to no dead object. -/
theorem fillActiveChannels_isSome {p : EPollPoller C}
    (hp : Transition.Reaches Step Transition.anyLabel init p) {evs : List (EpollEvent C)}
    (hevs : p.Reported evs) : (p.fillActiveChannels evs).isSome := by
  refine fillActiveChannels_isSome_of_live fun ev hev => ?_
  obtain ⟨fd, m, hfd, -⟩ := hevs ev hev
  have hlive := (inv_of_reaches hp).channel_ptr hfd
  exact hlive

end EPollPoller

end TinyMuduo
