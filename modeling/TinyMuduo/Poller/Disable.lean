import Mathlib.Algebra.Group.Nat.Even
import TinyMuduo.Poller.EPollPoller

/-!
# Channels that are interested in nothing

`disableReading`, `disableWriting` and `disableAll` can leave `events_` empty, and each of them ends
in `EPollPoller::updateChannel` (`resoure/EpollPoll.cpp`). For a channel that is registered,
`updateChannel` asks `isNoneEvent()` and takes the descriptor out of the interest set. For a channel
that is not registered it does not ask: the descriptor is added with the empty mask. This file says
for every reachable poller which of the two happens, and what follows for repeated calls of
`disableAll`.

## Main definitions

* `Interest.disables`: the member functions that clear bits of `events_`.
* `EPollPoller.changeEvents`: a member function of a live channel, with the `updateChannel` it ends
  in.
* `EPollPoller.unlogged`: the poller without the list of the requests it has issued.
* `EPollPoller.EmptiesAdded`: the guard that `events_` becomes empty on registered channels only.

## Main results

* `EPollPoller.disable_iff_added`: a disable operation that empties `events_` leaves the descriptor
  out of the interest set exactly when the channel was registered, and repetitions of `disableAll`
  have the effect of one call exactly when their number is odd.
* `EPollPoller.disableAll_new`: a new channel is registered with the empty mask by `disableAll`.
-/

namespace TinyMuduo

/-- The member functions that clear bits of `events_`. -/
def Interest.disables : Interest → Bool
  | .disableReading | .disableWriting | .disableAll => true
  | .enableReading | .enableWriting => false

namespace EPollPoller

variable {C : Type*} [DecidableEq C]

/-- The member function `i` of the channel at `c`: the change of `events_`, then `update()`. -/
def changeEvents (c : C) (i : Interest) (p : EPollPoller C) : EPollPoller C :=
  match p.channel c with
  | some ch => (p.setChannel c { ch with events_ := i.apply ch.events_ }).updateChannel c
      { ch with events_ := i.apply ch.events_ }
  | none => p

omit [DecidableEq C] in
/-- The poller without the list of the requests it has issued. -/
def unlogged (p : EPollPoller C) : EPollPoller C := { p with issued := [] }

variable {p q : EPollPoller C} {c : C} {ch : Channel} {i : Interest}

private theorem changeEvents_of_live (hc : p.channel c = some ch) : p.changeEvents c i =
    (p.setChannel c { ch with events_ := i.apply ch.events_ }).updateChannel c
      { ch with events_ := i.apply ch.events_ } := by
  simp [changeEvents, hc]

/-- The member functions of live channels are steps of the poller. -/
theorem Inv.step_changeEvents (hp : p.Inv) (hc : p.channel c = some ch) :
    Step p (.call c i) (p.changeEvents c i) := by
  rw [changeEvents_of_live hc]
  exact .call hp.running hc i

omit [DecidableEq C] in
private theorem unlogged_update (op : CtlOp) (c : C) (ch : Channel) (p : EPollPoller C) :
    (p.unlogged.update op c ch).unlogged = (p.update op c ch).unlogged := by
  unfold update
  rw [show p.unlogged.interest = p.interest from rfl]
  cases epoll_ctl p.interest op ch.fd_ ⟨ch.events_, c⟩ <;> rfl

private theorem unlogged_updateChannel (c : C) (ch : Channel) (p : EPollPoller C) :
    (p.unlogged.updateChannel c ch).unlogged = (p.updateChannel c ch).unlogged := by
  unfold updateChannel
  cases ch.index_ with
  | KNew =>
    exact unlogged_update _ _ _
      (({ p with channels_ := Function.update p.channels_ ch.fd_ (some c) }).setChannel c
        { ch with index_ := .KAdded })
  | KDeleted => exact unlogged_update _ _ _ (p.setChannel c { ch with index_ := .KAdded })
  | KAdded =>
    have hdel := unlogged_update .EPOLL_CTL_DEL c ch p
    have hmod := unlogged_update .EPOLL_CTL_MOD c ch p
    by_cases hnone : ch.events_.isNoneEvent
    · simp only [hnone, if_true]
      exact congrArg (fun q : EPollPoller C => q.setChannel c { ch with index_ := .KDeleted }) hdel
    · simpa only [hnone, if_false, Bool.false_eq_true] using hmod

/-- The requests issued before have no influence on a call. -/
theorem unlogged_changeEvents (c : C) (i : Interest) (p : EPollPoller C) :
    (p.unlogged.changeEvents c i).unlogged = (p.changeEvents c i).unlogged := by
  unfold changeEvents
  rw [show p.unlogged.channel = p.channel from rfl]
  cases p.channel c with
  | none => rfl
  | some ch => exact unlogged_updateChannel _ _ (p.setChannel c _)

/-! ### Calls that leave `events_` empty -/

/-- On a registered channel the descriptor is taken out of the interest set. -/
theorem Inv.changeEvents_added (hp : p.Inv) (hc : p.channel c = some ch)
    (hempty : i.apply ch.events_ = KNoneEvent) (hindex : ch.index_ = .KAdded) :
    p.changeEvents c i = p.served c { ch with events_ := KNoneEvent, index_ := .KDeleted }
      .EPOLL_CTL_DEL none (some c) := by
  have hevent := (hp.agrees hc).event_eq
  have hmapped := (hp.agrees hc).mapped_eq
  rw [changeEvents_of_live hc, hempty]
  simp_all [updateChannel, EPollPoller.served, setChannel, update, epoll_ctl]

/-- On a channel that is not registered the descriptor is added with the empty mask. -/
theorem Inv.changeEvents_not_added (hp : p.Inv) (hc : p.channel c = some ch)
    (hempty : i.apply ch.events_ = KNoneEvent) (hindex : ch.index_ ≠ .KAdded) :
    p.changeEvents c i = p.served c { ch with events_ := KNoneEvent, index_ := .KAdded }
      .EPOLL_CTL_ADD (some ⟨KNoneEvent, c⟩) (some c) := by
  have hevent := (hp.agrees hc).event_eq
  have hmapped := (hp.agrees hc).mapped_eq
  rw [changeEvents_of_live hc, hempty]
  cases hnew : ch.index_ with
  | KAdded => exact absurd hnew hindex
  | KNew | KDeleted => simp_all [updateChannel, EPollPoller.served, setChannel, update, epoll_ctl]

/-- After the call the descriptor is outside of the interest set exactly when the channel was
registered. -/
theorem Inv.interest_changeEvents_eq_none_iff (hp : p.Inv) (hc : p.channel c = some ch)
    (hempty : i.apply ch.events_ = KNoneEvent) :
    (p.changeEvents c i).interest ch.fd_ = none ↔ ch.index_ = .KAdded := by
  constructor
  · intro hnone
    by_contra hindex
    rw [hp.changeEvents_not_added hc hempty hindex] at hnone
    simp [EPollPoller.served] at hnone
  · intro hindex
    rw [hp.changeEvents_added hc hempty hindex]
    simp [EPollPoller.served]

/-! ### Repeated calls of `disableAll` -/

/-- `disableAll` on the channel at `c`. -/
def disableAll (c : C) (p : EPollPoller C) : EPollPoller C := p.changeEvents c .disableAll

private theorem unlogged_disableAll_congr (h : p.unlogged = q.unlogged) :
    (p.disableAll c).unlogged = (q.disableAll c).unlogged := by
  rw [disableAll, disableAll, ← unlogged_changeEvents, h, unlogged_changeEvents]

/-- `disableAll` empties `events_` and turns a registered channel into one that is not registered,
and the other way round. -/
theorem Inv.channel_disableAll (hp : p.Inv) (hc : p.channel c = some ch) :
    (p.disableAll c).channel c = some { ch with
      events_ := KNoneEvent
      index_ := if ch.index_ = .KAdded then .KDeleted else .KAdded } := by
  by_cases hindex : ch.index_ = .KAdded
  · rw [disableAll, hp.changeEvents_added hc rfl hindex]
    simp [EPollPoller.served, hindex]
  · rw [disableAll, hp.changeEvents_not_added hc rfl hindex]
    simp [EPollPoller.served, hindex]

theorem Inv.disableAll (hp : p.Inv) (hc : p.channel c = some ch) : (p.disableAll c).Inv :=
  inv_step hp (hp.step_changeEvents hc)

/-- A second request that restores the records of the channel undoes the first one. -/
theorem unlogged_served_served {ch' : Channel} {op op' : CtlOp}
    {event event' : Option (EpollEvent C)} {mapped mapped' : Option C}
    (hc : p.channel c = some ch) (hfd : ch'.fd_ = ch.fd_) (hevent : p.interest ch.fd_ = event)
    (hmapped : p.channels_ ch.fd_ = mapped) :
    ((p.served c ch' op' event' mapped').served c ch op event mapped).unlogged = p.unlogged := by
  subst hevent hmapped
  simp [EPollPoller.served, unlogged, hfd, ← hc]

/-- On a channel that is interested in nothing and known to the poller, two calls of `disableAll`
undo each other. -/
theorem Inv.disableAll_twice (hp : p.Inv) (hc : p.channel c = some ch)
    (hempty : ch.events_ = KNoneEvent) (hindex : ch.index_ ≠ .KNew) :
    ((p.disableAll c).disableAll c).unlogged = p.unlogged := by
  have hp' := hp.disableAll hc
  have hc' := hp.channel_disableAll hc
  have hevent := (hp.agrees hc).event_eq
  have hmapped := (hp.agrees hc).mapped_eq
  obtain ⟨fd, events, revents, index⟩ := ch
  obtain rfl : events = KNoneEvent := hempty
  rw [if_neg hindex] at hmapped
  cases index with
  | KNew => exact absurd rfl hindex
  | KAdded =>
    rw [if_pos rfl] at hevent hc'
    rw [EPollPoller.disableAll, hp'.changeEvents_not_added hc' rfl (by simp),
      EPollPoller.disableAll, hp.changeEvents_added hc rfl rfl]
    exact unlogged_served_served hc rfl hevent hmapped
  | KDeleted =>
    rw [if_neg (by simp)] at hevent hc'
    rw [EPollPoller.disableAll, hp'.changeEvents_added hc' rfl rfl,
      EPollPoller.disableAll, hp.changeEvents_not_added hc rfl (by simp)]
    exact unlogged_served_served hc rfl hevent hmapped

/-- Every second call leaves the poller as the first of them found it. -/
theorem Inv.unlogged_iterate_disableAll (hp : p.Inv) (hc : p.channel c = some ch)
    (hempty : ch.events_ = KNoneEvent) (hindex : ch.index_ ≠ .KNew) (n : ℕ) :
    ((EPollPoller.disableAll c)^[n] p).unlogged =
      if Even n then p.unlogged else (p.disableAll c).unlogged := by
  induction n with
  | zero => rfl
  | succ n ih =>
    rw [Function.iterate_succ_apply']
    by_cases hn : Even n
    · rw [if_pos hn] at ih
      rw [if_neg (Nat.even_add_one.not.mpr (not_not_intro hn)), unlogged_disableAll_congr ih]
    · rw [if_neg hn] at ih
      rw [if_pos (Nat.even_add_one.mpr hn), unlogged_disableAll_congr ih,
        hp.disableAll_twice hc hempty hindex]

/-- One call of `disableAll` on a channel known to the poller changes its index. -/
theorem Inv.unlogged_disableAll_ne (hp : p.Inv) (hc : p.channel c = some ch)
    (hindex : ch.index_ ≠ .KNew) : (p.disableAll c).unlogged ≠ p.unlogged := by
  intro heq
  have hchannel : (p.disableAll c).channel c = p.channel c := congrArg (fun r => r.channel c) heq
  rw [hp.channel_disableAll hc, hc] at hchannel
  have hidx := congrArg Channel.index_ (Option.some.inj hchannel)
  cases hch : ch.index_ with
  | KNew => exact hindex hch
  | KAdded => simp [hch] at hidx
  | KDeleted => simp [hch] at hidx

/-- Repetitions of `disableAll` have the effect of one call when their number is odd, and only
then. -/
theorem Inv.iterate_disableAll_iff (hp : p.Inv) (hc : p.channel c = some ch) {n : ℕ} (hn : 0 < n) :
    ((EPollPoller.disableAll c)^[n] p).unlogged = (p.disableAll c).unlogged ↔ Odd n := by
  obtain ⟨m, rfl⟩ := Nat.exists_eq_succ_of_ne_zero hn.ne'
  have hp' := hp.disableAll hc
  have hc' := hp.channel_disableAll hc
  have hindex : (if ch.index_ = .KAdded then Index.KDeleted else .KAdded) ≠ .KNew := by
    split <;> simp
  rw [Function.iterate_succ_apply, hp'.unlogged_iterate_disableAll hc' rfl hindex,
    Nat.odd_add_one, Nat.not_odd_iff_even]
  by_cases hm : Even m
  · simp [hm]
  · simpa [hm] using hp'.unlogged_disableAll_ne hc' hindex

/-! ### Runs -/

/-- The guard that `events_` becomes empty on registered channels only. -/
def EmptiesAdded (p : EPollPoller C) : Action C → Prop
  | .call c i => ∀ ch, p.channel c = some ch → i.apply ch.events_ = KNoneEvent →
      ch.index_ = .KAdded
  | _ => True

/-- While `events_` becomes empty on registered channels only, registered channels are interested
in something. -/
theorem nonempty_of_reaches (hp : Transition.Reaches Step EmptiesAdded init p) :
    p.Inv ∧ ∀ c r, p.view c = some r → r.index_ = .KAdded → r.events_ ≠ KNoneEvent := by
  refine hp.invariant (I := fun p => p.Inv ∧
    ∀ c r, p.view c = some r → r.index_ = .KAdded → r.events_ ≠ KNoneEvent)
    ⟨inv_init, fun c r hr => by simp [view, init] at hr⟩ ?_
  rintro u a v ⟨hu, hmask⟩ hguard hstep
  refine ⟨inv_step hu hstep, fun d r hr hindex => ?_⟩
  rw [view_step hu hstep] at hr
  have hframe {c : C} {o : Option Registration} (hr : Function.update u.view c o d = some r)
      (hdc : d ≠ c) : r.events_ ≠ KNoneEvent :=
    hmask d r (by simpa [hdc] using hr) hindex
  cases hstep with
  | @create c fd _ hc hfd =>
    by_cases hdc : d = c
    · subst hdc
      obtain rfl : Registration.init = r := by simpa [Action.onView] using hr
      cases hindex
    · exact hframe hr hdc
  | @call c ch _ hc i =>
    by_cases hdc : d = c
    · subst hdc
      obtain rfl : (u.registration ch).call i = r := by
        simpa [Action.onView, view, hc] using hr
      intro hempty
      rw [Registration.events_call] at hempty
      have hadded : (u.registration ch).index_ = .KAdded := hguard ch hc hempty
      simp [Registration.call, Registration.update, hadded, hempty, Registration.isNoneEvent]
        at hindex
    · exact hframe hr hdc
  | @remove c ch _ hc =>
    by_cases hdc : d = c
    · subst hdc
      obtain rfl : (u.registration ch).remove = r := by
        simpa [Action.onView, view, hc] using hr
      cases hindex
    · exact hframe hr hdc
  | poll _ _ _ => exact hmask d r hr hindex
  | @destroy c ch _ hc hnew =>
    by_cases hdc : d = c
    · subst hdc
      simp [Action.onView] at hr
    · exact hframe hr hdc

/-- **Disabling.** For every reachable poller and every live channel: a disable operation that
empties `events_` leaves the descriptor out of the interest set exactly when the channel was
registered, and any number of calls of `disableAll` has the effect of one call exactly when it is
odd. In a run in which `events_` becomes empty on registered channels only, no descriptor is
registered with an empty mask. -/
theorem disable_iff_added (hp : Transition.Reaches Step Transition.anyLabel init p)
    (hc : p.channel c = some ch) :
    (∀ i : Interest, Step p (.call c i) (p.changeEvents c i)) ∧
    (∀ i : Interest, i.disables = true → i.apply ch.events_ = KNoneEvent →
      ((p.changeEvents c i).interest ch.fd_ = none ↔ ch.index_ = .KAdded)) ∧
    (∀ n : ℕ, 0 < n →
      (((disableAll c)^[n] p).unlogged = (p.disableAll c).unlogged ↔ Odd n)) ∧
    (Transition.Reaches Step EmptiesAdded init p →
      ∀ ev, p.interest ch.fd_ = some ev → ev.events ≠ KNoneEvent) := by
  have hinv := inv_of_reaches hp
  refine ⟨fun i => hinv.step_changeEvents hc,
    fun i _ hempty => hinv.interest_changeEvents_eq_none_iff hc hempty,
    fun n hn => hinv.iterate_disableAll_iff hc hn, fun hguarded ev hev => ?_⟩
  have hevent := (hinv.agrees hc).event_eq
  rw [hev] at hevent
  split_ifs at hevent with hindex
  rw [Option.some.inj hevent]
  exact (nonempty_of_reaches hguarded).2 c (p.registration ch) (by simp [view, hc]) hindex

/-- A channel on descriptor 5 that was enabled for reading: `disableReading` takes it out of the
interest set, and three calls of `disableAll` are as good as one. -/
theorem disable_iff_added_enableReading :
    ∃ p : EPollPoller Unit, Transition.Reaches Step Transition.anyLabel init p ∧
      (p.changeEvents () .disableReading).interest 5 = none ∧
      ((disableAll ())^[3] p).unlogged = (p.disableAll ()).unlogged := by
  obtain ⟨p, hrun, hlive⟩ : ∃ p : EPollPoller Unit,
      Transition.Reaches Step Transition.anyLabel init p ∧
      p.channel () = some ⟨5, KReadEvent, 0, .KAdded⟩ :=
    ⟨_, ((Transition.Reaches.refl (init : EPollPoller Unit)).snoc (R := Step)
      (C := Transition.anyLabel) (a := .create () 5) trivial
      (.create rfl rfl fun _ ⟨_, h, _⟩ => by simp [init] at h)).snoc (a := .call () .enableReading)
      trivial (.call rfl rfl .enableReading), rfl⟩
  have hdisable := (disable_iff_added hrun hlive).2
  exact ⟨p, hrun, (hdisable.1 .disableReading rfl (by decide)).mpr rfl,
    (hdisable.2.1 3 (by decide)).mpr (by decide)⟩

/-- A new channel on descriptor 5, on which nothing was enabled: `disableAll` registers it with the
empty mask, and the second call of `disableAll` takes it out again. -/
theorem disableAll_new :
    ∃ p : EPollPoller Unit, Transition.Reaches Step Transition.anyLabel init p ∧
      p.channel () = some ⟨5, KNoneEvent, 0, .KNew⟩ ∧
      (p.disableAll ()).interest 5 = some ⟨KNoneEvent, ()⟩ ∧
      ((p.disableAll ()).disableAll ()).unlogged ≠ (p.disableAll ()).unlogged := by
  have hrun := (Transition.Reaches.refl (init : EPollPoller Unit)).snoc (R := Step)
    (C := Transition.anyLabel) (a := .create () 5) trivial
    (.create rfl rfl fun _ ⟨_, h, _⟩ => by simp [init] at h)
  refine ⟨_, hrun, rfl, rfl, fun heq => ?_⟩
  have hinterest := congrArg (fun q : EPollPoller Unit => q.interest 5) heq
  cases hinterest

end EPollPoller

end TinyMuduo
