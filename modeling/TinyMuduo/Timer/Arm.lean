import TinyMuduo.Timer.Sound

/-!
# The timerfd is armed for the earliest timer

The timerfd is armed when an insertion makes a timer the earliest one, and at the end of a batch;
the read of the timerfd consumes what it was armed for. With positive times this is enough: between
two operations the timerfd is armed for an expiration that is not later than that of any timer in
`timers_`. Every value that it is armed with is a positive time in the form that `timerfd_settime`
demands.

## Main definitions

* `TimerQueue.PositiveTimes`: the guard of a run with positive times.
* `TimerQueue.Armed`: the timerfd is armed for the timers in `timers_`.

## Main results

* `TimerQueue.armed_of_reaches`: no timer is stranded.
-/

namespace TinyMuduo

open Transition

/-- The time at which the batch was taken is positive. -/
def ReadPhase.IsPositive : ReadPhase → Prop
  | .idle => True
  | .calling now _ _ | .callback now _ _ | .resetting now _ _ => 0 < now

namespace TimerQueue

variable {T C : Type} (q : TimerQueue T C) {q' : TimerQueue T C}

/-- The readings of the clock and the expirations are positive, the intervals are not negative. -/
def PositiveTimes (_ : TimerQueue T C) : Action T C → Prop
  | .new _ _ _ when_ interval => 0 < when_ ∧ 0 ≤ interval
  | .addTimerInLoop _ now | .handleRead now _ _ | .rearm now => 0 < now
  | _ => True

instance (q : TimerQueue T C) : (a : Action T C) → Decidable (q.PositiveTimes a)
  | .new _ _ _ when_ interval => inferInstanceAs (Decidable (0 < when_ ∧ 0 ≤ interval))
  | .addTimerInLoop _ now | .handleRead now _ _ | .rearm now =>
    inferInstanceAs (Decidable (0 < now))
  | .count _ | .load _ | .cancelInLoop _ | .run | .return_ | .endCalls | .reset => .isTrue trivial

/-- If there are timers in `timers_`, the timerfd is armed, for an expiration that is not later than
theirs. -/
def Armed : Prop :=
  (∃ e, e ∈ q.timers_) →
    ∃ expiration, q.timerfd_ = some expiration ∧ ∀ e ∈ q.timers_, expiration ≤ e.when_

/-- The invariant of a run with positive times. -/
structure Positive : Prop where
  live {p t} (ht : q.heap p = .live t) : 0 < t.expiration_ ∧ 0 ≤ t.interval_
  making {c m} (hm : q.making c = some m) : 0 < m.when_ ∧ 0 ≤ m.interval
  phase : q.phase.IsPositive
  armed (h : q.phase = .idle) : q.Armed
  settime {newValue} (h : .settime newValue ∈ q.log) : newValue.Arms

variable {q}

/-! ### Times stay positive -/

theorem Effect.positive_live [DecidableEq T] {a : Action T C} (heffect : q.Effect a q')
    (h : q.Positive) {p : Addr} {t : Timer C} (ht : q'.heap p = .live t) :
    0 < t.expiration_ ∧ 0 ≤ t.interval_ := by
  rcases heffect.live_cases ht with ht₀ | ⟨caller, cb, when_, interval, serial, hmaking, rfl⟩ |
    ⟨now, done, it, todo, t₀, hphase, ht₀, rfl⟩
  · exact h.live ht₀
  · exact h.making hmaking
  · have hnow := h.phase
    rw [hphase] at hnow
    have hinterval := (h.live ht₀).2
    exact ⟨lt_of_lt_of_le hnow (le_addTime _ hinterval), hinterval⟩

theorem Effect.positive_making [DecidableEq T] {a : Action T C} (heffect : q.Effect a q')
    (h : q.Positive) (ha : q.PositiveTimes a) {c : Option T} {m : Making C}
    (hm : q'.making c = some m) : 0 < m.when_ ∧ 0 ≤ m.interval := by
  cases heffect with
  | new cb when_ interval hmaking hp =>
    rcases update_eq_some hm with ⟨-, hm⟩ | ⟨-, hm⟩
    · obtain rfl := Option.some.inj hm
      exact ha
    · exact h.making hm
  | count hmaking =>
    rcases update_eq_some hm with ⟨-, hm⟩ | ⟨-, hm⟩
    · obtain rfl := Option.some.inj hm
      have hold := h.making hmaking
      exact hold
    · exact h.making hm
  | load hmaking =>
    rcases update_eq_some hm with ⟨-, hm⟩ | ⟨-, hm⟩
    · cases hm
    · exact h.making hm
  | addEarliest now hphase hp ht₀ hear | add now hphase hp ht₀ he hle
  | cancel hphase ht hseq hmem | cancelBatch hphase hactive | cancelNothing hphase hactive
  | handleRead now sentinel n hphase hsize hactive | run hphase ht₀ | return_ hphase
  | endCalls hphase | restart hphase ht hrepeat hcancel | discard hphase ht hcancel
  | rearm now' hphase he ht₀ hpos | rearmNothing now' hphase hnot =>
    exact h.making hm

theorem Effect.positive_phase [DecidableEq T] {a : Action T C} (heffect : q.Effect a q')
    (h : q.Positive) (ha : q.PositiveTimes a) : q'.phase.IsPositive := by
  have hphase' := h.phase
  cases heffect with
  | handleRead now sentinel n hphase hsize hactive => exact ha
  | run hphase ht | return_ hphase | endCalls hphase | restart hphase ht hrepeat hcancel
  | discard hphase ht hcancel =>
    rw [hphase] at hphase'
    exact hphase'
  | rearm now' hphase he ht hpos | rearmNothing now' hphase hnot => trivial
  | new cb when_ interval hmaking hp | count hmaking | load hmaking
  | addEarliest now hphase hp ht hear | add now hphase hp ht he hle | cancel hphase ht hseq hmem
  | cancelBatch hphase hactive | cancelNothing hphase hactive => exact hphase'

/-! ### No timer is stranded -/

/-- What `timerfd_settime` is called with. -/
theorem Effect.settime [DecidableEq T] {a : Action T C} (heffect : q.Effect a q')
    (h : q.Positive) {newValue : Timespec} (hmem : .settime newValue ∈ q'.log) :
    newValue.Arms := by
  cases heffect with
  | @addEarliest p t now hphase hp ht hear =>
    rcases List.mem_append.mp hmem with hmem | hmem
    · exact h.settime (by simpa [addedFromFlight, added] using hmem)
    · obtain rfl := TimerEvent.settime.inj (List.mem_singleton.mp hmem)
      exact howMuchTimeFromNow_arms _ _
  | rearm now' hphase he ht hpos =>
    rcases List.mem_append.mp hmem with hmem | hmem
    · exact h.settime hmem
    · obtain rfl := TimerEvent.settime.inj (List.mem_singleton.mp hmem)
      exact howMuchTimeFromNow_arms _ _
  | new cb when_ interval hmaking hp | count hmaking | load hmaking
  | add now hphase hp ht he hle | cancel hphase ht hseq hmem' | cancelBatch hphase hactive
  | cancelNothing hphase hactive | handleRead now sentinel n hphase hsize hactive
  | run hphase ht | return_ hphase | endCalls hphase | restart hphase ht hrepeat hcancel
  | discard hphase ht hcancel | rearmNothing now' hphase hnot =>
    refine h.settime ?_
    simpa [addedFromFlight, added, removed, deleted, batch, restarted] using hmem

/-- Between two operations the timerfd is armed. -/
theorem Effect.armed [DecidableEq T] {a : Action T C} (heffect : q.Effect a q') (hinv : q.Inv)
    (h : q.Positive) (hidle : q'.phase = .idle) : q'.Armed := by
  rintro ⟨e, he⟩
  cases heffect with
  | @addEarliest p t now hphase hp ht hear =>
    refine ⟨t.expiration_, rfl, fun f hf => ?_⟩
    rcases OrderedSet.mem_insert.mp hf with rfl | hf
    · exact le_rfl
    · exact (hear f hf).le
  | @add p t e' now hphase hp ht he' hle =>
    obtain ⟨expiration, htimerfd, hall⟩ := h.armed hidle ⟨e', he'⟩
    refine ⟨expiration, htimerfd, fun f hf => ?_⟩
    rcases OrderedSet.mem_insert.mp hf with rfl | hf
    · exact (hall e' he').trans hle
    · exact hall f hf
  | cancel hphase ht hseq hmem =>
    obtain ⟨expiration, htimerfd, hall⟩ := h.armed hidle ⟨e, (OrderedSet.mem_erase.mp he).2⟩
    exact ⟨expiration, htimerfd, fun f hf => hall f (OrderedSet.mem_erase.mp hf).2⟩
  | new cb when_ interval hmaking hp | count hmaking | load hmaking
  | cancelNothing hphase hactive | cancelBatch hphase hactive => exact h.armed hidle ⟨e, he⟩
  | handleRead now sentinel n hphase hsize hactive | run hphase ht | return_ hphase
  | endCalls hphase | restart hphase ht hrepeat hcancel | discard hphase ht hcancel => cases hidle
  | rearm now' hphase hbegin ht hpos =>
    have hkey := hinv.keyed (OrderedSet.mem_of_begin_eq_some hbegin) ht
    refine ⟨_, rfl, fun f hf => ?_⟩
    rw [hkey]
    exact Entry.when_le (OrderedSet.le_of_begin_eq_some hbegin hf)
  | rearmNothing now' hphase hnot =>
    cases hbegin : q.timers_.begin_ with
    | none => exact absurd he (OrderedSet.begin_eq_none.mp hbegin e)
    | some e' =>
      obtain ⟨t, ht⟩ := exists_live_of_mem hinv (OrderedSet.mem_of_begin_eq_some hbegin)
      exact absurd (hnot e' t hbegin ht) (not_le.mpr (h.live ht).1)

/-- Times stay positive and the timerfd armed. -/
theorem Effect.positive [DecidableEq T] {a : Action T C} (heffect : q.Effect a q') (hinv : q.Inv)
    (h : q.Positive) (ha : q.PositiveTimes a) : q'.Positive where
  live := heffect.positive_live h
  making := heffect.positive_making h ha
  phase := heffect.positive_phase h ha
  armed := heffect.armed hinv h
  settime := heffect.settime h

private theorem positive_init : (init : TimerQueue T C).Positive where
  live ht := by cases ht
  making hm := by cases hm
  phase := trivial
  armed _ := fun ⟨e, he⟩ => absurd he (OrderedSet.notMem_empty e)
  settime h := absurd h List.not_mem_nil

/-- In every run with positive times, between two operations the timerfd is armed, for an expiration
that is not later than those of the timers in `timers_`. What `timerfd_settime` is called with is
not zero and in range. -/
theorem armed_of_reaches [DecidableEq T] (h : Reaches (ofStep step) PositiveTimes init q) :
    (q.phase = .idle → (∃ e, e ∈ q.timers_) →
      ∃ expiration, q.timerfd_ = some expiration ∧ ∀ e ∈ q.timers_, expiration ≤ e.when_) ∧
    ∀ newValue, .settime newValue ∈ q.log → newValue.Arms := by
  have hpositive : q.Positive := h.induct positive_init fun u a v hu ha hstep ih =>
    (step_effect (inv_of_reaches hu) hstep).positive (inv_of_reaches hu) ih ha
  exact ⟨hpositive.armed, fun _ => hpositive.settime⟩

/-- A timer that repeats is in `timers_` again after the batch. -/
theorem armed_of_reaches_repeat : ∃ q : TimerQueue Unit Unit, ⟨2000003, 5⟩ ∈ q.timers_ ∧
    ∃ expiration, q.timerfd_ = some expiration ∧ ∀ e ∈ q.timers_, expiration ≤ e.when_ := by
  obtain ⟨q, hq, hphase, hmem⟩ := Reaches.exists_of_run (C := PositiveTimes) (s := init)
    (P := fun q : TimerQueue Unit Unit => q.phase = .idle ∧ ⟨2000003, 5⟩ ∈ q.timers_) step
    [.new (some ()) 5 () 3 2, .count (some ()), .load (some ()), .addTimerInLoop 5 1,
      .handleRead 3 9 1, .run, .return_, .endCalls, .reset, .rearm 3] (by decide +kernel)
  exact ⟨q, hmem, (armed_of_reaches hq).1 hphase ⟨_, hmem⟩⟩

end TimerQueue

end TinyMuduo
