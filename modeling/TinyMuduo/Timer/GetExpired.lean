import TinyMuduo.Timer.Due

/-!
# The search for the expired timers

`TimerQueue::getExpired` (`resoure/TimerQueue.cpp`) looks for the bound of the timers that have
expired and then goes through `timers_` again. The loop does not stop at the bound: it compares
each timer with the one at the bound, and stops at the first timer that is later than that one. When
there is no timer at the bound, the comparison reads `timers_.end()`. This file says when the
function does what it is for.

## Main definitions

* `TimerQueue.getExpired`: the member function.
* `TimerQueue.TakesExpired`: the timers that have expired are returned in order and taken out of
  both sets, and no others.

## Main results

* `TimerQueue.getExpired_eq`: what the function returns it takes out of both sets.
* `TimerQueue.handleRead_eq_getExpired`: `handleRead` starts with `getExpired`.
* `TimerQueue.takesExpired_iff`: the function does what it is for exactly when there are no timers.
* `TimerQueue.getExpired_single`: with one timer it reads through the end, or takes the timer before
  it has expired.
-/

namespace TinyMuduo

open Transition

namespace TimerQueue

variable {T C : Type}

/-- `TimerQueue::getExpired`. -/
def getExpired (q : TimerQueue T C) (now : ℤ) (sentinel : Addr) :
    Except Fault (TimerQueue T C × List Entry) := do
  assert (q.timers_.size = q.activeTimers_.size)
  let entries ← expired q.timers_ now sentinel
  let q' ← q.eraseExpired entries
  assert (q'.timers_.size = q'.activeTimers_.size)
  return (q', entries)

/-- The timers that have expired at `now` are those in `entries`, in order, and they are taken out
of both sets, in which all the others stay. -/
structure TakesExpired (q : TimerQueue T C) (now : ℤ) (q' : TimerQueue T C)
    (entries : List Entry) : Prop where
  entries_eq : entries = q.timers_.toList.filter (·.when_ ≤ now)
  mem_timers (e : Entry) : e ∈ q'.timers_ ↔ e ∈ q.timers_ ∧ e ∉ entries
  mem_activeTimers (id : TimerId) :
    id ∈ q'.activeTimers_ ↔ id ∈ q.activeTimers_ ∧ id.timer_ ∉ entries.map Entry.timer

variable {q q' : TimerQueue T C} {now : ℤ} {sentinel : Addr} {entries : List Entry}

/-- A fault of the search is a fault of the function. -/
theorem getExpired_error (h : q.Inv) {fault : Fault}
    (hexpired : expired q.timers_ now sentinel = .error fault) :
    q.getExpired now sentinel = .error fault := by
  rw [getExpired, assert_of h.size_eq]
  simp only [bind, Except.bind, hexpired]

/-- What the search finds is taken out of both sets, and nothing else. -/
theorem getExpired_eq (h : q.Inv) (hexpired : expired q.timers_ now sentinel = .ok entries) :
    ∃ active, q.getExpired now sentinel = .ok ({ q with
        timers_ := q.timers_.drop entries.length
        activeTimers_ := active }, entries) ∧
      ∀ id, id ∈ active ↔ id ∈ q.activeTimers_ ∧ id.timer_ ∉ entries.map Entry.timer := by
  have htake : entries = q.timers_.toList.take entries.length :=
    List.prefix_iff_eq_take.mp (prefix_of_expired hexpired)
  obtain ⟨active, herase, hsize, hiff⟩ := eraseExpired_take h entries.length
  rw [← htake] at herase hiff
  refine ⟨active, ?_, hiff⟩
  rw [getExpired, assert_of h.size_eq]
  simp only [bind, Except.bind, hexpired, herase, assert_of hsize]
  rfl

/-- The search finds what the function returns. -/
theorem expired_of_getExpired (h : q.Inv) (hget : q.getExpired now sentinel = .ok (q', entries)) :
    expired q.timers_ now sentinel = .ok entries := by
  cases hexpired : expired q.timers_ now sentinel with
  | error fault =>
    rw [getExpired_error h hexpired] at hget
    cases hget
  | ok found =>
    obtain ⟨active, heq, -⟩ := getExpired_eq h hexpired
    rw [heq] at hget
    exact congrArg Except.ok (congrArg Prod.snd (Except.ok.inj hget))

/-- `handleRead` starts with `getExpired`, which takes the first timers. -/
theorem handleRead_eq_getExpired (h : q.Inv)
    (hget : q.getExpired now sentinel = .ok (q', entries)) :
    q.handleRead now entries.length = .ok { q' with
      timerfd_ := none
      callingExpiredTimers_ := true
      caneclingTimers_ := .empty
      phase := .calling now [] entries
      cancelled := []
      log := q'.log ++ [.read] } := by
  have hexpired := expired_of_getExpired h hget
  have htake : q.timers_.toList.take entries.length = entries :=
    (List.prefix_iff_eq_take.mp (prefix_of_expired hexpired)).symm
  obtain ⟨active, herase, hsize, -⟩ := eraseExpired_take h entries.length
  rw [htake] at herase
  rw [getExpired, assert_of h.size_eq] at hget
  simp only [bind, Except.bind, hexpired, herase, assert_of hsize] at hget
  obtain rfl := congrArg Prod.fst (Except.ok.inj hget)
  rw [handleRead, assert_of h.size_eq, htake]
  simp only [bind, Except.bind, herase, assert_of hsize]
  rfl

/-- When there are timers, the search finds one that has not expired. -/
theorem exists_later_of_expired (hexpired : expired q.timers_ now sentinel = .ok entries)
    (hne : q.timers_.toList ≠ []) : ∃ e ∈ entries, now < e.when_ := by
  rcases expired_eq_ok_iff.mp hexpired with ⟨hnil, -⟩ | ⟨last, hlast, hlt, rfl⟩
  · exact absurd hnil hne
  · exact ⟨last, mem_takeWhile_when.mpr ⟨(OrderedSet.lowerBound_eq_some hlast).1, le_rfl⟩, hlt⟩

variable [DecidableEq T]

/-- **The expired timers.** For every reachable set of timers, every time and every address of the
timer that is made for the search: `getExpired` returns the timers that have expired, in order, and
takes exactly these out of both sets, if and only if there are no timers at all. Otherwise it reads
through `timers_.end()`, or its assertion fails, or it also takes timers that have not expired. -/
theorem takesExpired_iff (h : Reaches (ofStep step) anyLabel init q) (now : ℤ) (sentinel : Addr) :
    (∃ q' entries, q.getExpired now sentinel = .ok (q', entries) ∧
      q.TakesExpired now q' entries) ↔ q.timers_.toList = [] := by
  have hinv : q.Inv := inv_of_reaches h
  constructor
  · rintro ⟨q', entries, hget, htakes⟩
    by_contra hne
    obtain ⟨e, he, hlater⟩ := exists_later_of_expired (expired_of_getExpired hinv hget) hne
    rw [htakes.entries_eq, List.mem_filter, decide_eq_true_eq] at he
    exact absurd he.2 (not_le.mpr hlater)
  · intro hnil
    have hexpired : expired q.timers_ now sentinel = .ok [] :=
      expired_eq_ok_iff.mpr (.inl ⟨hnil, rfl⟩)
    obtain ⟨active, hget, hactive⟩ := getExpired_eq hinv hexpired
    refine ⟨_, [], hget, by rw [hnil]; rfl, fun e => ?_, hactive⟩
    simp [OrderedSet.mem_def, OrderedSet.drop]

/-- A timer has been added and cancelled, and the queue has none; another one has been added and is
still there. -/
theorem takesExpired_iff_cancelled :
    (∃ q : TimerQueue Unit Unit, .cancelled ⟨5, 1⟩ ∈ q.log ∧ ∃ q' entries,
      q.getExpired 3 9 = .ok (q', entries) ∧ q.TakesExpired 3 q' entries) ∧
    ∃ q : TimerQueue Unit Unit, q.timers_.toList = [⟨3, 5⟩] ∧ ¬ ∃ q' entries,
      q.getExpired 3 9 = .ok (q', entries) ∧ q.TakesExpired 3 q' entries := by
  let added : List (Action Unit Unit) :=
    [.new (some ()) 5 () 3 2, .count (some ()), .load (some ()), .addTimerInLoop 5 1]
  obtain ⟨q, hq, hcancelled, hnil⟩ := Reaches.exists_of_run (C := anyLabel)
    (s := (init : TimerQueue Unit Unit))
    (P := fun q => .cancelled ⟨5, 1⟩ ∈ q.log ∧ q.timers_.toList = []) step
    (added ++ [.cancelInLoop ⟨5, 1⟩]) (by decide +kernel)
  obtain ⟨r, hr, hsingle⟩ := Reaches.exists_of_run (C := anyLabel)
    (s := (init : TimerQueue Unit Unit)) (P := fun q => q.timers_.toList = [⟨3, 5⟩]) step
    added (by decide +kernel)
  refine ⟨⟨q, hcancelled, (takesExpired_iff hq 3 9).mpr hnil⟩, r, hsingle, ?_⟩
  rw [takesExpired_iff hr 3 9, hsingle]
  exact List.cons_ne_nil _ _

/-- A timer is added that expires at second 3. At second 3 `getExpired` reads through the end of
`timers_`; at second 2 it takes the timer, which has not expired. -/
theorem getExpired_single : ∃ q : TimerQueue Unit Unit, Reaches (ofStep step) anyLabel init q ∧
    q.timers_.toList = [⟨3, 5⟩] ∧ (q.getExpired 3 9).map Prod.snd = .error .endIterator ∧
      (q.getExpired 2 9).map Prod.snd = .ok [⟨3, 5⟩] :=
  Reaches.exists_of_run step
    [.new (some ()) 5 () 3 2, .count (some ()), .load (some ()), .addTimerInLoop 5 1]
    (by decide +kernel)

end TimerQueue

end TinyMuduo
