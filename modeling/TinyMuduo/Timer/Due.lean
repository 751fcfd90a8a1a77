import TinyMuduo.Timer.Repeat
import TinyMuduo.Timer.TimerLoop

/-!
# The timers that a batch calls

`handleRead` compares the expirations, which are sums of seconds and microseconds, with
`Timestamp::now` in seconds, and `getExpired` does not stop at the first timer that is later than
that, but at the first one that is later than this timer. What a batch calls therefore depends on
the order of these sums, and not on the seconds at which the timers are due.

## Main definitions

* `TimerQueue.Booked`: the timers of a queue are as registered.
* `TimerLoop.Move`: what a step does, in terms of a step of the queue.
* `TimerLoop.Timely`, `TimerLoop.Fit`: the invariants.

## Main results

* `TimerQueue.expired_eq_ok_iff`: what `getExpired` finds.
* `TimerLoop.expired_iff_dueFits`: the condition is exact for one batch.
* `TimerLoop.ran_iff_due`: what the batches call.
* `TimerLoop.exists_due_not_run`: a timer that is due is not called.
-/

namespace TinyMuduo

open Transition

/-! ### The search for the expired timers -/

/-- A timer that has run is restarted with its interval. -/
theorem Schedule.expiration_of_ran {r : Schedule} (h : r.ran = true) :
    r.expiration = addTime r.base r.interval := by
  obtain ⟨base, delay, repeats, ran⟩ := r
  obtain rfl : ran = true := h
  cases repeats <;> simp [expiration, interval, IsOver]

theorem Schedule.isDue_of_expiration_le {r : Schedule} {now : ℤ} (h : ¬ r.IsOver)
    (hle : r.expiration ≤ now) : r.IsDue now := by
  rw [expiration, if_neg h] at hle
  have hadd := add_floor_le_addTime r.base (Nat.cast_nonneg r.delay)
  rw [Int.floor_natCast] at hadd
  exact ⟨h, hadd.trans hle⟩

namespace TimerQueue

variable {T C : Type} {timers_ : OrderedSet Entry} {now : ℤ} {sentinel : Addr}

theorem mem_takeWhile_when {m : ℤ} {e : Entry} :
    e ∈ timers_.toList.takeWhile (·.when_ ≤ m) ↔ e ∈ timers_ ∧ e.when_ ≤ m := by
  rw [OrderedSet.mem_takeWhile fun e f hle hf => ?_, decide_eq_true_eq]
  rw [decide_eq_true_eq] at hf ⊢
  exact (Entry.when_le hle).trans hf

/-- `getExpired` finds the timers up to the first one that is later. -/
theorem expired_eq_ok_iff {entries : List Entry} :
    expired timers_ now sentinel = .ok entries ↔
      timers_.toList = [] ∧ entries = [] ∨
        ∃ last, timers_.lowerBound ⟨now, sentinel⟩ = some last ∧ now < last.when_ ∧
          entries = timers_.toList.takeWhile (·.when_ ≤ last.when_) := by
  have hsize : timers_.size = 0 ↔ timers_.toList = [] := List.length_eq_zero_iff
  unfold expired
  cases hbound : timers_.lowerBound ⟨now, sentinel⟩ with
  | none =>
    split_ifs with hempty
    · simp [hsize.mp hempty, eq_comm]
    · simp [mt hsize.mpr hempty]
  | some last =>
    have hne : timers_.toList ≠ [] := List.ne_nil_of_mem (OrderedSet.lowerBound_eq_some hbound).1
    by_cases hlt : now < last.when_
    · simp [hne, hlt, eq_comm]
    · simp [hne, hlt]

/-- `getExpired` finds the first timers. -/
theorem prefix_of_expired {entries : List Entry}
    (h : expired timers_ now sentinel = .ok entries) : entries <+: timers_.toList := by
  rcases expired_eq_ok_iff.mp h with ⟨-, rfl⟩ | ⟨last, -, -, rfl⟩
  · exact List.nil_prefix
  · exact List.takeWhile_prefix _

/-- The first timer that is later has the least expiration after the time of the search. -/
theorem when_le_iff_of_lowerBound {last : Entry}
    (hlast : timers_.lowerBound ⟨now, sentinel⟩ = some last) (hlt : now < last.when_) {e : Entry} :
    e.when_ ≤ last.when_ ↔ ∀ f ∈ timers_, now < f.when_ → e.when_ ≤ f.when_ := by
  obtain ⟨hmem, -, hleast⟩ := OrderedSet.lowerBound_eq_some hlast
  refine ⟨fun hle f hf hnow => hle.trans (Entry.when_le (hleast f hf ?_)),
    fun h => h last hmem hlt⟩
  exact Entry.le_iff.mpr (.inl hnow)

end TimerQueue

namespace TimerLoop

variable {T C : Type} {s : TimerLoop T C}

/-- The search finds exactly the timers in `timers_` that are due if and only if the condition is
met. -/
theorem expired_iff_searchFits {now : ℤ} (sentinel : Addr)
    (hwhen : ∀ e ∈ s.timerQueue_.timers_, e.when_ = (s.registration e.timer).expiration)
    (hover : ∀ e ∈ s.timerQueue_.timers_, (s.registration e.timer).IsOver →
      (s.registration e.timer).base ≤ now) :
    (∃ entries, TimerQueue.expired s.timerQueue_.timers_ now sentinel = .ok entries ∧
      ∀ e ∈ s.timerQueue_.timers_, e ∈ entries ↔ (s.registration e.timer).IsDue now) ↔
      s.SearchFits now sentinel := by
  have hdue {e} (he : e ∈ s.timerQueue_.timers_) (hnot : ¬ (s.registration e.timer).IsOver)
      (hle : e.when_ ≤ now) : (s.registration e.timer).IsDue now :=
    Schedule.isDue_of_expiration_le hnot (hwhen e he ▸ hle)
  constructor
  · rintro ⟨entries, hexpired, hmem⟩
    rcases TimerQueue.expired_eq_ok_iff.mp hexpired with ⟨hempty, -⟩ | ⟨last, hlast, hlt, rfl⟩
    · exact .inl hempty
    · obtain ⟨hlast', hle, hleast⟩ := OrderedSet.lowerBound_eq_some hlast
      refine .inr ⟨fun e he hover' => ?_, fun e he heq => ?_, ⟨last, hlast', hlt⟩,
        fun e he hnow => ?_⟩
      · have hle : e.when_ ≤ last.when_ := by
          rw [hwhen e he, Schedule.expiration, if_pos hover']
          exact (hover e he hover').trans hlt.le
        exact ((hmem e he).mp (TimerQueue.mem_takeWhile_when.mpr ⟨he, hle⟩)).1 hover'
      · by_contra hge
        have hle' : last ≤ e := hleast e he (Entry.le_iff.mpr (.inr ⟨heq.symm, not_lt.mp hge⟩))
        exact absurd (Entry.when_le hle') (by omega)
      · rw [← hmem e he, TimerQueue.mem_takeWhile_when, and_iff_right (OrderedSet.mem_def.mpr he)]
        exact TimerQueue.when_le_iff_of_lowerBound hlast hlt
  · rintro (hempty | ⟨hover', hat, ⟨e, he, hnow⟩, hlater⟩)
    · refine ⟨[], TimerQueue.expired_eq_ok_iff.mpr (.inl ⟨hempty, rfl⟩), fun e he => ?_⟩
      rw [OrderedSet.mem_def, hempty] at he
      cases he
    · cases hlast : s.timerQueue_.timers_.lowerBound ⟨now, sentinel⟩ with
      | none =>
        have hle := Entry.when_le (OrderedSet.lowerBound_eq_none.mp hlast e he).le
        exact absurd hle (not_le.mpr hnow)
      | some last =>
        obtain ⟨hlast', hle, -⟩ := OrderedSet.lowerBound_eq_some hlast
        have hlt : now < last.when_ := by
          rcases Entry.le_iff.mp hle with hlt | ⟨heq, haddr⟩
          · exact hlt
          · exact absurd haddr (not_le.mpr (hat last hlast' heq.symm))
        refine ⟨_, TimerQueue.expired_eq_ok_iff.mpr (.inr ⟨last, hlast, hlt, rfl⟩),
          fun f hf => ?_⟩
        rw [TimerQueue.mem_takeWhile_when, and_iff_right hf]
        rcases le_or_gt f.when_ now with hnow' | hnow'
        · exact iff_of_true (hnow'.trans hlt.le) (hdue hf (hover' f hf) hnow')
        · rw [hlater f hf hnow']
          exact TimerQueue.when_le_iff_of_lowerBound hlast hlt

end TimerLoop

/-! ### The expirations follow the registrations -/

/-- The second of the batch. -/
def ReadPhase.time : ReadPhase → ℤ
  | idle => 0
  | calling now _ _ | callback now _ _ | resetting now _ _ => now

namespace TimerQueue

variable {T C : Type} {q q' : TimerQueue T C} {registered : ℕ → Schedule}

/-- The timers of a queue are as registered. A timer that has been called in the batch keeps its
expiration until it is reset. -/
structure Booked (q : TimerQueue T C) (registered : ℕ → Schedule) : Prop where
  making {c m} (hm : q.making c = some m) :
    m.when_ = (registered m.serial).expiration ∧ m.interval = (registered m.serial).interval
  interval {p t} (ht : q.heap p = .live t) : t.interval_ = (registered t.serial).interval
  called {p t} (ht : q.heap p = .live t) (hp : p ∈ q.phase.called.map Entry.timer) :
    (registered t.serial).ran = true ∧ (registered t.serial).base = q.phase.time
  waiting {p t} (ht : q.heap p = .live t) (hp : p ∉ q.phase.called.map Entry.timer) :
    t.expiration_ = (registered t.serial).expiration

theorem Booked.of_eq (h : q.Booked registered) (hheap : q'.heap = q.heap)
    (hmaking : q'.making = q.making) (hcalled : q'.phase.called = q.phase.called)
    (htime : q.phase.called ≠ [] → q'.phase.time = q.phase.time) : q'.Booked registered where
  making hm := h.making (hmaking ▸ hm)
  interval ht := h.interval (hheap ▸ ht)
  called ht hp := by
    rw [hcalled] at hp
    have hne : q.phase.called ≠ [] := fun heq => by simp [heq] at hp
    rw [htime hne]
    exact h.called (hheap ▸ ht) hp
  waiting ht hp := h.waiting (hheap ▸ ht) (hcalled ▸ hp)

/-- A construction starts: the next number is registered. -/
theorem Booked.new [DecidableEq T] (h : q.Booked registered) (hserials : q.Serials)
    {caller : Option T} {p : Addr} {m : Making C} {r : Schedule} (hserial : m.serial = q.born)
    (hwhen : m.when_ = r.expiration) (hinterval : m.interval = r.interval) :
    Booked { q with
      heap := Function.update q.heap p .raw
      making := Function.update q.making caller (some m)
      born := q.born + 1 } (Function.update registered q.born r) := by
  have hlive {p' t} (ht : Function.update q.heap p .raw p' = .live t) :
      q.heap p' = .live t ∧ Function.update registered q.born r t.serial = registered t.serial := by
    have ht' := (of_update_dead ht rfl).2
    have hne : t.serial ≠ q.born := (hserials.lt_born (.live ht' rfl)).ne
    exact ⟨ht', Function.update_of_ne hne ..⟩
  refine ⟨fun {c m'} hm' => ?_, fun ht => ?_, fun ht hp => ?_, fun ht hp => ?_⟩
  · rcases update_eq_some hm' with ⟨-, hm'⟩ | ⟨-, hm'⟩
    · obtain rfl := Option.some.inj hm'
      rw [hserial, Function.update_self]
      exact ⟨hwhen, hinterval⟩
    · have hne : m'.serial ≠ q.born := (hserials.lt_born (.making hm' rfl rfl)).ne
      rw [Function.update_of_ne hne]
      exact h.making hm'
  · obtain ⟨ht', heq⟩ := hlive ht
    rw [heq]
    exact h.interval ht'
  · obtain ⟨ht', heq⟩ := hlive ht
    rw [heq]
    exact h.called ht' hp
  · obtain ⟨ht', heq⟩ := hlive ht
    rw [heq]
    exact h.waiting ht' hp

/-- A construction ends. -/
theorem Booked.load [DecidableEq T] (h : q.Booked registered) (hinv : q.Inv) {caller : Option T}
    {m : Making C} {t₀ : Timer C} (hm : q.making caller = some m) (hserial : t₀.serial = m.serial)
    (hwhen : t₀.expiration_ = m.when_) (hinterval : t₀.interval_ = m.interval)
    (log : List TimerEvent) :
    Booked { q with
      heap := Function.update q.heap m.addr (.live t₀)
      making := Function.update q.making caller none
      inFlight := m.addr :: q.inFlight
      log := log } registered := by
  have hnot := notMem_called_of_making hinv hm
  refine ⟨fun hm' => ?_, fun ht => ?_, fun ht hp => ?_, fun ht hp => ?_⟩
  · rcases update_eq_some hm' with ⟨-, hm'⟩ | ⟨-, hm'⟩
    · cases hm'
    · exact h.making hm'
  · rcases of_update_live ht with ⟨rfl, rfl⟩ | ⟨-, ht⟩
    · rw [hserial, hinterval]
      exact (h.making hm).2
    · exact h.interval ht
  · rcases of_update_live ht with ⟨rfl, rfl⟩ | ⟨-, ht⟩
    · exact absurd hp hnot
    · exact h.called ht hp
  · rcases of_update_live ht with ⟨rfl, rfl⟩ | ⟨-, ht⟩
    · rw [hserial, hwhen]
      exact (h.making hm).1
    · exact h.waiting ht hp

/-- A timer is called: the second of its last run is that of the batch. -/
theorem Booked.run (h : q.Booked registered) (hinv : q.Inv) (hserials : q.Serials) {now : ℤ}
    {ran todo : List Entry} {it : Entry} {t₀ : Timer C}
    (hphase : q.phase = .calling now ran (it :: todo)) (ht₀ : q.heap it.timer = .live t₀) :
    Booked { q with
      phase := .callback now (ran ++ [it]) todo
      log := q.log ++ [.ran t₀.serial] }
      (Function.update registered t₀.serial
        { registered t₀.serial with base := now, ran := true }) := by
  have hother {p t} (ht : q.heap p = .live t) (hp : p ≠ it.timer) :
      Function.update registered t₀.serial
        { registered t₀.serial with base := now, ran := true } t.serial = registered t.serial :=
    Function.update_of_ne (serial_ne hserials ht ht₀ hp) ..
  refine ⟨fun hm => ?_, fun {p t} ht => ?_, fun {p t} ht hp => ?_, fun {p t} ht hp => ?_⟩
  · have hne := fun heq => addr_ne_of_live hinv hm ht₀
      (hserials.unique (.making hm rfl heq) (.live ht₀ rfl))
    rw [Function.update_of_ne hne]
    exact h.making hm
  · have hold := h.interval ht
    by_cases heq : p = it.timer
    · subst heq
      obtain rfl := Cell.live.inj (ht.symm.trans ht₀)
      rw [Function.update_self]
      exact hold
    · rw [hother ht heq]
      exact hold
  · by_cases heq : p = it.timer
    · subst heq
      obtain rfl := Cell.live.inj (ht.symm.trans ht₀)
      rw [Function.update_self]
      exact ⟨rfl, rfl⟩
    · rw [hother ht heq]
      have hcalled := h.called ht (by simpa [hphase, ReadPhase.called, heq] using hp)
      rw [hphase] at hcalled
      exact hcalled
  · have heq : p ≠ it.timer := by
      rintro rfl
      simp [ReadPhase.called] at hp
    rw [hother ht heq]
    exact h.waiting ht (by simpa [hphase, ReadPhase.called, heq] using hp)

/-- A timer is restarted with its interval. -/
theorem Booked.restart (h : q.Booked registered) {now : ℤ} {done todo : List Entry} {it : Entry}
    {t₀ : Timer C} (hphase : q.phase = .resetting now done (it :: todo))
    (ht₀ : q.heap it.timer = .live t₀) : (q.restarted it t₀ now done todo).Booked registered := by
  have hcalled₀ := h.called ht₀ (by simp [hphase, ReadPhase.called])
  have hcalled {p t} (ht : q.heap p = .live t) (hp : p ∈ todo.map Entry.timer) :=
    h.called ht (by simpa [hphase, ReadPhase.called] using .inr (List.mem_map.mp hp))
  simp only [hphase, ReadPhase.time] at hcalled₀ hcalled
  refine ⟨fun hm => h.making hm, fun ht => ?_, fun ht hp => ?_, fun ht hp => ?_⟩
  · rcases of_restarted_live ht with ⟨rfl, rfl⟩ | ⟨-, ht⟩
    · have hold := h.interval ht₀
      exact hold
    · exact h.interval ht
  · rcases of_restarted_live ht with ⟨rfl, rfl⟩ | ⟨-, ht⟩
    · exact hcalled₀
    · exact hcalled ht hp
  · rcases of_restarted_live ht with ⟨rfl, rfl⟩ | ⟨hne, ht⟩
    · have hexpiration := Schedule.expiration_of_ran hcalled₀.1
      rw [hcalled₀.2, ← h.interval ht₀] at hexpiration
      exact hexpiration.symm
    · refine h.waiting ht ?_
      rw [hphase, ReadPhase.called, List.map_cons, List.mem_cons, not_or]
      exact ⟨hne, hp⟩

/-- A timer is deleted: by a cancel, or by `reset`. -/
theorem Booked.delete (h : q.Booked registered) {p₀ : Addr}
    (hheap : q'.heap = Function.update q.heap p₀ .free) (hmaking : q'.making = q.making)
    (hcalled : ∀ p ≠ p₀, p ∈ q'.phase.called.map Entry.timer ↔ p ∈ q.phase.called.map Entry.timer)
    (htime : q'.phase.time = q.phase.time) : q'.Booked registered := by
  have hlive {p t} (ht : q'.heap p = .live t) : p ≠ p₀ ∧ q.heap p = .live t := by
    rw [hheap] at ht
    exact of_update_dead ht rfl
  refine ⟨fun hm => h.making (hmaking ▸ hm), fun ht => h.interval (hlive ht).2, fun ht hp => ?_,
    fun ht hp => ?_⟩
  · rw [htime]
    exact h.called (hlive ht).2 ((hcalled _ (hlive ht).1).mp hp)
  · exact h.waiting (hlive ht).2 fun hp' => hp ((hcalled _ (hlive ht).1).mpr hp')

/-- The other steps of the queue keep the registrations. -/
theorem Effect.booked [DecidableEq T] {a : Action T C} (heffect : q.Effect a q') (hinv : q.Inv)
    (h : q.Booked registered) (hnew : ∀ caller p cb when_ interval,
      a ≠ .new caller p cb when_ interval) (hrun : a ≠ .run) : q'.Booked registered := by
  cases heffect with
  | new cb when_ interval hmaking hp => exact absurd rfl (hnew _ _ _ _ _)
  | run hphase ht => exact absurd rfl hrun
  | @count caller p cb when_ interval serial hmaking =>
    refine ⟨fun hm => ?_, h.interval, h.called, h.waiting⟩
    rcases update_eq_some hm with ⟨-, hm⟩ | ⟨-, hm⟩
    · obtain rfl := Option.some.inj hm
      have hold := h.making hmaking
      exact hold
    · exact h.making hm
  | load hmaking => exact h.load hinv hmaking rfl rfl rfl _
  | addEarliest now hphase hp ht hear | add now hphase hp ht he hle
  | cancelBatch hphase hactive | cancelNothing hphase hactive =>
    exact h.of_eq rfl rfl rfl fun _ => rfl
  | cancel hphase ht hseq hmem => exact h.delete rfl rfl (fun _ _ => Iff.rfl) rfl
  | handleRead now sentinel n hphase hsize hactive =>
    refine h.of_eq rfl rfl ?_ fun hne => ?_
    · rw [hphase]
      rfl
    · rw [hphase] at hne
      exact absurd rfl hne
  | return_ hphase | endCalls hphase =>
    refine h.of_eq rfl rfl ?_ fun _ => ?_
    · rw [hphase]
      rfl
    · rw [hphase]
      rfl
  | restart hphase ht hrepeat hcancel => exact h.restart hphase ht
  | discard hphase ht hcancel =>
    refine h.delete rfl rfl (fun p hp => ?_) ?_
    · simp [hphase, ReadPhase.called, hp]
    · rw [hphase]
      rfl
  | rearm now' hphase he ht hpos | rearmNothing now' hphase hnot =>
    refine h.of_eq rfl rfl ?_ fun hne => ?_
    · rw [hphase]
      rfl
    · rw [hphase] at hne
      exact absurd rfl hne

/-- The other steps do not change the second of the batch. -/
theorem Effect.time [DecidableEq T] {a : Action T C} (heffect : q.Effect a q')
    (hread : ∀ now sentinel n, a ≠ .handleRead now sentinel n) (h : q'.phase ≠ .idle) :
    q.phase ≠ .idle ∧ q'.phase.time = q.phase.time := by
  cases heffect with
  | handleRead now sentinel n hphase hsize hactive => exact absurd rfl (hread _ _ _)
  | run hphase ht | return_ hphase | endCalls hphase | restart hphase ht hrepeat hcancel
  | discard hphase ht hcancel =>
    rw [hphase]
    exact ⟨ReadPhase.noConfusion, rfl⟩
  | rearm now' hphase he ht hpos | rearmNothing now' hphase hnot => exact absurd rfl h
  | new cb when_ interval hmaking hp | count hmaking | load hmaking
  | addEarliest now hphase hp ht hear | add now hphase hp ht he hle | cancel hphase ht hseq hmem
  | cancelBatch hphase hactive | cancelNothing hphase hactive => exact ⟨h, rfl⟩

/-! ### The calls of a batch -/

/-- What is kept of a batch while its timers are called. -/
structure SameBatch (q q' : TimerQueue T C) : Prop where
  isCalling : q.phase.isCalling = true
  expired : q'.phase.expired = q.phase.expired
  called : q'.phase.called = q.phase.called
  serialAt {e} (he : e ∈ q.phase.expired) : q'.serialAt e.timer = q.serialAt e.timer
  ran (serial : ℕ) : RanInBatch q'.log serial ↔ RanInBatch q.log serial

private theorem serialAt_eq {p : Addr} {t : Timer C} (ht : q.heap p = .live t) :
    q.serialAt p = t.serial := by
  rw [serialAt, ht]

private theorem serialAt_congr {p : Addr} (h : q'.heap p = q.heap p) :
    q'.serialAt p = q.serialAt p := by
  rw [serialAt, serialAt, h]

/-- The steps of the callbacks and of the other threads. -/
theorem Effect.sameBatch [DecidableEq T] {a : Action T C} (heffect : q.Effect a q')
    (hinv : q.Inv) (hread : ∀ now sentinel n, a ≠ .handleRead now sentinel n) (hrun : a ≠ .run)
    (h : q'.phase.isCalling = true) : SameBatch q q' := by
  have hother {p : Addr} {c : Cell C} (hp : ∀ e ∈ q.phase.expired, e.timer ≠ p) {e : Entry}
      (he : e ∈ q.phase.expired) : Function.update q.heap p c e.timer = q.heap e.timer :=
    Function.update_of_ne (hp e he) ..
  cases heffect with
  | handleRead now sentinel n hphase hsize hactive => exact absurd rfl (hread _ _ _)
  | run hphase ht => exact absurd rfl hrun
  | endCalls hphase | restart hphase ht hrepeat hcancel | discard hphase ht hcancel
  | rearm now' hphase he ht hpos | rearmNothing now' hphase hnot => cases h
  | @new caller p cb when_ interval hmaking hp =>
    refine ⟨h, rfl, rfl, fun he => serialAt_congr (hother (fun e he => ?_) he), fun _ => Iff.rfl⟩
    rintro rfl
    obtain ⟨t, ht⟩ := exists_live_of_expired hinv he
    cases ht.symm.trans hp
  | load hmaking =>
    refine ⟨h, rfl, rfl, fun he => serialAt_congr (hother (fun e he => ?_) he),
      ranInBatch_append (by simp) (by simp)⟩
    obtain ⟨t, ht⟩ := exists_live_of_expired hinv he
    exact (addr_ne_of_live hinv hmaking ht).symm
  | cancel hphase ht hseq hmem =>
    refine ⟨h, rfl, rfl, fun he => serialAt_congr (hother (fun e he => ?_) he), fun serial => ?_⟩
    · exact (ne_of_mem_of_expired hinv hmem he).symm
    · rw [List.append_assoc]
      exact ranInBatch_append (by simp) (by simp) serial
  | count hmaking => exact ⟨h, rfl, rfl, fun _ => rfl, fun _ => Iff.rfl⟩
  | addEarliest now hphase hp ht hear =>
    refine ⟨h, rfl, rfl, fun _ => rfl, fun serial => ?_⟩
    simp only [resetTimerfd, addedFromFlight, added, List.append_assoc]
    exact ranInBatch_append (by simp) (by simp) serial
  | add now hphase hp ht he hle | cancelBatch hphase hactive | cancelNothing hphase hactive =>
    exact ⟨h, rfl, rfl, fun _ => rfl, ranInBatch_append (by simp) (by simp)⟩
  | return_ hphase =>
    refine ⟨?_, ?_, ?_, fun _ => rfl, fun _ => Iff.rfl⟩ <;> rw [hphase] <;> rfl

end TimerQueue

/-! ### Every run -/

namespace TimerLoop

variable {T C : Type} [DecidableEq T] (s : TimerLoop T C)

/-- What a step does, in terms of a step of the queue. -/
inductive Move : Action T C → TimerLoop T C → Prop
  | register {a caller p cb r q} (hran : r.ran = false)
      (hstep : s.timerQueue_.step (.new caller p cb (addTime r.base r.delay) r.interval) = some q) :
    Move a { s with
      timerQueue_ := q
      now := max s.now r.base
      registered := Function.update s.registered s.timerQueue_.born r }
  | handleRead {now sentinel entries q}
      (hexpired : TimerQueue.expired s.timerQueue_.timers_ now sentinel = .ok entries)
      (hnow : s.now ≤ now)
      (hstep : s.timerQueue_.step (.handleRead now sentinel entries.length) = some q) :
    Move (.handleRead now sentinel) { s with
      timerQueue_ := q
      now := now
      due := (s.waiting.filter fun p => (s.registration p).IsDue now).map
        s.timerQueue_.serialAt }
  | run {now ran it todo q} (hphase : s.timerQueue_.phase = .calling now ran (it :: todo))
      (hstep : s.timerQueue_.step .run = some q) :
    Move .run { s with
      timerQueue_ := q
      registered := Function.update s.registered (s.timerQueue_.serialAt it.timer)
        { s.registration it.timer with base := now, ran := true } }
  | queue {a now q} (hread : reading s.now a = some now) (hnow : s.now ≤ now)
      (hstep : s.timerQueue_.step a = some q) :
    Move (.queue a) { s with timerQueue_ := q, now := now }

variable {s} {s' : TimerLoop T C}

private theorem register_move {a : Action T C} {caller : Option T} {p : Addr} {cb : C}
    {r : Schedule} (hran : r.ran = false) (h : s.register caller p cb r = some s') :
    s.Move a s' := by
  rw [register] at h
  split_ifs at h
  obtain ⟨q, hstep, rfl⟩ := Option.map_eq_some_iff.mp h
  exact .register hran hstep

theorem step_move {a : Action T C} (h : s.step a = some s') : s.Move a s' := by
  cases a with
  | runAfter caller p now delay cb | runEvery caller p now interval cb =>
    exact register_move rfl h
  | handleRead now sentinel =>
    rw [step, handleRead] at h
    split at h
    · next entries hexpired =>
      split_ifs at h with hcond
      obtain ⟨q, hstep, rfl⟩ := Option.map_eq_some_iff.mp h
      exact .handleRead hexpired hcond.1 hstep
    · cases h
  | run =>
    rw [step, run] at h
    split at h
    · next now ran it todo hphase =>
      obtain ⟨q, hstep, rfl⟩ := Option.map_eq_some_iff.mp h
      exact .run hphase hstep
    · cases h
  | queue a =>
    obtain ⟨now, hread, h⟩ := Option.bind_eq_some_iff.mp h
    split_ifs at h with hnow
    obtain ⟨q, hstep, h⟩ := Option.bind_eq_some_iff.mp h
    obtain rfl := Option.some.inj h
    exact .queue hread hnow hstep

theorem Move.exists_step {a : Action T C} (h : s.Move a s') :
    ∃ b, s.timerQueue_.step b = some s'.timerQueue_ := by
  cases h with
  | register hran hstep | handleRead hexpired hnow hstep | run hphase hstep
  | queue hread hnow hstep => exact ⟨_, hstep⟩

/-- The queue of a loop is a timer queue. -/
theorem reaches_timerQueue {G : TimerLoop T C → Action T C → Prop} {start : ℤ}
    (h : Reaches (ofStep step) G (init start) s) :
    Reaches (ofStep TimerQueue.step) anyLabel TimerQueue.init s.timerQueue_ := by
  refine h.map timerQueue_ fun u a v _ _ hstep => ?_
  obtain ⟨b, hb⟩ := (step_move hstep).exists_step
  exact (Reaches.refl _).snoc trivial hb

/-- The invariant of the clock and the registrations. -/
structure Timely (s : TimerLoop T C) : Prop where
  booked : s.timerQueue_.Booked s.registered
  base_le {serial} (h : (s.registered serial).ran = true) : (s.registered serial).base ≤ s.now
  time_le (h : s.timerQueue_.phase ≠ .idle) : s.timerQueue_.phase.time ≤ s.now

omit [DecidableEq T] in
private theorem ne_handleRead_of_reading {start now : ℤ} {a : TimerQueue.Action T C}
    (h : reading start a = some now) :
    (∀ caller p cb when_ interval, a ≠ .new caller p cb when_ interval) ∧
      (∀ now' sentinel n, a ≠ .handleRead now' sentinel n) ∧ a ≠ .run := by
  cases a with
  | new | handleRead | run => cases h
  | count | load | addTimerInLoop | cancelInLoop | return_ | endCalls | reset | rearm => simp

/-- The invariant of the clock and the registrations is kept. -/
theorem Move.timely {a : Action T C} (hmove : s.Move a s') (hinv : s.timerQueue_.Inv)
    (hserials : s.timerQueue_.Serials) (h : s.Timely) : s'.Timely := by
  cases hmove with
  | @register a caller p cb r q hran hstep =>
    have heffect := TimerQueue.step_effect hinv hstep
    cases heffect with
    | new cb when_ interval hmaking hp =>
      refine ⟨h.booked.new hserials rfl ?_ rfl, fun {serial} hr => ?_, fun hne => ?_⟩
      · simp [Making.when_, Schedule.expiration, Schedule.IsOver, hran]
      · by_cases heq : serial = s.timerQueue_.born
        · subst heq
          simp [hran] at hr
        · simp only [Function.update_of_ne heq] at hr ⊢
          exact (h.base_le hr).trans (le_max_left _ _)
      · exact (h.time_le hne).trans (le_max_left _ _)
  | handleRead hexpired hnow hstep =>
    have heffect := TimerQueue.step_effect hinv hstep
    refine ⟨heffect.booked hinv h.booked (by simp) (by simp),
      fun hr => (h.base_le hr).trans hnow, fun _ => ?_⟩
    cases heffect with
    | handleRead now sentinel n hphase hsize hactive => exact le_rfl
  | @run now ran it todo q hphase hstep =>
    have heffect := TimerQueue.step_effect hinv hstep
    have hnow : now ≤ s.now := by
      have htime := h.time_le (by simp [hphase])
      rwa [hphase] at htime
    cases heffect with
    | run hphase' ht =>
      obtain ⟨rfl, rfl, hcons⟩ := ReadPhase.calling.inj (hphase.symm.trans hphase')
      obtain ⟨rfl, rfl⟩ := List.cons.inj hcons
      refine ⟨?_, fun {serial} hr => ?_, fun _ => hnow⟩
      · rw [registration, TimerQueue.serialAt_eq ht]
        exact h.booked.run hinv hserials hphase ht
      · by_cases heq : serial = s.timerQueue_.serialAt it.timer
        · subst heq
          simpa using hnow
        · simp only [Function.update_of_ne heq] at hr ⊢
          exact h.base_le hr
  | queue hread hnow hstep =>
    have heffect := TimerQueue.step_effect hinv hstep
    obtain ⟨hnew, hread', hrun⟩ := ne_handleRead_of_reading hread
    refine ⟨heffect.booked hinv h.booked hnew hrun, fun hr => (h.base_le hr).trans hnow,
      fun hne => ?_⟩
    obtain ⟨hne', htime⟩ := heffect.time hread' hne
    exact htime.le.trans ((h.time_le hne').trans hnow)

omit [DecidableEq T] in
/-- The expirations in `timers_` between two batches. -/
theorem Timely.when_eq (h : s.Timely) (hinv : s.timerQueue_.Inv)
    (hphase : s.timerQueue_.phase = .idle) {e : Entry} (he : e ∈ s.timerQueue_.timers_) :
    e.when_ = (s.registration e.timer).expiration := by
  obtain ⟨t, ht⟩ := TimerQueue.exists_live_of_mem hinv he
  rw [registration, TimerQueue.serialAt_eq ht, ← hinv.keyed he ht]
  exact h.booked.waiting ht (by simp [hphase, ReadPhase.called])

omit [DecidableEq T] in
/-- The batch calls exactly the timers that are due if and only if the condition is met. -/
theorem expired_iff_dueFits {now : ℤ} {sentinel : Addr} (hinv : s.timerQueue_.Inv)
    (htimely : s.Timely) (hphase : s.timerQueue_.phase = .idle) (hnow : s.now ≤ now) :
    (∃ entries, TimerQueue.expired s.timerQueue_.timers_ now sentinel = .ok entries ∧
      ∀ p ∈ s.waiting, p ∈ entries.map Entry.timer ↔ (s.registration p).IsDue now) ↔
      s.DueFits (.handleRead now sentinel) := by
  have hsearch := expired_iff_searchFits sentinel
    (fun e he => htimely.when_eq hinv hphase he)
    fun e he hover => (htimely.base_le hover.2).trans hnow
  have htimer {entries : List Entry} (hpre : entries <+: s.timerQueue_.timers_.toList)
      {e : Entry} (he : e ∈ s.timerQueue_.timers_) :
      e.timer ∈ entries.map Entry.timer ↔ e ∈ entries := by
    refine ⟨fun hmem => ?_, List.mem_map_of_mem⟩
    obtain ⟨f, hf, heq⟩ := List.mem_map.mp hmem
    obtain rfl := List.inj_on_of_nodup_map (TimerQueue.nodup_timers hinv) (hpre.subset hf) he heq
    exact hf
  rw [DueFits, ← hsearch]
  constructor
  · rintro ⟨entries, hexpired, hmem⟩
    have hpre := TimerQueue.prefix_of_expired hexpired
    refine ⟨fun p hp hisDue => ?_, entries, hexpired, fun e he => ?_⟩
    · obtain ⟨e, he, heq⟩ := List.mem_map.mp ((hmem p (List.mem_append_right _ hp)).mpr hisDue)
      exact TimerQueue.ne_of_mem_of_inFlight hinv (hpre.subset he) hp heq
    · rw [← htimer hpre he]
      exact hmem _ (List.mem_append_left _ (List.mem_map_of_mem he))
  · rintro ⟨hflight, entries, hexpired, hmem⟩
    have hpre := TimerQueue.prefix_of_expired hexpired
    refine ⟨entries, hexpired, fun p hp => ?_⟩
    rcases List.mem_append.mp hp with hp | hp
    · obtain ⟨e, he, rfl⟩ := List.mem_map.mp hp
      exact (htimer hpre he).trans (hmem e he)
    · refine iff_of_false (fun hmem' => ?_) (hflight p hp)
      obtain ⟨e, he, heq⟩ := List.mem_map.mp hmem'
      exact TimerQueue.ne_of_mem_of_inFlight hinv (hpre.subset he) hp heq

/-- The invariant of a batch that calls the timers that were due. -/
structure Fit (s : TimerLoop T C) : Prop where
  due (h : s.timerQueue_.phase.isCalling = true) (serial : ℕ) :
    serial ∈ s.due ↔ ∃ e ∈ s.timerQueue_.phase.expired, s.timerQueue_.serialAt e.timer = serial
  ran (h : s.timerQueue_.phase.isCalling = true) (serial : ℕ) :
    TimerQueue.RanInBatch s.timerQueue_.log serial ↔
      ∃ e ∈ s.timerQueue_.phase.called, s.timerQueue_.serialAt e.timer = serial

omit [DecidableEq T] in
theorem Fit.of_sameBatch {q : TimerQueue T C} {now : ℤ} {registered : ℕ → Schedule}
    (h : s.Fit)
    (hsame : q.phase.isCalling = true → TimerQueue.SameBatch s.timerQueue_ q) :
    Fit { s with timerQueue_ := q, now := now, registered := registered } := by
  refine ⟨fun hcalling serial => ?_, fun hcalling serial => ?_⟩
  · have hsame := hsame hcalling
    refine (h.due hsame.isCalling serial).trans ?_
    simp only [hsame.expired]
    exact exists_congr fun e => and_congr_right fun he => by rw [hsame.serialAt he]
  · have hsame := hsame hcalling
    refine (hsame.ran serial).trans ((h.ran hsame.isCalling serial).trans ?_)
    simp only [hsame.called]
    exact exists_congr fun e => and_congr_right fun he => by
      rw [hsame.serialAt (ReadPhase.called_subset _ he)]

/-- When `getExpired` finds the timers that are due, the batch calls them. -/
theorem Move.fit {a : Action T C} (hmove : s.Move a s') (hinv : s.timerQueue_.Inv)
    (htimely : s.Timely) (h : s.Fit) (ha : s.DueFits a) : s'.Fit := by
  cases hmove with
  | register hran hstep =>
    exact h.of_sameBatch fun hcalling =>
      (TimerQueue.step_effect hinv hstep).sameBatch hinv (by simp) (by simp) hcalling
  | queue hread hnow hstep =>
    obtain ⟨hnew, hread', hrun⟩ := ne_handleRead_of_reading hread
    exact h.of_sameBatch fun hcalling =>
      (TimerQueue.step_effect hinv hstep).sameBatch hinv hread' hrun hcalling
  | @run now ran it todo q hphase hstep =>
    have heffect := TimerQueue.step_effect hinv hstep
    cases heffect with
    | run hphase' ht =>
      obtain ⟨rfl, rfl, hcons⟩ := ReadPhase.calling.inj (hphase.symm.trans hphase')
      obtain ⟨rfl, rfl⟩ := List.cons.inj hcons
      have hcalling : s.timerQueue_.phase.isCalling = true := by
        rw [hphase]
        rfl
      refine ⟨fun _ serial => (h.due hcalling serial).trans ?_, fun _ serial => ?_⟩
      · rw [hphase]
        simp [ReadPhase.expired, TimerQueue.serialAt]
      · have hold := h.ran hcalling serial
        rw [hphase] at hold
        refine (TimerQueue.ranInBatch_append_ran serial _).trans ?_
        rw [hold, ← TimerQueue.serialAt_eq ht]
        simp only [ReadPhase.called, List.mem_append, List.mem_singleton]
        constructor
        · rintro (rfl | ⟨e, he, hserial⟩)
          · exact ⟨it, .inr rfl, rfl⟩
          · exact ⟨e, .inl he, hserial⟩
        · rintro ⟨e, he | rfl, hserial⟩
          · exact .inr ⟨e, he, hserial⟩
          · exact .inl hserial.symm
  | @handleRead now sentinel entries q hexpired hnow hstep =>
    have heffect := TimerQueue.step_effect hinv hstep
    cases heffect with
    | handleRead now sentinel n hphase hsize hactive =>
      obtain ⟨entries', hexpired', hdue⟩ :=
        (expired_iff_dueFits hinv htimely hphase hnow).mpr ha
      obtain rfl := Except.ok.inj (hexpired.symm.trans hexpired')
      have hpre := TimerQueue.prefix_of_expired hexpired
      have htake : s.timerQueue_.timers_.toList.take entries.length = entries :=
        (List.prefix_iff_eq_take.mp hpre).symm
      refine ⟨fun _ serial => ?_, fun _ serial => ?_⟩
      · simp only [TimerQueue.batch, ReadPhase.expired, List.nil_append, htake, List.mem_map,
          List.mem_filter, decide_eq_true_eq]
        constructor
        · rintro ⟨p, ⟨hp, hisDue⟩, hserial⟩
          obtain ⟨e, he, rfl⟩ := List.mem_map.mp ((hdue p hp).mpr hisDue)
          exact ⟨e, he, hserial⟩
        · rintro ⟨e, he, hserial⟩
          have hp : e.timer ∈ s.waiting :=
            List.mem_append_left _ (List.mem_map_of_mem (hpre.subset he))
          exact ⟨e.timer, ⟨hp, (hdue _ hp).mp (List.mem_map_of_mem he)⟩, hserial⟩
      · refine iff_of_false (TimerQueue.not_ranInBatch_append_read _ _) ?_
        rintro ⟨e, he, -⟩
        cases he

omit [DecidableEq T] in
private theorem timely_init (start : ℤ) : (init start : TimerLoop T C).Timely where
  booked := by
    refine ⟨fun hm => ?_, fun ht => ?_, fun ht => ?_, fun ht => ?_⟩
    · cases hm
    all_goals cases ht
  base_le h := by cases h
  time_le h := absurd rfl h

omit [DecidableEq T] in
private theorem fit_init (start : ℤ) : (init start : TimerLoop T C).Fit where
  due h := by cases h
  ran h := by cases h

/-- The invariant of the clock and the registrations holds in every run. -/
theorem timely_of_reaches {G : TimerLoop T C → Action T C → Prop} {start : ℤ}
    (h : Reaches (ofStep step) G (init start) s) : s.Timely :=
  h.induct (timely_init start) fun _ _ _ hu _ hstep ih =>
    (step_move hstep).timely (TimerQueue.inv_of_reaches (reaches_timerQueue hu))
      (TimerQueue.serials_of_reaches (reaches_timerQueue hu)) ih

/-- In every run, between two batches, `getExpired` finds exactly the timers that are due if and
only if the condition is met. In every run in which each batch meets the condition, a batch whose
timers have all been called has called exactly those that were due when it started. -/
theorem ran_iff_due {start : ℤ} (h : Reaches (ofStep step) anyLabel (init start) s) :
    (∀ now sentinel, s.timerQueue_.phase = .idle → s.now ≤ now →
      ((∃ entries, TimerQueue.expired s.timerQueue_.timers_ now sentinel = .ok entries ∧
        ∀ p ∈ s.waiting, p ∈ entries.map Entry.timer ↔ (s.registration p).IsDue now) ↔
        s.DueFits (.handleRead now sentinel))) ∧
    (Reaches (ofStep step) DueFits (init start) s →
      ∀ now ran, s.timerQueue_.phase = .calling now ran [] →
        ∀ serial, TimerQueue.RanInBatch s.timerQueue_.log serial ↔ serial ∈ s.due) := by
  refine ⟨fun now sentinel hphase hnow => ?_, fun hfits now ran hphase serial => ?_⟩
  · exact expired_iff_dueFits (TimerQueue.inv_of_reaches (reaches_timerQueue h))
      (timely_of_reaches h) hphase hnow
  · have hfit : s.Fit := hfits.induct (fit_init start) fun u a v hu ha hstep ih =>
      (step_move hstep).fit (TimerQueue.inv_of_reaches (reaches_timerQueue hu))
        (timely_of_reaches hu) ih ha
    have hcalling : s.timerQueue_.phase.isCalling = true := by
      rw [hphase]
      rfl
    rw [hfit.ran hcalling, hfit.due hcalling, hphase, ReadPhase.expired, ReadPhase.called,
      List.append_nil]

/-- A timer that runs every 2 seconds, and its second batch. -/
theorem ran_iff_due_every_two : ∃ s : TimerLoop Unit Unit, .ran 0 ∈ s.timerQueue_.log ∧
    ∀ serial, TimerQueue.RanInBatch s.timerQueue_.log serial ↔ serial ∈ s.due := by
  obtain ⟨s, hs, hphase, hran⟩ := Reaches.exists_of_run (C := DueFits) (s := init 100)
    (P := fun s : TimerLoop Unit Unit =>
      s.timerQueue_.phase = .calling 104 [⟨2000102, 5⟩] [] ∧ .ran 0 ∈ s.timerQueue_.log) step
    [.runEvery none 5 100 2 (), .queue (.count none), .queue (.load none),
      .queue (.addTimerInLoop 5 100), .handleRead 102 9, .run, .queue .return_, .queue .endCalls,
      .queue .reset, .queue (.rearm 102), .handleRead 104 9, .run, .queue .return_]
    (by decide +kernel)
  exact ⟨s, hran, (ran_iff_due (hs.mono fun _ _ _ => trivial)).2 hs _ _ hphase⟩

/-- The loop registers a timer at second 100 to run after 10 seconds, and another one at second 105
to run after 6 seconds. At second 111 both are due, and the batch calls the other one only. -/
theorem exists_due_not_run : ∃ s : TimerLoop Unit Unit,
    Reaches (ofStep step) anyLabel (init 100) s ∧
      s.timerQueue_.phase = .calling 111 [⟨6000105, 6⟩] [] ∧
      0 ∈ s.due ∧ .ran 0 ∉ s.timerQueue_.log :=
  Reaches.exists_of_run step
    [.runAfter none 5 100 10 (), .queue (.count none), .queue (.load none),
      .queue (.addTimerInLoop 5 100), .runAfter none 6 105 6 (), .queue (.count none),
      .queue (.load none), .queue (.addTimerInLoop 6 105), .handleRead 111 9, .run,
      .queue .return_] (by decide +kernel)

end TimerLoop

end TinyMuduo
