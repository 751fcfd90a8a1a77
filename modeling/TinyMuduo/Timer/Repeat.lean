import TinyMuduo.Timer.Cancel

/-!
# Which timers repeat

The constructor of `Timer` computes `repeat_` from the time for which the timer is registered, and
not from its interval. A timer with interval 0 that is registered for a positive time therefore
repeats, with the time of each batch as its expiration, and a timer with a positive interval that is
registered for a time that is not positive does not. As long as `reset` meets neither of them, a
timer with interval 0 runs once at most and is deleted after its batch, and a timer with a positive
interval is in `timers_` again after its batch unless it was cancelled.

## Main definitions

* `TimerQueue.RepeatFits`: the guard of a run in which `reset` repeats the timers with an interval.
* `ReadPhase.called`, `TimerQueue.RanInBatch`: what has been called in the batch.

## Main results

* `TimerQueue.repeats_of_reaches`: what happens to the timers without and with an interval.
* `TimerQueue.exists_once_ran_twice`: a timer with interval 0 runs twice.
-/

namespace TinyMuduo

open Transition

/-- The entries of the batch that have been called and not been reset. -/
def ReadPhase.called : ReadPhase → List Entry
  | idle => []
  | calling _ ran _ | callback _ ran _ => ran
  | resetting _ _ todo => todo

theorem ReadPhase.called_subset (phase : ReadPhase) : phase.called ⊆ phase.expired := by
  cases phase with
  | idle | resetting now done todo => exact List.Subset.refl _
  | calling now ran todo | callback now ran todo => exact List.subset_append_left _ _

namespace TimerQueue

variable {T C : Type} (q : TimerQueue T C) {q' : TimerQueue T C}

/-- The timer has run, and the timerfd has not been read since. -/
def RanInBatch (log : List TimerEvent) (serial : ℕ) : Prop :=
  ∃ pre post, log = pre ++ .ran serial :: post ∧ .read ∉ post

/-- The timer that `reset` handles next. -/
def nextReset : Option (Entry × Timer C) :=
  match q.phase with
  | .resetting _ _ (it :: _) =>
    match q.heap it.timer with
    | .live t => some (it, t)
    | .raw | .free => none
  | _ => none

/-- When `reset` handles a timer that is not marked, a timer with interval 0 was registered for a
time that is not positive, and a timer with a positive interval for a positive time. -/
def RepeatFits : Action T C → Prop
  | .reset => ∀ x ∈ q.nextReset, ⟨x.1.timer, x.2.sequence_⟩ ∉ q.caneclingTimers_ →
    (x.2.interval_ = 0 → ¬ 0 < x.2.registered) ∧ (0 < x.2.interval_ → 0 < x.2.registered)
  | _ => True

instance (q : TimerQueue T C) : (a : Action T C) → Decidable (q.RepeatFits a)
  | .reset => inferInstanceAs (Decidable (∀ x ∈ q.nextReset,
      ⟨x.1.timer, x.2.sequence_⟩ ∉ q.caneclingTimers_ →
      (x.2.interval_ = 0 → ¬ 0 < x.2.registered) ∧ (0 < x.2.interval_ → 0 < x.2.registered)))
  | .new .. | .count _ | .load _ | .addTimerInLoop .. | .cancelInLoop _ | .handleRead ..
  | .run | .return_ | .endCalls | .rearm _ => .isTrue trivial

/-- A timer with an interval that ran in the batch: it has not been reset, it has been cancelled,
or it is in `timers_` again. -/
inductive Kept (serial : ℕ) (id : TimerId) (interval : ℚ) : Prop
  | called {t} (ht : q.heap id.timer_ = .live t) (hserial : t.serial = serial)
      (hmem : id.timer_ ∈ q.phase.called.map Entry.timer)
  | cancelled (hmem : id ∈ q.cancelled)
  | again {now done todo t} (hphase : q.phase = .resetting now done todo)
      (ht : q.heap id.timer_ = .live t) (hserial : t.serial = serial)
      (hexpiration : t.expiration_ = addTime now interval)
      (hmem : ⟨addTime now interval, id.timer_⟩ ∈ q.timers_)

/-- The invariant of a run in which `reset` repeats the timers with an interval. -/
structure Repeats : Prop where
  repeat_ {p t} (ht : q.heap p = .live t) : t.repeat_ = decide (0 < t.registered)
  canceling {id} (h : id ∈ q.caneclingTimers_) : id ∈ q.cancelled
  deleted {serial id r} (h : .made serial id r ∈ q.log) :
    .deleted serial ∈ q.log ∨ ∃ t, q.heap id.timer_ = .live t ∧ t.serial = serial
  once {serial id} (h : .made serial id 0 ∈ q.log) : q.log.count (.ran serial) ≤ 1
  count {serial id t} (h : .made serial id 0 ∈ q.log) (ht : q.heap id.timer_ = .live t)
    (hserial : t.serial = serial) :
    q.log.count (.ran serial) = if id.timer_ ∈ q.phase.called.map Entry.timer then 1 else 0
  kept {serial id r} (h : .made serial id r ∈ q.log) (hr : 0 < r) (hran : RanInBatch q.log serial)
    (hphase : q.phase ≠ .idle) : q.Kept serial id r

variable {q}

/-! ### What has run in the batch -/

theorem RanInBatch.of_append {log new : List TimerEvent} {serial : ℕ}
    (h : RanInBatch (log ++ new) serial) :
    .ran serial ∈ new ∨ RanInBatch log serial ∧ .read ∉ new := by
  obtain ⟨pre, post, hlog, hread⟩ := h
  rcases List.append_eq_append_iff.mp hlog with ⟨mid, -, hnew⟩ | ⟨mid, hpre, hpost⟩
  · exact .inl (by simp [hnew])
  · cases mid with
    | nil =>
      obtain rfl : new = .ran serial :: post := hpost.symm
      exact .inl List.mem_cons_self
    | cons e mid =>
      obtain ⟨rfl, rfl⟩ : .ran serial = e ∧ post = mid ++ new := List.cons.inj hpost
      rw [List.mem_append, not_or] at hread
      exact .inr ⟨⟨pre, mid, hpre, hread.1⟩, hread.2⟩

theorem ranInBatch_append {log new : List TimerEvent} (hran : ∀ serial, .ran serial ∉ new)
    (hread : .read ∉ new) (serial : ℕ) :
    RanInBatch (log ++ new) serial ↔ RanInBatch log serial := by
  constructor
  · exact fun h => (h.of_append.resolve_left (hran serial)).1
  · rintro ⟨pre, post, rfl, hpost⟩
    refine ⟨pre, post ++ new, by simp, ?_⟩
    rw [List.mem_append, not_or]
    exact ⟨hpost, hread⟩

theorem ranInBatch_append_ran {log : List TimerEvent} (serial serial' : ℕ) :
    RanInBatch (log ++ [.ran serial']) serial ↔ serial = serial' ∨ RanInBatch log serial := by
  constructor
  · intro h
    rcases h.of_append with hnew | ⟨hold, -⟩
    · exact .inl (TimerEvent.ran.inj (List.mem_singleton.mp hnew))
    · exact .inr hold
  · rintro (rfl | ⟨pre, post, rfl, hpost⟩)
    · exact ⟨log, [], rfl, List.not_mem_nil⟩
    · exact ⟨pre, post ++ [.ran serial'], by simp, by simp [hpost]⟩

theorem not_ranInBatch_append_read (log : List TimerEvent) (serial : ℕ) :
    ¬ RanInBatch (log ++ [.read]) serial := by
  intro h
  rcases h.of_append with hnew | ⟨-, hread⟩
  · simp at hnew
  · simp at hread

/-- A step calls a timer, finishes a construction, or logs neither a run nor a construction. -/
theorem Effect.log_eq [DecidableEq T] {a : Action T C} (heffect : q.Effect a q') :
    (∃ now ran it todo t, q.phase = .calling now ran (it :: todo) ∧ q.heap it.timer = .live t ∧
      q' = { q with
        phase := .callback now (ran ++ [it]) todo
        log := q.log ++ [.ran t.serial] }) ∨
    (∃ caller p cb when_ interval serial,
      q.making caller = some (.counted p cb when_ interval serial) ∧
      q' = { q with
        heap := Function.update q.heap p (.live (.new cb when_ interval q.s_numCreated serial))
        making := Function.update q.making caller none
        inFlight := p :: q.inFlight
        log := q.log ++ [.made serial ⟨p, q.s_numCreated⟩ interval] }) ∨
    ∃ new, q'.log = q.log ++ new ∧ (∀ serial, .ran serial ∉ new) ∧
      ∀ serial id r, .made serial id r ∉ new := by
  cases heffect with
  | run hphase ht => exact .inl ⟨_, _, _, _, _, hphase, ht, rfl⟩
  | load hmaking => exact .inr (.inl ⟨_, _, _, _, _, _, hmaking, rfl⟩)
  | new cb when_ interval hmaking hp | count hmaking | return_ hphase | endCalls hphase
  | rearmNothing now' hphase hnot =>
    exact .inr (.inr ⟨[], (List.append_nil _).symm, by simp, by simp⟩)
  | add now hphase hp ht he hle | cancelBatch hphase hactive | cancelNothing hphase hactive
  | restart hphase ht hrepeat hcancel | discard hphase ht hcancel | rearm now' hphase he ht hpos
  | handleRead now sentinel n hphase hsize hactive =>
    exact .inr (.inr ⟨_, rfl, by simp, by simp⟩)
  | addEarliest now hphase hp ht hear | cancel hphase ht hseq hmem =>
    exact .inr (.inr ⟨_, List.append_assoc _ _ _, by simp, by simp⟩)

/-- A timer that has run in the batch after a step runs by this step, or had run before. -/
theorem Effect.ran_cases [DecidableEq T] {a : Action T C} (heffect : q.Effect a q') (hids : q.Ids)
    {serial : ℕ} {id : TimerId} {r : ℚ} (hmade : .made serial id r ∈ q'.log)
    (hran : RanInBatch q'.log serial) :
    .made serial id r ∈ q.log ∧
      ((∃ now ran it todo t, q.phase = .calling now ran (it :: todo) ∧
        q.heap it.timer = .live t ∧ t.serial = serial ∧
          q' = { q with
            phase := .callback now (ran ++ [it]) todo
            log := q.log ++ [.ran t.serial] }) ∨
        RanInBatch q.log serial ∧ ∀ now sentinel n, a ≠ .handleRead now sentinel n) := by
  have hne : ∀ now sentinel n, a ≠ .handleRead now sentinel n := by
    rintro now sentinel n rfl
    cases heffect with
    | handleRead now sentinel n hphase hsize hactive =>
      exact not_ranInBatch_append_read _ _ hran
  rcases heffect.log_eq with ⟨now, ran, it, todo, t, hphase, ht, rfl⟩ |
    ⟨caller, p, cb, when_, interval, serial', hmaking, rfl⟩ | ⟨new, hlog, hnotRan, hnotMade⟩
  · refine ⟨by simpa using hmade, ?_⟩
    rcases (ranInBatch_append_ran _ _).mp hran with rfl | hold
    · exact .inl ⟨now, ran, it, todo, t, hphase, ht, rfl, rfl⟩
    · exact .inr ⟨hold, hne⟩
  · have hold := (hran.of_append.resolve_left (by simp)).1
    have hnotMade : serial ≠ serial' := by
      rintro rfl
      obtain ⟨pre, post, hlog, -⟩ := hold
      obtain ⟨id', r', hid⟩ := hids.about (e := .ran serial) (by simp [hlog]) rfl
      exact hids.making hmaking hid
    exact ⟨by simpa [hnotMade] using hmade, .inr ⟨hold, hne⟩⟩
  · rw [hlog] at hran hmade
    exact ⟨(List.mem_append.mp hmade).resolve_right (hnotMade _ _ _),
      .inr ⟨(hran.of_append.resolve_left (hnotRan serial)).1, hne⟩⟩

/-- An entry of the batch is called once. -/
theorem notMem_ran (hinv : q.Inv) {now : ℤ} {ran todo : List Entry} {it : Entry}
    (hphase : q.phase = .calling now ran (it :: todo)) : it.timer ∉ ran.map Entry.timer := by
  intro hmem
  have hle := places_le_one hinv it.timer
  have hpos := List.count_pos_iff.mpr hmem
  rw [places, hphase, ReadPhase.expired, List.map_append, List.count_append, List.map_cons,
    List.count_cons_self] at hle
  omega

/-- The address of a construction is not in the batch. -/
theorem notMem_called_of_making (hinv : q.Inv) {c : Option T} {m : Making C}
    (hm : q.making c = some m) : m.addr ∉ q.phase.called.map Entry.timer := by
  intro hmem
  obtain ⟨e, he, heq⟩ := List.mem_map.mp hmem
  obtain ⟨t, ht⟩ := exists_live_of_expired hinv (q.phase.called_subset he)
  exact addr_ne_of_live hinv hm ht heq.symm

/-- A timer is the same timer after a step, or has been deleted. -/
theorem Effect.live_or_deleted [DecidableEq T] {a : Action T C} (heffect : q.Effect a q')
    (hinv : q.Inv) {p : Addr} {t : Timer C} (ht : q.heap p = .live t) :
    (∃ t', q'.heap p = .live t' ∧ t.SameTimer t') ∨ .deleted t.serial ∈ q'.log := by
  have hother {p₀ : Addr} (c : Cell C) (hp₀ : p ≠ p₀) :
      ∃ t', Function.update q.heap p₀ c p = .live t' ∧ t.SameTimer t' :=
    ⟨t, (Function.update_of_ne hp₀ ..).trans ht, .refl t⟩
  have hdelete {p₀ : Addr} {t₀ : Timer C} (ht₀ : q.heap p₀ = .live t₀) :
      (∃ t', Function.update q.heap p₀ .free p = .live t' ∧ t.SameTimer t') ∨
        t.serial = t₀.serial := by
    by_cases hp : p = p₀
    · subst hp
      rw [Cell.live.inj (ht.symm.trans ht₀)]
      exact .inr rfl
    · exact .inl (hother _ hp)
  cases heffect with
  | @new caller p₀ cb when_ interval hmaking hp =>
    refine .inl (hother _ ?_)
    rintro rfl
    cases ht.symm.trans hp
  | load hmaking => exact .inl (hother _ (addr_ne_of_live hinv hmaking ht).symm)
  | cancel hphase ht₀ hseq hmem =>
    exact (hdelete ht₀).imp_right fun hserial => by simp [hserial]
  | discard hphase ht₀ hcancel =>
    exact (hdelete ht₀).imp_right fun hserial => by simp [deleted, hserial]
  | @restart now done it todo t₀ hphase ht₀ hrepeat hcancel =>
    by_cases hp : p = it.timer
    · subst hp
      obtain rfl := Cell.live.inj (ht.symm.trans ht₀)
      exact .inl ⟨_, Function.update_self .., rfl, rfl, rfl⟩
    · exact .inl (hother _ hp)
  | count hmaking | addEarliest now hphase hp ht₀ hear | add now hphase hp ht₀ he hle
  | cancelBatch hphase hactive | cancelNothing hphase hactive
  | handleRead now sentinel n hphase hsize hactive | run hphase ht₀ | return_ hphase
  | endCalls hphase | rearm now' hphase he ht₀ hpos | rearmNothing now' hphase hnot =>
    exact .inl ⟨t, ht, .refl t⟩

/-! ### The invariant is kept -/

theorem Effect.repeat_ [DecidableEq T] {a : Action T C} (heffect : q.Effect a q')
    (h : q.Repeats) {p : Addr} {t : Timer C} (ht : q'.heap p = .live t) :
    t.repeat_ = decide (0 < t.registered) := by
  rcases heffect.live_cases ht with ht₀ | ⟨caller, cb, when_, interval, serial, hmaking, rfl⟩ |
    ⟨now, done, it, todo, t₀, hphase, ht₀, rfl⟩
  · exact h.repeat_ ht₀
  · rfl
  · have hold := h.repeat_ ht₀
    exact hold

theorem Effect.canceling [DecidableEq T] {a : Action T C} (heffect : q.Effect a q')
    (h : q.Repeats) {id : TimerId} (hid : id ∈ q'.caneclingTimers_) : id ∈ q'.cancelled := by
  cases heffect with
  | cancel hphase ht hseq hmem | cancelNothing hphase hactive =>
    exact List.mem_append_left _ (h.canceling hid)
  | cancelBatch hphase hactive =>
    rcases OrderedSet.mem_insert.mp hid with rfl | hid
    · exact List.mem_append_right _ (List.mem_singleton_self _)
    · exact List.mem_append_left _ (h.canceling hid)
  | handleRead now sentinel n hphase hsize hactive =>
    exact absurd hid (OrderedSet.notMem_empty _)
  | new cb when_ interval hmaking hp | count hmaking | load hmaking
  | addEarliest now hphase hp ht hear | add now hphase hp ht he hle | run hphase ht
  | return_ hphase | endCalls hphase | restart hphase ht hrepeat hcancel
  | discard hphase ht hcancel | rearm now' hphase he ht hpos | rearmNothing now' hphase hnot =>
    exact h.canceling hid

/-- A timer that has been constructed is live or deleted. -/
theorem Effect.deleted_or_live [DecidableEq T] {a : Action T C} (heffect : q.Effect a q')
    (hinv : q.Inv) (h : q.Repeats) {serial : ℕ} {id : TimerId} {r : ℚ}
    (hmade : .made serial id r ∈ q'.log) :
    .deleted serial ∈ q'.log ∨ ∃ t, q'.heap id.timer_ = .live t ∧ t.serial = serial := by
  have hkeep (hold : .made serial id r ∈ q.log) :
      .deleted serial ∈ q'.log ∨ ∃ t, q'.heap id.timer_ = .live t ∧ t.serial = serial := by
    rcases h.deleted hold with hdeleted | ⟨t, ht, rfl⟩
    · obtain ⟨new, hlog, -⟩ := heffect.exists_log
      exact .inl (hlog ▸ List.mem_append_left _ hdeleted)
    · rcases heffect.live_or_deleted hinv ht with ⟨t', ht', hsame⟩ | hdeleted
      · exact .inr ⟨t', ht', hsame.serial.symm⟩
      · exact .inl hdeleted
  rcases heffect.log_eq with ⟨now, ran, it, todo, t, hphase, ht, rfl⟩ |
    ⟨caller, p, cb, when_, interval, serial', hmaking, rfl⟩ | ⟨new, hlog, -, hnotMade⟩
  · exact hkeep (by simpa using hmade)
  · rcases List.mem_append.mp hmade with hold | hnew
    · exact hkeep hold
    · obtain ⟨rfl, rfl, rfl⟩ := TimerEvent.made.inj (List.mem_singleton.mp hnew)
      exact .inr ⟨_, Function.update_self .., rfl⟩
  · rw [hlog, List.mem_append] at hmade
    exact hkeep (hmade.resolve_right (hnotMade _ _ _))

/-- A timer under construction has not run. -/
theorem count_ran_of_making (hids : q.Ids) {c : Option T} {m : Making C}
    (hm : q.making c = some m) : q.log.count (.ran m.serial) = 0 := by
  refine List.count_eq_zero.mpr fun hran => ?_
  obtain ⟨id, r, hid⟩ := hids.about hran rfl
  exact hids.making hm hid

/-- How often a timer with interval 0 has run while it is live. -/
theorem Effect.count_ran [DecidableEq T] {a : Action T C} (heffect : q.Effect a q')
    (hinv : q.Inv) (hserials : q.Serials) (hids : q.Ids) (h : q.Repeats) (ha : q.RepeatFits a)
    {serial : ℕ} {id : TimerId} {t' : Timer C} (hmade : .made serial id 0 ∈ q'.log)
    (ht' : q'.heap id.timer_ = .live t') (hserial : t'.serial = serial) :
    q'.log.count (.ran serial) =
      if id.timer_ ∈ q'.phase.called.map Entry.timer then 1 else 0 := by
  have hkeep (hold : .made serial id 0 ∈ q.log) : ∃ t, q.heap id.timer_ = .live t ∧
      t.serial = serial ∧ t.interval_ = 0 ∧ q.log.count (.ran serial) =
        if id.timer_ ∈ q.phase.called.map Entry.timer then 1 else 0 := by
    obtain ⟨t, ht, hsame⟩ := heffect.exists_live hids (hserial ▸ hold) ht'
    have hserial' : t.serial = serial := hsame.serial.trans hserial
    have hinterval := (hids.made_serial (hids.live ht) (hserial' ▸ hold)).2
    exact ⟨t, ht, hserial', hinterval, h.count hold ht hserial'⟩
  cases heffect with
  | @load caller p cb when_ interval serial' hmaking =>
    rcases List.mem_append.mp hmade with hold | hnew
    · obtain ⟨t, ht, -, -, hcount⟩ := hkeep hold
      simpa using hcount
    · obtain ⟨rfl, rfl, -⟩ := TimerEvent.made.inj (List.mem_singleton.mp hnew)
      have hnot : p ∉ q.phase.called.map Entry.timer := notMem_called_of_making hinv hmaking
      have hzero : q.log.count (.ran serial) = 0 := count_ran_of_making hids hmaking
      simpa [hnot] using hzero
  | @run now ran it todo t₀ hphase ht₀ =>
    obtain ⟨t, ht, hserial', -, hcount⟩ := hkeep (by simpa using hmade)
    rw [hphase, ReadPhase.called] at hcount
    simp only [List.count_append, ReadPhase.called, List.map_append, List.mem_append]
    by_cases heq : id.timer_ = it.timer
    · rw [heq] at ht hcount ⊢
      obtain rfl := Cell.live.inj (ht.symm.trans ht₀)
      rw [if_neg (notMem_ran hinv hphase)] at hcount
      simp [hcount, hserial']
    · have hne := serial_ne hserials ht ht₀ heq
      rw [hserial'] at hne
      simp [hcount, heq, hne.symm]
  | @restart now done it todo t₀ hphase ht₀ hrepeat hcancel =>
    obtain ⟨t, ht, hserial', hinterval, hcount⟩ := hkeep (by simpa [restarted, added] using hmade)
    have hne : id.timer_ ≠ it.timer := by
      intro heq
      rw [heq] at ht
      obtain rfl := Cell.live.inj (ht.symm.trans ht₀)
      have hfits := ha (it, t) (by simp [nextReset, hphase, ht₀]) hcancel
      have hrepeat' := h.repeat_ ht₀
      rw [hrepeat, eq_comm, decide_eq_true_eq] at hrepeat'
      exact hfits.1 hinterval hrepeat'
    rw [hphase, ReadPhase.called] at hcount
    simpa [restarted, added, hne, ReadPhase.called] using hcount
  | @discard now done it todo t₀ hphase ht₀ hcancel =>
    obtain ⟨t, ht, hserial', hinterval, hcount⟩ := hkeep (by simpa [deleted] using hmade)
    have hne : id.timer_ ≠ it.timer := (of_update_dead ht' rfl).1
    rw [hphase, ReadPhase.called] at hcount
    simpa [deleted, hne, ReadPhase.called] using hcount
  | return_ hphase | endCalls hphase | rearm now' hphase he ht hpos
  | rearmNothing now' hphase hnot | handleRead now sentinel n hphase hsize hactive =>
    obtain ⟨t, ht, hserial', hinterval, hcount⟩ :=
      hkeep (by simpa [batch, resetTimerfd] using hmade)
    simpa [hphase, ReadPhase.called, batch, resetTimerfd] using hcount
  | new cb when_ interval hmaking hp | count hmaking | addEarliest now hphase hp ht₀ hear
  | add now hphase hp ht₀ he hle | cancel hphase ht₀ hseq hmem | cancelBatch hphase hactive
  | cancelNothing hphase hactive =>
    obtain ⟨t, ht, hserial', hinterval, hcount⟩ :=
      hkeep (by simpa [addedFromFlight, added, removed, deleted, resetTimerfd] using hmade)
    simpa [addedFromFlight, added, removed, deleted, resetTimerfd] using hcount

/-- A timer with interval 0 has run once at most. -/
theorem Effect.once [DecidableEq T] {a : Action T C} (heffect : q.Effect a q') (hinv : q.Inv)
    (hserials : q.Serials) (hids : q.Ids) (h : q.Repeats) (ha : q.RepeatFits a) {serial : ℕ}
    {id : TimerId} (hmade : .made serial id 0 ∈ q'.log) : q'.log.count (.ran serial) ≤ 1 := by
  by_cases hlive : ∃ t', q'.heap id.timer_ = .live t' ∧ t'.serial = serial
  · obtain ⟨t', ht', hserial⟩ := hlive
    rw [heffect.count_ran hinv hserials hids h ha hmade ht' hserial]
    split_ifs <;> omega
  · rcases heffect.log_eq with ⟨now, ran, it, todo, t, hphase, ht, rfl⟩ |
      ⟨caller, p, cb, when_, interval, serial', hmaking, rfl⟩ | ⟨new, hlog, hnotRan, hnotMade⟩
    · have hold : .made serial id 0 ∈ q.log := by simpa using hmade
      have hne : t.serial ≠ serial := by
        rintro rfl
        obtain ⟨rfl, -⟩ := hids.made_serial hold (hids.live ht)
        exact hlive ⟨t, ht, rfl⟩
      simpa [hne] using h.once hold
    · rcases List.mem_append.mp hmade with hold | hnew
      · simpa using h.once hold
      · obtain ⟨rfl, rfl, -⟩ := TimerEvent.made.inj (List.mem_singleton.mp hnew)
        exact absurd ⟨_, Function.update_self .., rfl⟩ hlive
    · rw [hlog, List.mem_append] at hmade
      have hold := hmade.resolve_right (hnotMade _ _ _)
      rw [hlog, List.count_append, List.count_eq_zero.mpr (hnotRan serial)]
      exact h.once hold

theorem Kept.of_eq {serial : ℕ} {id : TimerId} {r : ℚ} (h : q.Kept serial id r)
    (hheap : ∀ t, q.heap id.timer_ = .live t → q'.heap id.timer_ = .live t)
    (hphase : q'.phase = q.phase) (htimers : ∀ e ∈ q.timers_, e ∈ q'.timers_)
    (hcancelled : ∀ id ∈ q.cancelled, id ∈ q'.cancelled) : q'.Kept serial id r := by
  cases h with
  | called ht hserial hmem => exact .called (hheap _ ht) hserial (hphase ▸ hmem)
  | cancelled hmem => exact .cancelled (hcancelled _ hmem)
  | again hphase' ht hserial hexpiration hmem =>
    exact .again (hphase.trans hphase') (hheap _ ht) hserial hexpiration (htimers _ hmem)

/-- Another timer of the batch than the one that `reset` is at is still to be reset. -/
theorem mem_todo_of_called {now : ℤ} {done todo : List Entry} {it : Entry} {p : Addr}
    (hphase : q.phase = .resetting now done (it :: todo)) (hne : p ≠ it.timer)
    (hmem : p ∈ q.phase.called.map Entry.timer) : p ∈ todo.map Entry.timer := by
  rw [hphase, ReadPhase.called, List.map_cons, List.mem_cons] at hmem
  exact hmem.resolve_left hne

/-- `reset` puts a timer with an interval back. -/
theorem Kept.restart (hinv : q.Inv) (hids : q.Ids) {now : ℤ} {done todo : List Entry} {it : Entry}
    {t₀ : Timer C} (hphase : q.phase = .resetting now done (it :: todo))
    (ht₀ : q.heap it.timer = .live t₀) {serial : ℕ} {id : TimerId} {r : ℚ}
    (hmade : .made serial id r ∈ q.log) (h : q.Kept serial id r) :
    (q.restarted it t₀ now done todo).Kept serial id r := by
  have hit : it ∈ q.phase.expired := by
    rw [hphase]
    exact List.mem_cons_self
  cases h with
  | @called t ht hserial hmem =>
    by_cases heq : id.timer_ = it.timer
    · rw [heq] at ht
      obtain rfl := Cell.live.inj (ht.symm.trans ht₀)
      obtain ⟨-, hr⟩ := hids.made_serial hmade (hserial ▸ hids.live ht)
      refine .again rfl ((congrArg _ heq).trans (Function.update_self ..)) hserial ?_ ?_
      · rw [hr]
      · rw [heq, hr]
        exact OrderedSet.mem_insert.mpr (.inl rfl)
    · exact .called ((Function.update_of_ne heq ..).trans ht) hserial
        (mem_todo_of_called hphase heq hmem)
  | cancelled hmem => exact .cancelled hmem
  | @again now' done' todo' t hphase' ht hserial hexpiration hmem =>
    obtain ⟨rfl, -, -⟩ := ReadPhase.resetting.inj (hphase.symm.trans hphase')
    have hne : id.timer_ ≠ it.timer := ne_of_mem_of_expired hinv hmem hit
    exact .again rfl ((Function.update_of_ne hne ..).trans ht) hserial hexpiration
      (OrderedSet.mem_insert.mpr (.inr hmem))

/-- `reset` deletes a timer with an interval only if it was cancelled. -/
theorem Kept.discard (hinv : q.Inv) (hids : q.Ids) (hrepeats : q.Repeats)
    (ha : q.RepeatFits (.reset : Action T C)) {now : ℤ} {done todo : List Entry} {it : Entry}
    {t₀ : Timer C} (hphase : q.phase = .resetting now done (it :: todo))
    (ht₀ : q.heap it.timer = .live t₀)
    (hcancel : t₀.repeat_ = true → ⟨it.timer, t₀.sequence_⟩ ∈ q.caneclingTimers_) {serial : ℕ}
    {id : TimerId} {r : ℚ} (hmade : .made serial id r ∈ q.log) (hr : 0 < r)
    (h : q.Kept serial id r) :
    Kept { q.deleted it.timer t₀ with phase := .resetting now (done ++ [it]) todo } serial id
      r := by
  have hit : it ∈ q.phase.expired := by
    rw [hphase]
    exact List.mem_cons_self
  cases h with
  | @called t ht hserial hmem =>
    by_cases heq : id.timer_ = it.timer
    · rw [heq] at ht
      obtain rfl := Cell.live.inj (ht.symm.trans ht₀)
      obtain ⟨hid, rfl⟩ := hids.made_serial hmade (hserial ▸ hids.live ht)
      refine .cancelled (hrepeats.canceling ?_)
      rw [hid]
      by_contra hnot
      have hfits := ha (it, t) (by simp [nextReset, hphase, ht]) hnot
      refine hnot (hcancel ?_)
      rw [hrepeats.repeat_ ht, decide_eq_true_eq]
      exact hfits.2 hr
    · exact .called ((Function.update_of_ne heq ..).trans ht) hserial
        (mem_todo_of_called hphase heq hmem)
  | cancelled hmem => exact .cancelled hmem
  | @again now' done' todo' t hphase' ht hserial hexpiration hmem =>
    obtain ⟨rfl, -, -⟩ := ReadPhase.resetting.inj (hphase.symm.trans hphase')
    have hne : id.timer_ ≠ it.timer := ne_of_mem_of_expired hinv hmem hit
    exact .again rfl ((Function.update_of_ne hne ..).trans ht) hserial hexpiration hmem

/-- What happens to a timer with an interval that ran in the batch. -/
theorem Effect.kept [DecidableEq T] {a : Action T C} (heffect : q.Effect a q') (hinv : q.Inv)
    (hids : q.Ids) (h : q.Repeats) (ha : q.RepeatFits a) {serial : ℕ} {id : TimerId} {r : ℚ}
    (hmade : .made serial id r ∈ q'.log) (hr : 0 < r) (hran : RanInBatch q'.log serial)
    (hphase' : q'.phase ≠ .idle) : q'.Kept serial id r := by
  obtain ⟨hold, ⟨now, ran, it, todo, t, hphase, ht, rfl, rfl⟩ | ⟨hran', hread⟩⟩ :=
    heffect.ran_cases hids hmade hran
  · obtain ⟨rfl, -⟩ := hids.made_serial hold (hids.live ht)
    exact .called ht rfl (by simp [ReadPhase.called])
  have hkeep (hphase : q.phase ≠ .idle) : q.Kept serial id r := h.kept hold hr hran' hphase
  cases heffect with
  | @new caller p cb when_ interval hmaking hp =>
    refine (hkeep hphase').of_eq (fun t ht => ?_) rfl (fun _ he => he) fun _ hid => hid
    have hne : id.timer_ ≠ p := by
      rintro rfl
      cases ht.symm.trans hp
    exact (Function.update_of_ne hne ..).trans ht
  | load hmaking =>
    exact (hkeep hphase').of_eq
      (fun t ht => (Function.update_of_ne (addr_ne_of_live hinv hmaking ht).symm ..).trans ht)
      rfl (fun _ he => he) fun _ hid => hid
  | count hmaking =>
    exact (hkeep hphase').of_eq (fun _ ht => ht) rfl (fun _ he => he) fun _ hid => hid
  | addEarliest now hphase hp ht hear | add now hphase hp ht he hle =>
    exact (hkeep hphase').of_eq (fun _ ht => ht) rfl
      (fun _ he => OrderedSet.mem_insert.mpr (.inr he)) fun _ hid => hid
  | cancelBatch hphase hactive =>
    exact (hkeep hphase').of_eq (fun _ ht => ht) rfl (fun _ he => he)
      fun _ hid => List.mem_append_left _ hid
  | cancelNothing hphase hactive => exact absurd hphase hphase'
  | @cancel timerid t₀ hphase ht₀ hseq hmem₀ =>
    cases hkeep hphase' with
    | called ht hserial hmem =>
      obtain ⟨e, he, heq⟩ := List.mem_map.mp hmem
      have hne : id.timer_ ≠ timerid.timer_ := fun heq' =>
        ne_of_mem_of_expired hinv hmem₀ (q.phase.called_subset he) (heq'.symm.trans heq.symm)
      exact .called ((Function.update_of_ne hne ..).trans ht) hserial hmem
    | cancelled hmem => exact .cancelled (List.mem_append_left _ hmem)
    | again hphase'' =>
      rw [hphase''] at hphase
      cases hphase
  | handleRead now sentinel n hphase hsize hactive => exact absurd rfl (hread _ _ _)
  | run hphase ht₀ =>
    cases hkeep (by simp [hphase]) with
    | called ht hserial hmem =>
      rw [hphase, ReadPhase.called] at hmem
      refine .called ht hserial ?_
      rw [ReadPhase.called, List.map_append]
      exact List.mem_append_left _ hmem
    | cancelled hmem => exact .cancelled hmem
    | again hphase'' => cases hphase.symm.trans hphase''
  | return_ hphase | endCalls hphase =>
    cases hkeep (by simp [hphase]) with
    | called ht hserial hmem =>
      rw [hphase] at hmem
      exact .called ht hserial hmem
    | cancelled hmem => exact .cancelled hmem
    | again hphase'' => cases hphase.symm.trans hphase''
  | restart hphase ht hrepeat hcancel =>
    exact (hkeep (by simp [hphase])).restart hinv hids hphase ht hold
  | discard hphase ht hcancel =>
    exact (hkeep (by simp [hphase])).discard hinv hids h ha hphase ht hcancel hold hr
  | rearm now' hphase he ht hpos | rearmNothing now' hphase hnot => exact absurd rfl hphase'

/-- The invariant is kept when `reset` repeats the timers with an interval. -/
theorem Effect.repeats [DecidableEq T] {a : Action T C} (heffect : q.Effect a q') (hinv : q.Inv)
    (hserials : q.Serials) (hids : q.Ids) (h : q.Repeats) (ha : q.RepeatFits a) : q'.Repeats where
  repeat_ := heffect.repeat_ h
  canceling := heffect.canceling h
  deleted := heffect.deleted_or_live hinv h
  once := heffect.once hinv hserials hids h ha
  count := heffect.count_ran hinv hserials hids h ha
  kept := heffect.kept hinv hids h ha

private theorem repeats_init : (init : TimerQueue T C).Repeats where
  repeat_ ht := by cases ht
  canceling h := absurd h (OrderedSet.notMem_empty _)
  deleted h := absurd h List.not_mem_nil
  once h := absurd h List.not_mem_nil
  count h := absurd h List.not_mem_nil
  kept h := absurd h List.not_mem_nil

/-- In every run in which `reset` repeats the timers with an interval: a timer with interval 0 runs
once at most, and after its batch it has been deleted. A timer with a positive interval that ran in
the batch and was not cancelled in it is in `timers_` at the end of `reset`, one interval after the
time of the batch. -/
theorem repeats_of_reaches [DecidableEq T] (h : Reaches (ofStep step) RepeatFits init q) :
    (∀ serial id, .made serial id 0 ∈ q.log → q.log.count (.ran serial) ≤ 1 ∧
      (q.phase = .idle → .ran serial ∈ q.log → .deleted serial ∈ q.log)) ∧
    ∀ now done, q.phase = .resetting now done [] →
      ∀ serial id interval, .made serial id interval ∈ q.log → 0 < interval →
        RanInBatch q.log serial → id ∉ q.cancelled →
        ∃ t, q.heap id.timer_ = .live t ∧ t.serial = serial ∧
          t.expiration_ = addTime now interval ∧ ⟨addTime now interval, id.timer_⟩ ∈ q.timers_ := by
  have hrepeats : q.Repeats := h.induct repeats_init fun u a v hu ha hstep ih =>
    (step_effect (inv_of_reaches hu) hstep).repeats (inv_of_reaches hu) (serials_of_reaches hu)
      (ids_of_reaches hu) ih ha
  refine ⟨fun serial id hmade => ⟨hrepeats.once hmade, fun hphase hran => ?_⟩,
    fun now done hphase serial id interval hmade hpos hran hcancelled => ?_⟩
  · rcases hrepeats.deleted hmade with hdeleted | ⟨t, ht, hserial⟩
    · exact hdeleted
    · have hcount := hrepeats.count hmade ht hserial
      rw [hphase, if_neg (by simp [ReadPhase.called])] at hcount
      exact absurd hran (List.count_eq_zero.mp hcount)
  · cases hrepeats.kept hmade hpos hran (by simp [hphase]) with
    | called ht hserial hmem => simp [hphase, ReadPhase.called] at hmem
    | cancelled hmem => exact absurd hmem hcancelled
    | again hphase' ht hserial hexpiration hmem =>
      obtain ⟨rfl, -, -⟩ := ReadPhase.resetting.inj (hphase.symm.trans hphase')
      exact ⟨_, ht, hserial, hexpiration, hmem⟩

/-- A timer with interval 0 that is registered for the time 0 is deleted after it has run. -/
theorem repeats_of_reaches_zero : ∃ q : TimerQueue Unit Unit,
    .ran 0 ∈ q.log ∧ .deleted 0 ∈ q.log := by
  obtain ⟨q, hq, hmade, hphase, hran⟩ := Reaches.exists_of_run (C := RepeatFits) (s := init)
    (P := fun q : TimerQueue Unit Unit =>
      .made 0 ⟨5, 1⟩ 0 ∈ q.log ∧ q.phase = .idle ∧ .ran 0 ∈ q.log) step
    [.new (some ()) 5 () 0 0, .count (some ()), .load (some ()), .addTimerInLoop 5 1,
      .handleRead 3 9 1, .run, .return_, .endCalls, .reset, .rearm 3] (by decide +kernel)
  exact ⟨q, hran, ((repeats_of_reaches hq).1 0 _ hmade).2 hphase hran⟩

/-- `getExpired` takes the timers that the code takes, and its own timer is at a free address. -/
def Selects (q : TimerQueue T C) : Action T C → Prop
  | .handleRead now sentinel n =>
    expired q.timers_ now sentinel = .ok (q.timers_.toList.take n) ∧
      (q.heap sentinel matches .free) = true
  | _ => True

instance (q : TimerQueue T C) : (a : Action T C) → Decidable (q.Selects a)
  | .handleRead now sentinel n => inferInstanceAs (Decidable
      (expired q.timers_ now sentinel = .ok (q.timers_.toList.take n) ∧
        (q.heap sentinel matches .free) = true))
  | .new .. | .count _ | .load _ | .addTimerInLoop .. | .cancelInLoop _ | .run | .return_
  | .endCalls | .reset | .rearm _ => .isTrue trivial

/-- At second 100 the loop registers two timers, to run after 1 and 2 seconds. The first one runs at
second 102 and again at second 103. -/
theorem exists_once_ran_twice : ∃ q : TimerQueue Unit Unit,
    Reaches (ofStep step) Selects init q ∧
      .made 0 ⟨5, 1⟩ 0 ∈ q.log ∧ q.log.count (.ran 0) = 2 :=
  Reaches.exists_of_run step
    [.new none 5 () (addTime 100 1) 0, .count none, .load none, .addTimerInLoop 5 100,
      .new none 6 () (addTime 100 2) 0, .count none, .load none, .addTimerInLoop 6 100,
      .handleRead 102 9 1, .run, .return_, .endCalls, .reset, .rearm 102,
      .handleRead 103 9 2, .run] (by decide +kernel)

end TimerQueue

end TinyMuduo
