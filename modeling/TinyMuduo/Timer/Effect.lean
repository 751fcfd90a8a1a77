import TinyMuduo.Timer.Invariant

/-!
# The effects of the steps of a timer queue

In a queue with the invariant no step is at fault: the assertions hold, and every address that a
member function uses is that of a live timer, whatever a callback has added or cancelled, whatever
prefix `getExpired` takes and whatever addresses the allocator has chosen. This file lists what the
steps then do. The properties of runs are proved by cases on this list.

## Main definitions

* `TimerQueue.Effect`: what an enabled step does to a queue with the invariant.

## Main results

* `TimerQueue.exists_effect`: an enabled step is not at fault, and its effect is in the list.
* `TimerQueue.Effect.inv`: every effect keeps the invariant.
* `TimerQueue.Effect.live_cases`: where the live timers come from.
-/

namespace TinyMuduo

namespace TimerQueue

variable {T C : Type} {q : TimerQueue T C}

/-! ### The member functions without a fault -/

theorem assert_of {p : Prop} [Decidable p] (hp : p) : assert p = .ok () := if_pos hp

theorem deref_eq {p : Addr} {t : Timer C} (ht : q.heap p = .live t) : q.deref p = .ok t := by
  rw [deref, ht]

theorem delete_eq {p : Addr} {t : Timer C} (ht : q.heap p = .live t) :
    q.delete p = .ok (q.deleted p t) := by
  rw [delete, deref_eq ht]
  rfl

/-- `insert` does not fail on a timer that is in neither set. -/
theorem insert_eq {p : Addr} {t : Timer C} (ht : q.heap p = .live t)
    (hsize : q.timers_.size = q.activeTimers_.size) (hnew : ⟨t.expiration_, p⟩ ∉ q.timers_)
    (hnew' : ⟨p, t.sequence_⟩ ∉ q.activeTimers_) :
    q.insert p = .ok (q.added p t, q.timers_.begin_.all fun it => t.expiration_ < it.when_) := by
  have hsize' : (q.timers_.insert ⟨t.expiration_, p⟩).1.size =
      (q.activeTimers_.insert ⟨p, t.sequence_⟩).1.size := by
    rw [OrderedSet.size_insert_of_notMem hnew, OrderedSet.size_insert_of_notMem hnew', hsize]
  rw [insert, deref_eq ht]
  simp only [bind, Except.bind, assert_of hsize, assert_of (OrderedSet.insert_snd.mpr hnew),
    assert_of (OrderedSet.insert_snd.mpr hnew'), assert_of hsize']
  rfl

/-- `cancelInLoop` does not fail: what is in `activeTimers_` is in `timers_`. -/
theorem cancelInLoop_eq (h : q.Inv) (timerid : TimerId) :
    (∃ t, q.heap timerid.timer_ = .live t ∧ t.sequence_ = timerid.sequence_ ∧
        ⟨t.expiration_, timerid.timer_⟩ ∈ q.timers_ ∧ timerid ∈ q.activeTimers_ ∧
        q.cancelInLoop timerid = .ok (q.removed timerid.timer_ t)) ∨
      timerid ∉ q.activeTimers_ ∧ q.cancelInLoop timerid =
        .ok (if q.callingExpiredTimers_ then
          { q with caneclingTimers_ := (q.caneclingTimers_.insert timerid).1 } else q) := by
  obtain ⟨p, n⟩ := timerid
  by_cases hactive : ⟨p, n⟩ ∈ q.activeTimers_
  · obtain ⟨t, ht, rfl, hmem⟩ : ∃ t, q.heap p = .live t ∧ t.sequence_ = n ∧
        ⟨t.expiration_, p⟩ ∈ q.timers_ := (h.active ⟨p, n⟩).mp hactive
    refine .inl ⟨t, ht, rfl, hmem, hactive, ?_⟩
    have hsize : (q.timers_.erase ⟨t.expiration_, p⟩).1.size =
        (q.activeTimers_.erase ⟨p, t.sequence_⟩).1.size := h.size_erase_eq hmem hactive
    rw [cancelInLoop, assert_of h.size_eq, if_pos hactive, deref_eq ht]
    simp only [bind, Except.bind, assert_of (OrderedSet.erase_snd.mpr hmem)]
    rw [delete_eq (q := { q with timers_ := (q.timers_.erase ⟨t.expiration_, p⟩).1 }) ht]
    simp only [assert_of hsize]
    rfl
  · refine .inr ⟨hactive, ?_⟩
    rw [cancelInLoop, assert_of h.size_eq, if_neg hactive]
    split_ifs <;> rfl

/-- The second loop of `getExpired` takes its entries out of both sets. -/
theorem eraseExpired_eq (entries : List Entry) {q : TimerQueue T C}
    (hnodup : (entries.map Entry.timer).Nodup) (hsize : q.timers_.size = q.activeTimers_.size)
    (hkey : ∀ id ∈ q.activeTimers_, ∃ t, q.heap id.timer_ = .live t ∧ t.sequence_ = id.sequence_)
    (hmem : ∀ e ∈ entries, e ∈ q.timers_ ∧
      ∃ t, q.heap e.timer = .live t ∧ ⟨e.timer, t.sequence_⟩ ∈ q.activeTimers_) :
    ∃ active, q.eraseExpired entries = .ok { q with
        timers_ := entries.foldl (fun s e => (s.erase e).1) q.timers_
        activeTimers_ := active } ∧
      (entries.foldl (fun s e => (s.erase e).1) q.timers_).size = active.size ∧
      ∀ id, id ∈ active ↔ id ∈ q.activeTimers_ ∧ id.timer_ ∉ entries.map Entry.timer := by
  induction entries generalizing q with
  | nil => exact ⟨q.activeTimers_, rfl, hsize, by simp⟩
  | cons e entries ih =>
    obtain ⟨he, t, ht, hactive⟩ := hmem e List.mem_cons_self
    rw [List.map_cons, List.nodup_cons] at hnodup
    have hsize' : (q.timers_.erase e).1.size =
        (q.activeTimers_.erase ⟨e.timer, t.sequence_⟩).1.size := by
      have h1 := OrderedSet.size_erase_of_mem he
      have h2 := OrderedSet.size_erase_of_mem hactive
      omega
    obtain ⟨active, herase, hsize'', hiff⟩ := ih (q := { q with
        timers_ := (q.timers_.erase e).1
        activeTimers_ := (q.activeTimers_.erase ⟨e.timer, t.sequence_⟩).1 })
      hnodup.2 hsize' (fun id hid => hkey id (OrderedSet.mem_erase.mp hid).2) fun f hf => by
        obtain ⟨hf', t', ht', hactive'⟩ := hmem f (List.mem_cons_of_mem _ hf)
        have hne : f.timer ≠ e.timer := fun heq =>
          hnodup.1 (heq ▸ List.mem_map_of_mem hf)
        exact ⟨OrderedSet.mem_erase.mpr ⟨fun heq => hne (congrArg _ heq), hf'⟩, t', ht',
          OrderedSet.mem_erase.mpr ⟨fun heq => hne (congrArg TimerId.timer_ heq), hactive'⟩⟩
    refine ⟨active, ?_, hsize'', fun id => ?_⟩
    · rw [eraseExpired, deref_eq ht]
      exact herase
    · rw [hiff, List.map_cons, List.mem_cons, not_or, OrderedSet.mem_erase, and_assoc]
      constructor
      · rintro ⟨hne, hid, hrest⟩
        refine ⟨hid, fun heq => ?_, hrest⟩
        obtain ⟨t', ht', hseq⟩ := hkey id hid
        rw [heq, ht] at ht'
        obtain rfl := Cell.live.inj ht'
        exact hne (by obtain ⟨p, n⟩ := id; exact congrArg₂ TimerId.mk heq hseq.symm)
      · rintro ⟨hid, hne, hrest⟩
        exact ⟨fun heq => hne (congrArg TimerId.timer_ heq), hid, hrest⟩

/-- The first timers are taken out of both sets. -/
theorem eraseExpired_take (h : q.Inv) (n : ℕ) :
    ∃ active, q.eraseExpired (q.timers_.toList.take n) = .ok { q with
        timers_ := q.timers_.drop n
        activeTimers_ := active } ∧
      (q.timers_.drop n).size = active.size ∧
      ∀ id, id ∈ active ↔
        id ∈ q.activeTimers_ ∧ id.timer_ ∉ (q.timers_.toList.take n).map Entry.timer := by
  have hnodup : ((q.timers_.toList.take n).map Entry.timer).Nodup :=
    (nodup_timers h).sublist ((List.take_sublist n _).map _)
  have herase := eraseExpired_eq (q.timers_.toList.take n) hnodup h.size_eq
    (fun id hid => by
      obtain ⟨t, ht, hseq, -⟩ := (h.active id).mp hid
      exact ⟨t, ht, hseq⟩)
    (fun e he => by
      have hmem : e ∈ q.timers_ := List.mem_of_mem_take he
      obtain ⟨t, ht⟩ := exists_live_of_mem h hmem
      refine ⟨hmem, t, ht, (h.active _).mpr ⟨t, ht, rfl, ?_⟩⟩
      rw [h.keyed hmem ht]
      exact hmem)
  rwa [OrderedSet.foldl_erase_take] at herase

/-- `handleRead` does not fail up to the first callback. -/
theorem handleRead_eq (h : q.Inv) (now : ℤ) (n : ℕ) :
    ∃ active, q.handleRead now n = .ok (q.batch now n active) ∧
      (q.timers_.drop n).size = active.size ∧
      ∀ id, id ∈ active ↔
        id ∈ q.activeTimers_ ∧ id.timer_ ∉ (q.timers_.toList.take n).map Entry.timer := by
  obtain ⟨active, herase, hsize, hiff⟩ := eraseExpired_take h n
  refine ⟨active, ?_, hsize, hiff⟩
  rw [handleRead, assert_of h.size_eq]
  simp only [bind, Except.bind, herase, assert_of hsize]
  rfl

/-! ### The effect of a step -/

/-- The queue after `addTimerInLoop` has inserted a timer. -/
def addedFromFlight (q : TimerQueue T C) (p : Addr) (t : Timer C) : TimerQueue T C :=
  { q.added p t with inFlight := q.inFlight.erase p }

/-- The queue after the insertion of a timer that `reset` has restarted. -/
def restarted (q : TimerQueue T C) (it : Entry) (t : Timer C) (now : ℤ) (done todo : List Entry) :
    TimerQueue T C :=
  let t' := { t with expiration_ := addTime now t.interval_ }
  { ({ q with heap := Function.update q.heap it.timer (.live t') } : TimerQueue T C).added
      it.timer t' with phase := .resetting now (done ++ [it]) todo }

theorem of_restarted_live {it : Entry} {t t' : Timer C} {now : ℤ} {done todo : List Entry}
    {p : Addr} (h : (q.restarted it t now done todo).heap p = .live t') :
    p = it.timer ∧ { t with expiration_ := addTime now t.interval_ } = t' ∨
      p ≠ it.timer ∧ q.heap p = .live t' :=
  of_update_live h

/-- What an enabled step does to a queue with the invariant. -/
inductive Effect [DecidableEq T] (q : TimerQueue T C) : Action T C → TimerQueue T C → Prop
  | new {caller p} (cb : C) (when_ : ℤ) (interval : ℚ) (hmaking : q.making caller = none)
      (hp : q.heap p = .free) :
    Effect q (.new caller p cb when_ interval)
      { q with
        heap := Function.update q.heap p .raw
        making := Function.update q.making caller (some (.allocated p cb when_ interval q.born))
        born := q.born + 1 }
  | count {caller p cb when_ interval serial}
      (hmaking : q.making caller = some (.allocated p cb when_ interval serial)) :
    Effect q (.count caller)
      { q with
        s_numCreated := q.s_numCreated + 1
        making := Function.update q.making caller (some (.counted p cb when_ interval serial)) }
  | load {caller p cb when_ interval serial}
      (hmaking : q.making caller = some (.counted p cb when_ interval serial)) :
    Effect q (.load caller)
      { q with
        heap := Function.update q.heap p (.live (.new cb when_ interval q.s_numCreated serial))
        making := Function.update q.making caller none
        inFlight := p :: q.inFlight
        log := q.log ++ [.made serial ⟨p, q.s_numCreated⟩ interval] }
  | addEarliest {p t} (now : ℤ) (hphase : q.phase.inUserCode = true) (hp : p ∈ q.inFlight)
      (ht : q.heap p = .live t) (hear : ∀ e ∈ q.timers_, t.expiration_ < e.when_) :
    Effect q (.addTimerInLoop p now) ((q.addedFromFlight p t).resetTimerfd t.expiration_ now)
  | add {p t e} (now : ℤ) (hphase : q.phase.inUserCode = true) (hp : p ∈ q.inFlight)
      (ht : q.heap p = .live t) (he : e ∈ q.timers_) (hle : e.when_ ≤ t.expiration_) :
    Effect q (.addTimerInLoop p now) (q.addedFromFlight p t)
  | cancel {timerid t} (hphase : q.phase.inUserCode = true) (ht : q.heap timerid.timer_ = .live t)
      (hseq : t.sequence_ = timerid.sequence_)
      (hmem : ⟨t.expiration_, timerid.timer_⟩ ∈ q.timers_) :
    Effect q (.cancelInLoop timerid)
      { q.removed timerid.timer_ t with
        cancelled := q.cancelled ++ [timerid]
        log := q.log ++ [.deleted t.serial] ++ [.cancelled timerid] }
  | cancelBatch {timerid now ran todo} (hphase : q.phase = .callback now ran todo)
      (hactive : timerid ∉ q.activeTimers_) :
    Effect q (.cancelInLoop timerid)
      { q with
        caneclingTimers_ := (q.caneclingTimers_.insert timerid).1
        cancelled := q.cancelled ++ [timerid]
        log := q.log ++ [.cancelled timerid] }
  | cancelNothing {timerid} (hphase : q.phase = .idle) (hactive : timerid ∉ q.activeTimers_) :
    Effect q (.cancelInLoop timerid)
      { q with
        cancelled := q.cancelled ++ [timerid]
        log := q.log ++ [.cancelled timerid] }
  | handleRead {active} (now : ℤ) (sentinel : Addr) (n : ℕ) (hphase : q.phase = .idle)
      (hsize : (q.timers_.drop n).size = active.size)
      (hactive : ∀ id, id ∈ active ↔
        id ∈ q.activeTimers_ ∧ id.timer_ ∉ (q.timers_.toList.take n).map Entry.timer) :
    Effect q (.handleRead now sentinel n) (q.batch now n active)
  | run {now ran it todo t} (hphase : q.phase = .calling now ran (it :: todo))
      (ht : q.heap it.timer = .live t) :
    Effect q .run
      { q with phase := .callback now (ran ++ [it]) todo, log := q.log ++ [.ran t.serial] }
  | return_ {now ran todo} (hphase : q.phase = .callback now ran todo) :
    Effect q .return_ { q with phase := .calling now ran todo }
  | endCalls {now ran} (hphase : q.phase = .calling now ran []) :
    Effect q .endCalls { q with callingExpiredTimers_ := false, phase := .resetting now [] ran }
  | restart {now done it todo t} (hphase : q.phase = .resetting now done (it :: todo))
      (ht : q.heap it.timer = .live t) (hrepeat : t.repeat_ = true)
      (hcancel : ⟨it.timer, t.sequence_⟩ ∉ q.caneclingTimers_) :
    Effect q .reset (q.restarted it t now done todo)
  | discard {now done it todo t} (hphase : q.phase = .resetting now done (it :: todo))
      (ht : q.heap it.timer = .live t)
      (hcancel : t.repeat_ = true → ⟨it.timer, t.sequence_⟩ ∈ q.caneclingTimers_) :
    Effect q .reset
      { q.deleted it.timer t with phase := .resetting now (done ++ [it]) todo }
  | rearm {now done e t} (now' : ℤ) (hphase : q.phase = .resetting now done [])
      (he : q.timers_.begin_ = some e) (ht : q.heap e.timer = .live t)
      (hpos : 0 < t.expiration_) :
    Effect q (.rearm now') { q.resetTimerfd t.expiration_ now' with phase := .idle }
  | rearmNothing {now done} (now' : ℤ) (hphase : q.phase = .resetting now done [])
      (hnot : ∀ e t, q.timers_.begin_ = some e → q.heap e.timer = .live t → t.expiration_ ≤ 0) :
    Effect q (.rearm now') { q with phase := .idle }

section

variable [DecidableEq T] (h : q.Inv)

include h

private theorem addTimerInLoop_effect {p : Addr} (now : ℤ) (hphase : q.phase.inUserCode = true)
    (hp : p ∈ q.inFlight) :
    ∃ q', q.exec (.addTimerInLoop p now) = .ok q' ∧ q.Effect (.addTimerInLoop p now) q' := by
  obtain ⟨t, ht⟩ := exists_live_of_inFlight h hp
  have hne : ∀ e ∈ q.timers_, e.timer ≠ p := fun e he => ne_of_mem_of_inFlight h he hp
  have hinsert := insert_eq ht h.size_eq (fun hmem => hne _ hmem rfl)
    (notMem_active_of_notMem h hne _)
  have ht' : (q.added p t).deref p = .ok t := deref_eq ht
  have hexec : q.exec (.addTimerInLoop p now) =
      .ok (if q.timers_.begin_.all fun it => t.expiration_ < it.when_ then
        (q.addedFromFlight p t).resetTimerfd t.expiration_ now else q.addedFromFlight p t) := by
    rw [exec, addTimerInLoop, hinsert]
    simp only [bind, Except.bind, ht']
    split_ifs <;> rfl
  refine ⟨_, hexec, ?_⟩
  cases hbegin : q.timers_.begin_ with
  | none =>
    have hempty := OrderedSet.begin_eq_none.mp hbegin
    rw [if_pos (by simp)]
    exact .addEarliest now hphase hp ht fun e he => absurd he (hempty e)
  | some e =>
    by_cases hlt : t.expiration_ < e.when_
    · rw [if_pos (by simpa using hlt)]
      exact .addEarliest now hphase hp ht fun f hf =>
        hlt.trans_le (Entry.when_le (OrderedSet.le_of_begin_eq_some hbegin hf))
    · rw [if_neg (by simpa using hlt)]
      exact .add now hphase hp ht (OrderedSet.mem_of_begin_eq_some hbegin) (not_lt.mp hlt)

private theorem cancelInLoop_effect (timerid : TimerId) (hphase : q.phase.inUserCode = true) :
    ∃ q', q.exec (.cancelInLoop timerid) = .ok q' ∧ q.Effect (.cancelInLoop timerid) q' := by
  rcases cancelInLoop_eq h timerid with ⟨t, ht, hseq, hmem, -, heq⟩ | ⟨hactive, heq⟩
  · refine ⟨_, ?_, .cancel hphase ht hseq hmem⟩
    rw [exec, heq]
    rfl
  · cases hq : q.phase with
    | idle =>
      have hflag : ¬ q.callingExpiredTimers_ = true := by simp [h.flag, hq, ReadPhase.isCalling]
      refine ⟨_, ?_, .cancelNothing hq hactive⟩
      rw [exec, heq, if_neg hflag]
      rfl
    | callback now ran todo =>
      have hflag : q.callingExpiredTimers_ = true := by rw [h.flag, hq, ReadPhase.isCalling]
      refine ⟨_, ?_, .cancelBatch hq hactive⟩
      rw [exec, heq, if_pos hflag]
      rfl
    | calling now ran todo | resetting now done todo => simp [hq, ReadPhase.inUserCode] at hphase

private theorem reset_effect {now : ℤ} {done todo : List Entry} {it : Entry}
    (hphase : q.phase = .resetting now done (it :: todo)) :
    ∃ q', q.exec .reset = .ok q' ∧ q.Effect .reset q' := by
  have hit : it ∈ q.phase.expired := by
    rw [hphase]
    exact List.mem_cons_self
  obtain ⟨t, ht⟩ := exists_live_of_expired h hit
  have hne : ∀ e ∈ q.timers_, e.timer ≠ it.timer := fun e he => ne_of_mem_of_expired h he hit
  by_cases hcond : t.repeat_ = true ∧ ⟨it.timer, t.sequence_⟩ ∉ q.caneclingTimers_
  · refine ⟨_, ?_, .restart hphase ht hcond.1 hcond.2⟩
    have hrestart : t.restart now = { t with expiration_ := addTime now t.interval_ } :=
      if_pos hcond.1
    have hinsert := insert_eq (q := { q with
        heap := Function.update q.heap it.timer (.live (t.restart now)) }) (t := t.restart now)
      (Function.update_self ..) h.size_eq (fun hmem => hne _ hmem rfl)
      (notMem_active_of_notMem h hne _)
    rw [hrestart] at hinsert
    rw [exec, hphase]
    simp only [reset, deref_eq ht, bind, Except.bind, if_pos hcond, hrestart, hinsert]
    rfl
  · refine ⟨_, ?_, .discard hphase ht fun hrepeat => ?_⟩
    · rw [exec, hphase]
      simp only [reset, deref_eq ht, bind, Except.bind, if_neg hcond, delete_eq ht]
      rfl
    · by_contra hcancel
      exact hcond ⟨hrepeat, hcancel⟩

private theorem rearm_effect {now now' : ℤ} {done : List Entry}
    (hphase : q.phase = .resetting now done []) :
    ∃ q', q.exec (.rearm now') = .ok q' ∧ q.Effect (.rearm now') q' := by
  cases hbegin : q.timers_.begin_ with
  | none =>
    refine ⟨_, ?_, .rearmNothing now' hphase ?_⟩
    · rw [exec, rearm, hbegin]
      rfl
    · simp [hbegin]
  | some e =>
    obtain ⟨t, ht⟩ := exists_live_of_mem h (OrderedSet.mem_of_begin_eq_some hbegin)
    by_cases hpos : 0 < t.expiration_
    · refine ⟨_, ?_, .rearm now' hphase hbegin ht hpos⟩
      rw [exec, rearm, hbegin]
      simp only [deref_eq ht, bind, Except.bind, if_pos hpos]
      rfl
    · refine ⟨_, ?_, .rearmNothing now' hphase ?_⟩
      · rw [exec, rearm, hbegin]
        simp only [deref_eq ht, bind, Except.bind, if_neg hpos]
        rfl
      · intro e' t' he' ht'
        rw [hbegin] at he'
        obtain rfl := Option.some.inj he'
        rw [ht] at ht'
        obtain rfl := Cell.live.inj ht'
        exact not_lt.mp hpos

/-- An enabled step is not at fault, and its effect is one of those listed. -/
theorem exists_effect {a : Action T C} (ha : q.enabled a = true) :
    ∃ q', q.exec a = .ok q' ∧ q.Effect a q' := by
  cases a with
  | new caller p cb when_ interval =>
    have hp : q.heap p = .free := by
      cases hcell : q.heap p <;> simp [enabled, hcell] at ha ⊢
    have hmaking : q.making caller = none := by
      simp only [enabled, Bool.and_eq_true, Option.isNone_iff_eq_none] at ha
      exact ha.1.2
    exact ⟨_, rfl, .new cb when_ interval hmaking hp⟩
  | count caller =>
    cases hmaking : q.making caller with
    | none => simp [enabled, hmaking] at ha
    | some m =>
      cases m with
      | allocated p cb when_ interval serial =>
        exact ⟨_, by rw [exec, hmaking], .count hmaking⟩
      | counted => simp [enabled, hmaking] at ha
  | load caller =>
    cases hmaking : q.making caller with
    | none => simp [enabled, hmaking] at ha
    | some m =>
      cases m with
      | allocated => simp [enabled, hmaking] at ha
      | counted p cb when_ interval serial =>
        exact ⟨_, by rw [exec, hmaking], .load hmaking⟩
  | addTimerInLoop p now =>
    simp only [enabled, Bool.and_eq_true, decide_eq_true_eq] at ha
    exact addTimerInLoop_effect h now ha.1.1 ha.2
  | cancelInLoop timerid =>
    simp only [enabled, Bool.and_eq_true] at ha
    exact cancelInLoop_effect h timerid ha.1
  | handleRead now sentinel n =>
    have hphase : q.phase = .idle := by
      cases hq : q.phase <;> simp [enabled, hq] at ha ⊢
    obtain ⟨active, heq, hsize, hactive⟩ := handleRead_eq h now n
    exact ⟨_, heq, .handleRead now sentinel n hphase hsize hactive⟩
  | run =>
    obtain ⟨now, ran, it, todo, hphase⟩ : ∃ now ran it todo,
        q.phase = .calling now ran (it :: todo) := by
      rcases hq : q.phase with _ | ⟨now, ran, _ | ⟨it, todo⟩⟩ | _ | _ <;>
        simp [enabled, hq] at ha ⊢
    have hit : it ∈ q.phase.expired := by
      rw [hphase]
      exact List.mem_append_right _ List.mem_cons_self
    obtain ⟨t, ht⟩ := exists_live_of_expired h hit
    refine ⟨_, ?_, .run hphase ht⟩
    rw [exec, hphase]
    simp only [TimerQueue.run, deref_eq ht, bind, Except.bind]
    rfl
  | return_ =>
    obtain ⟨now, ran, todo, hphase⟩ : ∃ now ran todo, q.phase = .callback now ran todo := by
      rcases hq : q.phase with _ | _ | ⟨now, ran, todo⟩ | _ <;> simp [enabled, hq] at ha ⊢
    exact ⟨_, by rw [exec, hphase], .return_ hphase⟩
  | endCalls =>
    obtain ⟨now, ran, hphase⟩ : ∃ now ran, q.phase = .calling now ran [] := by
      rcases hq : q.phase with _ | ⟨now, ran, _ | ⟨it, todo⟩⟩ | _ | _ <;>
        simp [enabled, hq] at ha ⊢
    exact ⟨_, by rw [exec, hphase], .endCalls hphase⟩
  | reset =>
    obtain ⟨now, done, it, todo, hphase⟩ : ∃ now done it todo,
        q.phase = .resetting now done (it :: todo) := by
      rcases hq : q.phase with _ | _ | _ | ⟨now, done, _ | ⟨it, todo⟩⟩ <;>
        simp [enabled, hq] at ha ⊢
    exact reset_effect h hphase
  | rearm now' =>
    obtain ⟨now, done, hphase⟩ : ∃ now done, q.phase = .resetting now done [] := by
      rcases hq : q.phase with _ | _ | _ | ⟨now, done, _ | ⟨it, todo⟩⟩ <;>
        simp [enabled, hq] at ha ⊢
    exact rearm_effect h hphase

/-- The successful steps are the effects. -/
theorem step_effect {a : Action T C} {q' : TimerQueue T C} (hstep : q.step a = some q') :
    q.Effect a q' := by
  rw [step] at hstep
  split_ifs at hstep with ha
  obtain ⟨q'', hexec, heffect⟩ := exists_effect h ha
  rw [hexec] at hstep
  obtain rfl := Option.some.inj hstep
  exact heffect

end

/-- The invariant holds after every effect. -/
theorem Effect.inv [DecidableEq T] {a : Action T C} {q' : TimerQueue T C} (heffect : q.Effect a q')
    (h : q.Inv) : q'.Inv := by
  cases heffect with
  | new cb when_ interval hmaking hp => exact h.new hp rfl _
  | count hmaking =>
    refine h.count hmaking ?_ _
    rfl
  | load hmaking => exact h.load hmaking _ _
  | addEarliest now hphase hp ht _ | add now hphase hp ht _ _ =>
    refine h.insert ht (fun e he => ne_of_mem_of_inFlight h he hp) ?_
      (fun p' => count_erase_inFlight hp p' _) rfl _ _
    rw [← ht, Function.update_eq_self]
  | cancel hphase ht hseq hmem => exact h.remove ht hmem _ _
  | cancelBatch hphase hactive => exact h.of_expired_eq rfl h.flag _ _ _ _
  | cancelNothing hphase hactive => exact h.of_expired_eq rfl h.flag _ _ _ _
  | handleRead now sentinel n hphase hsize hactive => exact h.batch hphase now n hsize hactive
  | run hphase ht =>
    refine h.of_expired_eq ?_ ?_ _ _ _ _
    · simp [hphase, ReadPhase.expired]
    · rw [h.flag, hphase]
      rfl
  | return_ hphase =>
    refine h.of_expired_eq ?_ ?_ _ _ _ _
    · rw [hphase, ReadPhase.expired, ReadPhase.expired]
    · rw [h.flag, hphase]
      rfl
  | endCalls hphase =>
    refine h.of_expired_eq ?_ ?_ _ _ _ _
    · rw [hphase, ReadPhase.expired, ReadPhase.expired, List.append_nil]
    · rfl
  | @restart now done it todo t hphase ht hrepeat hcancel =>
    have hit : it ∈ q.phase.expired := by
      rw [hphase]
      exact List.mem_cons_self
    refine h.insert ht (fun e he => ne_of_mem_of_expired h he hit) rfl
      (fun p' => count_expired hphase p' _) ?_ _ _
    rw [hphase]
    rfl
  | @discard now done it todo t hphase ht hcancel =>
    have hit : it ∈ q.phase.expired := by
      rw [hphase]
      exact List.mem_cons_self
    refine h.discard ht (fun e he => ne_of_mem_of_expired h he hit)
      (fun p' => count_expired hphase p' _) ?_
    rw [hphase]
    rfl
  | rearm now' hphase he ht hpos | rearmNothing now' hphase hnot =>
    refine h.of_expired_eq ?_ ?_ _ _ _ _
    · rw [hphase, ReadPhase.expired, ReadPhase.expired]
    · exact h.flag.trans (by rw [hphase]; rfl)

/-- A timer that is live after a step was live before, was just constructed, or has been
restarted. -/
theorem Effect.live_cases [DecidableEq T] {a : Action T C} {q' : TimerQueue T C}
    (heffect : q.Effect a q') {p : Addr} {t' : Timer C} (ht' : q'.heap p = .live t') :
    q.heap p = .live t' ∨
      (∃ caller cb when_ interval serial,
        q.making caller = some (.counted p cb when_ interval serial) ∧
          t' = .new cb when_ interval q.s_numCreated serial) ∨
      ∃ now done it todo t, q.phase = .resetting now done (it :: todo) ∧
        q.heap p = .live t ∧ t' = { t with expiration_ := addTime now t.interval_ } := by
  cases heffect with
  | new cb when_ interval hmaking hp => exact .inl (of_update_dead ht' rfl).2
  | load hmaking =>
    rcases of_update_live ht' with ⟨rfl, rfl⟩ | ⟨-, ht'⟩
    · exact .inr (.inl ⟨_, _, _, _, _, hmaking, rfl⟩)
    · exact .inl ht'
  | cancel hphase ht hseq hmem | discard hphase ht hcancel =>
    exact .inl (of_update_dead ht' rfl).2
  | restart hphase ht hrepeat hcancel =>
    rcases of_restarted_live ht' with ⟨rfl, rfl⟩ | ⟨-, ht'⟩
    · exact .inr (.inr ⟨_, _, _, _, _, hphase, ht, rfl⟩)
    · exact .inl ht'
  | count hmaking | addEarliest now hphase hp ht hear | add now hphase hp ht he hle
  | cancelBatch hphase hactive | cancelNothing hphase hactive
  | handleRead now sentinel n hphase hsize hactive | run hphase ht | return_ hphase
  | endCalls hphase | rearm now' hphase he ht hpos | rearmNothing now' hphase hnot =>
    exact .inl ht'

end TimerQueue

end TinyMuduo
