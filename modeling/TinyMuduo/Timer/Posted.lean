import TinyMuduo.Timer.Repeat
import TinyMuduo.Timer.SharedTimers

/-!
# Where a timer is until it is inserted

A timer that has been constructed is in flight until `addTimerInLoop` inserts it. When several
threads add timers, a timer in flight is in one of two places: the thread that has constructed it is
in front of `runInLoop`, or one functor that is going to insert it waits in the queue of the loop.
With `timers_` and the vector `expired` these are the four places of a timer.

The destructor of the timer queue deletes the timers in `timers_`. A functor that waits then is
destroyed without a call, and its timer is not deleted: exactly the timers in flight leak.

## Main definitions

* `TimerQueue.Settled`: a timer that was constructed has been inserted or is in flight.
* `SharedTimers.Posts`: the invariant for the timers in flight.
* `TimerQueue.destroy`: the destructor.

## Main results

* `SharedTimers.posts_of_reaches`: a timer in flight waits in one functor, or for its thread.
* `SharedTimers.destroyed_of_reaches`: what the destructor deletes, and what leaks.
-/

namespace TinyMuduo

open Transition

namespace TimerQueue

variable {T C : Type} {q q' : TimerQueue T C}

/-- The destructor, the channel and the descriptor apart. -/
def destroy (q : TimerQueue T C) : Except Fault (TimerQueue T C) :=
  q.timers_.toList.foldlM (fun q e => q.delete e.timer) q

/-! ### What stays -/

section Effects

variable [DecidableEq T] {a : Action T C}

/-- Which timers a step deletes: one that is cancelled in `timers_`, and one of the batch that does
not repeat or was cancelled. -/
theorem Effect.stays (heffect : q.Effect a q') (hinv : q.Inv) {p : Addr} {t : Timer C}
    (ht : q.heap p = .live t)
    (hcancel : a = .cancelInLoop ⟨p, t.sequence_⟩ → ⟨t.expiration_, p⟩ ∉ q.timers_)
    (hreset : p ∈ q.phase.expired.map Entry.timer →
      t.repeat_ = true ∧ ⟨p, t.sequence_⟩ ∉ q.caneclingTimers_) :
    ∃ t', q'.heap p = .live t' ∧ t.SameTimer t' := by
  have hother {p₀ : Addr} (c : Cell C) (hp₀ : p ≠ p₀) :
      ∃ t', Function.update q.heap p₀ c p = .live t' ∧ t.SameTimer t' :=
    ⟨t, (Function.update_of_ne hp₀ ..).trans ht, .refl t⟩
  cases heffect with
  | @new caller p₀ cb when_ interval hmaking hp =>
    refine hother _ ?_
    rintro rfl
    cases ht.symm.trans hp
  | load hmaking => exact hother _ (addr_ne_of_live hinv hmaking ht).symm
  | @cancel timerid t₀ hphase ht₀ hseq hmem =>
    refine hother _ ?_
    rintro rfl
    obtain rfl := Cell.live.inj (ht.symm.trans ht₀)
    exact hcancel (by rw [hseq]) hmem
  | @discard now done it todo t₀ hphase ht₀ hcanceled =>
    refine hother _ ?_
    rintro rfl
    obtain rfl := Cell.live.inj (ht.symm.trans ht₀)
    obtain ⟨hrepeat, hnot⟩ := hreset (by simp [hphase, ReadPhase.expired])
    exact hnot (hcanceled hrepeat)
  | @restart now done it todo t₀ hphase ht₀ hrepeat hcanceled =>
    by_cases hp : p = it.timer
    · subst hp
      obtain rfl := Cell.live.inj (ht.symm.trans ht₀)
      exact ⟨_, Function.update_self .., rfl, rfl, rfl⟩
    · exact hother _ hp
  | count hmaking | addEarliest now hphase hp ht₀ hear | add now hphase hp ht₀ he hle
  | cancelBatch hphase hactive | cancelNothing hphase hactive
  | handleRead now sentinel n hphase hsize hactive | run hphase ht₀ | return_ hphase
  | endCalls hphase | rearm now' hphase he ht₀ hpos | rearmNothing now' hphase hnot =>
    exact ⟨t, ht, .refl t⟩

/-- A timer in flight is not deleted. -/
theorem Effect.stays_of_inFlight (heffect : q.Effect a q') (hinv : q.Inv) {p : Addr} {t : Timer C}
    (ht : q.heap p = .live t) (hp : p ∈ q.inFlight) :
    ∃ t', q'.heap p = .live t' ∧ t.SameTimer t' := by
  refine heffect.stays hinv ht (fun _ hmem => ne_of_mem_of_inFlight hinv hmem hp rfl) fun hmem => ?_
  obtain ⟨e, he, rfl⟩ := List.mem_map.mp hmem
  exact absurd rfl (ne_of_mem_expired_of_inFlight hinv he hp)

theorem Effect.inFlight_eq (heffect : q.Effect a q') (hload : ∀ caller, a ≠ .load caller)
    (hadd : ∀ p now, a ≠ .addTimerInLoop p now) : q'.inFlight = q.inFlight := by
  cases heffect with
  | load hmaking => exact absurd rfl (hload _)
  | addEarliest now | add now => exact absurd rfl (hadd _ now)
  | _ => rfl

theorem Effect.of_load {caller : Option T} (heffect : q.Effect (.load caller) q') {m : Making C}
    (hm : q.making caller = some m) :
    q'.inFlight = m.addr :: q.inFlight ∧ ∃ t, q'.heap m.addr = .live t ∧ t.serial = m.serial := by
  cases heffect with
  | load hmaking =>
    obtain rfl := Option.some.inj (hm.symm.trans hmaking)
    exact ⟨rfl, _, Function.update_self .., rfl⟩

theorem Effect.of_addTimerInLoop {p : Addr} {now : ℤ}
    (heffect : q.Effect (.addTimerInLoop p now) q') :
    q'.inFlight = q.inFlight.erase p ∧ q'.heap = q.heap ∧
      ∃ t, q.heap p = .live t ∧ .inserted t.serial ∈ q'.log := by
  cases heffect with
  | addEarliest _ hphase hp ht hear =>
    exact ⟨rfl, rfl, _, ht, by simp [resetTimerfd, addedFromFlight, added]⟩
  | add _ hphase hp ht he hle =>
    exact ⟨rfl, rfl, _, ht, by simp [addedFromFlight, added]⟩

omit [DecidableEq T] in
/-- The address of a construction is not in flight. -/
theorem notMem_inFlight_of_making (hinv : q.Inv) {c : Option T} {m : Making C}
    (hm : q.making c = some m) : m.addr ∉ q.inFlight := by
  intro hp
  obtain ⟨t, ht⟩ := exists_live_of_inFlight hinv hp
  exact addr_ne_of_live hinv hm ht rfl

end Effects

/-! ### A timer is inserted or in flight -/

/-- A timer that was constructed has been inserted, or it is in flight. -/
def Settled (q : TimerQueue T C) : Prop :=
  ∀ serial id r, .made serial id r ∈ q.log → .inserted serial ∈ q.log ∨
    id.timer_ ∈ q.inFlight ∧ ∃ t, q.heap id.timer_ = .live t ∧ t.serial = serial

section Settled

variable [DecidableEq T]

theorem Effect.settled {a : Action T C} (heffect : q.Effect a q') (hinv : q.Inv)
    (h : q.Settled) : q'.Settled := by
  have hkeep {serial : ℕ} {id : TimerId} {r : ℚ} (hold : .made serial id r ∈ q.log) :
      .inserted serial ∈ q'.log ∨
        id.timer_ ∈ q'.inFlight ∧ ∃ t, q'.heap id.timer_ = .live t ∧ t.serial = serial := by
    obtain ⟨new, hlog, -⟩ := heffect.exists_log
    rcases h serial id r hold with hinserted | ⟨hp, t, ht, rfl⟩
    · exact .inl (hlog ▸ List.mem_append_left _ hinserted)
    · obtain ⟨t', ht', hsame⟩ := heffect.stays_of_inFlight hinv ht hp
      by_cases hadd : ∃ now, a = .addTimerInLoop id.timer_ now
      · obtain ⟨now, rfl⟩ := hadd
        obtain ⟨-, -, t₀, ht₀, hinserted⟩ := heffect.of_addTimerInLoop
        obtain rfl := Cell.live.inj (ht.symm.trans ht₀)
        exact .inl hinserted
      · refine .inr ⟨?_, t', ht', hsame.serial.symm⟩
        cases a with
        | load caller =>
          cases heffect with
          | load hmaking => exact List.mem_cons_of_mem _ hp
        | addTimerInLoop p now =>
          have hne : id.timer_ ≠ p := fun heq => hadd ⟨now, heq ▸ rfl⟩
          rw [heffect.of_addTimerInLoop.1]
          exact (List.mem_erase_of_ne hne).mpr hp
        | _ => exact (heffect.inFlight_eq (by simp) (by simp)).symm ▸ hp
  intro serial id r hmade
  rcases heffect.log_eq with ⟨now, ran, it, todo, t, hphase, ht, rfl⟩ |
    ⟨caller, p, cb, when_, interval, serial', hmaking, rfl⟩ | ⟨new, hlog, -, hnotMade⟩
  · exact hkeep (by simpa using hmade)
  · rcases List.mem_append.mp hmade with hold | hnew
    · exact hkeep hold
    · obtain ⟨rfl, rfl, rfl⟩ := TimerEvent.made.inj (List.mem_singleton.mp hnew)
      exact .inr ⟨List.mem_cons_self, _, Function.update_self .., rfl⟩
  · rw [hlog, List.mem_append] at hmade
    exact hkeep (hmade.resolve_right (hnotMade _ _ _))

theorem settled_of_reaches {G : TimerQueue T C → Action T C → Prop}
    (h : Reaches (ofStep step) G init q) : q.Settled :=
  h.induct (fun _ _ _ hmade => absurd hmade List.not_mem_nil) fun _ _ _ hu _ hstep ih =>
    (step_effect (inv_of_reaches hu) hstep).settled (inv_of_reaches hu) ih

end Settled

/-! ### The destructor -/

/-- The deletion of different live timers does not fail, and deletes nothing else. -/
theorem exists_foldlM_delete (entries : List Entry) {q : TimerQueue T C}
    (hnodup : (entries.map Entry.timer).Nodup)
    (hlive : ∀ e ∈ entries, ∃ t, q.heap e.timer = .live t) :
    ∃ q', entries.foldlM (fun q e => q.delete e.timer) q = .ok q' ∧
      ∀ p, q'.heap p = if p ∈ entries.map Entry.timer then .free else q.heap p := by
  induction entries generalizing q with
  | nil => exact ⟨q, rfl, by simp⟩
  | cons e entries ih =>
    rw [List.map_cons, List.nodup_cons] at hnodup
    obtain ⟨t, ht⟩ := hlive e List.mem_cons_self
    obtain ⟨q', hq', hheap⟩ := ih (q := q.deleted e.timer t) hnodup.2 fun f hf => by
      have hne : f.timer ≠ e.timer := fun heq => hnodup.1 (heq ▸ List.mem_map_of_mem hf)
      obtain ⟨t', ht'⟩ := hlive f (List.mem_cons_of_mem _ hf)
      exact ⟨t', (Function.update_of_ne hne ..).trans ht'⟩
    refine ⟨q', ?_, fun p => ?_⟩
    · rw [List.foldlM_cons, delete_eq ht]
      exact hq'
    · rw [hheap, List.map_cons]
      by_cases hp : p = e.timer
      · simp [hp, deleted]
      · simp [hp, deleted]

/-- The destructor deletes the timers in `timers_`, each of them once, and nothing else. -/
theorem exists_destroy (hinv : q.Inv) :
    ∃ q', q.destroy = .ok q' ∧
      ∀ p, q'.heap p = if p ∈ q.timers_.toList.map Entry.timer then .free else q.heap p :=
  exists_foldlM_delete _ (nodup_timers hinv) fun _ he => exists_live_of_mem hinv he

end TimerQueue

namespace SharedTimers

variable {T C F : Type} (s : SharedTimers T C F) {s' : SharedTimers T C F}

/-- The timers whose insertion waits in the queue of the loop. -/
def waiting : List Addr := s.loop.items.filterMap TimerFunctor.timer

/-- The invariant for the timers in flight: each of them waits in one functor, or for the one thread
that has constructed it. -/
structure Posts : Prop where
  nodup : s.waiting.Nodup
  waiting {p} (h : p ∈ s.waiting) :
    p ∈ s.timerQueue_.inFlight ∧ ∀ c serial, s.adding c ≠ some (.constructed p serial)
  constructed {c p serial} (h : s.adding c = some (.constructed p serial)) :
    p ∈ s.timerQueue_.inFlight ∧ ∃ t, s.timerQueue_.heap p = .live t ∧ t.serial = serial
  unique {c c' p serial serial'} (h : s.adding c = some (.constructed p serial))
    (h' : s.adding c' = some (.constructed p serial')) : c = c'
  inFlight {p} (h : p ∈ s.timerQueue_.inFlight) :
    p ∈ s.waiting ∨ ∃ c serial, s.adding c = some (.constructed p serial)

variable {s}

/-! ### Where the timers in flight are -/

theorem mem_waiting {p : Addr} : p ∈ s.waiting ↔ .addTimerInLoop p ∈ s.loop.items := by
  rw [waiting, List.mem_filterMap]
  constructor
  · rintro ⟨cb, hmem, hcb⟩
    cases cb with
    | addTimerInLoop p' => exact Option.some.inj hcb ▸ hmem
    | cancelInLoop timerid | user cb => cases hcb
  · exact fun hmem => ⟨_, hmem, rfl⟩

theorem UserMove.waiting {e e' : Eventloop T (TimerFunctor F)} (h : UserMove e e') :
    e'.items.filterMap TimerFunctor.timer = e.items.filterMap TimerFunctor.timer := by
  cases h with
  | same hitems hlen => rw [hitems]
  | push cb hitems hlen => simp [hitems, TimerFunctor.timer]
  | pop cb hitems hlen =>
    rw [hitems]
    exact (List.filterMap_cons_none rfl).symm

/-- A step that moves no timer in flight. -/
theorem Posts.of_same (h : s.Posts) (hwaiting : s'.waiting = s.waiting)
    (hadding : ∀ c p serial, s'.adding c = some (.constructed p serial) ↔
      s.adding c = some (.constructed p serial))
    (hinFlight : s'.timerQueue_.inFlight = s.timerQueue_.inFlight)
    (hlive : ∀ p t, s.timerQueue_.heap p = .live t → p ∈ s.timerQueue_.inFlight →
      ∃ t', s'.timerQueue_.heap p = .live t' ∧ t.SameTimer t') : s'.Posts where
  nodup := hwaiting ▸ h.nodup
  waiting {p} hp := by
    rw [hwaiting] at hp
    obtain ⟨hmem, hnot⟩ := h.waiting hp
    exact ⟨hinFlight ▸ hmem, fun c serial hc => hnot c serial ((hadding c p serial).mp hc)⟩
  constructed {c p serial} hc := by
    obtain ⟨hmem, t, ht, hserial⟩ := h.constructed ((hadding c p serial).mp hc)
    obtain ⟨t', ht', hsame⟩ := hlive p t ht hmem
    exact ⟨hinFlight ▸ hmem, t', ht', hsame.serial.symm.trans hserial⟩
  unique hc hc' := h.unique ((hadding _ _ _).mp hc) ((hadding _ _ _).mp hc')
  inFlight {p} hp := by
    rw [hinFlight] at hp
    refine (h.inFlight hp).imp (hwaiting ▸ ·) ?_
    rintro ⟨c, serial, hc⟩
    exact ⟨c, serial, (hadding c p serial).mpr hc⟩

/-- The insertion of a timer. -/
theorem Posts.insert (h : s.Posts) (hinv : s.timerQueue_.Inv) {p₀ : Addr}
    (hnodup : s'.waiting.Nodup) (hwaiting : ∀ p, p ∈ s'.waiting ↔ p ∈ s.waiting ∧ p ≠ p₀)
    (hadding : ∀ c p serial, s'.adding c = some (.constructed p serial) ↔
      s.adding c = some (.constructed p serial) ∧ p ≠ p₀)
    (hinFlight : s'.timerQueue_.inFlight = s.timerQueue_.inFlight.erase p₀)
    (hheap : s'.timerQueue_.heap = s.timerQueue_.heap) : s'.Posts where
  nodup := hnodup
  waiting {p} hp := by
    obtain ⟨hp, hne⟩ := (hwaiting p).mp hp
    obtain ⟨hmem, hnot⟩ := h.waiting hp
    exact ⟨hinFlight ▸ (List.mem_erase_of_ne hne).mpr hmem,
      fun c serial hc => hnot c serial ((hadding c p serial).mp hc).1⟩
  constructed {c p serial} hc := by
    obtain ⟨hc, hne⟩ := (hadding c p serial).mp hc
    obtain ⟨hmem, hlive⟩ := h.constructed hc
    exact ⟨hinFlight ▸ (List.mem_erase_of_ne hne).mpr hmem, hheap ▸ hlive⟩
  unique hc hc' := h.unique ((hadding _ _ _).mp hc).1 ((hadding _ _ _).mp hc').1
  inFlight {p} hp := by
    rw [hinFlight] at hp
    have hne : p ≠ p₀ := by
      rintro rfl
      exact TimerQueue.notMem_erase_inFlight hinv p hp
    rcases h.inFlight (List.mem_of_mem_erase hp) with hp | ⟨c, serial, hc⟩
    · exact .inl ((hwaiting p).mpr ⟨hp, hne⟩)
    · exact .inr ⟨c, serial, (hadding c p serial).mpr ⟨hc, hne⟩⟩

section Runs

variable [DecidableEq T]

theorem update_adding_cases {adding : Option T → Option AddTimer} {c c' : Option T}
    {a₀ : Option AddTimer} {a : AddTimer} (h : Function.update adding c a₀ c' = some a) :
    c' = c ∧ a₀ = some a ∨ c' ≠ c ∧ adding c' = some a := by
  by_cases hc : c' = c
  · subst hc
    exact .inl ⟨rfl, by rwa [Function.update_self] at h⟩
  · exact .inr ⟨hc, by rwa [Function.update_of_ne hc] at h⟩

private theorem update_adding {adding : Option T → Option AddTimer} {c c' : Option T}
    {a : Option AddTimer} {p : Addr} {serial : ℕ} (ha : a ≠ some (.constructed p serial)) :
    Function.update adding c a c' = some (.constructed p serial) ↔
      adding c' = some (.constructed p serial) ∧ c' ≠ c := by
  by_cases hc : c' = c
  · subst hc
    simp [ha]
  · simp [hc]

/-- The end of a construction. -/
theorem Posts.load (h : s.Posts) (hinv : s.timerQueue_.Inv) {caller : Option T} {m : Making C}
    {q : TimerQueue T C} (hadding : s.adding caller = none)
    (hmaking : s.timerQueue_.making caller = some m)
    (heffect : s.timerQueue_.Effect (.load caller) q) :
    Posts { s with
      timerQueue_ := q
      adding := Function.update s.adding caller (some (.constructed m.addr m.serial)) } := by
  obtain ⟨hinFlight, t₀, ht₀, hserial₀⟩ := heffect.of_load hmaking
  have hnew : m.addr ∉ s.timerQueue_.inFlight := TimerQueue.notMem_inFlight_of_making hinv hmaking
  have hcases {c p serial} (hc : Function.update s.adding caller
      (some (.constructed m.addr m.serial)) c = some (.constructed p serial)) :
      (c = caller ∧ p = m.addr ∧ serial = m.serial) ∨
        c ≠ caller ∧ s.adding c = some (.constructed p serial) := by
    refine (update_adding_cases hc).imp_left ?_
    rintro ⟨rfl, heq⟩
    cases heq
    exact ⟨rfl, rfl, rfl⟩
  constructor
  case nodup => exact h.nodup
  case waiting =>
    intro p hp
    obtain ⟨hmem, hnot⟩ := h.waiting hp
    refine ⟨hinFlight ▸ List.mem_cons_of_mem _ hmem, fun c serial hc => ?_⟩
    rcases hcases hc with ⟨-, rfl, -⟩ | ⟨-, hc⟩
    · exact hnew hmem
    · exact hnot c serial hc
  case constructed =>
    intro c p serial hc
    rcases hcases hc with ⟨-, rfl, rfl⟩ | ⟨-, hc⟩
    · exact ⟨hinFlight ▸ List.mem_cons_self, t₀, ht₀, hserial₀⟩
    · obtain ⟨hmem, t, ht, hserial⟩ := h.constructed hc
      obtain ⟨t', ht', hsame⟩ := heffect.stays_of_inFlight hinv ht hmem
      exact ⟨hinFlight ▸ List.mem_cons_of_mem _ hmem, t', ht', hsame.serial.symm.trans hserial⟩
  case unique =>
    intro c c' p serial serial' hc hc'
    rcases hcases hc with ⟨hcaller, rfl, -⟩ | ⟨-, hold⟩ <;>
      rcases hcases hc' with ⟨hcaller', hp, -⟩ | ⟨-, hold'⟩
    · exact hcaller.trans hcaller'.symm
    · exact absurd (h.constructed hold').1 hnew
    · exact absurd (hp ▸ (h.constructed hold).1) hnew
    · exact h.unique hold hold'
  case inFlight =>
    intro p hp
    rw [hinFlight, List.mem_cons] at hp
    rcases hp with rfl | hp
    · exact .inr ⟨caller, m.serial, Function.update_self ..⟩
    · refine (h.inFlight hp).imp_right ?_
      rintro ⟨c, serial, hc⟩
      have hne : c ≠ caller := by
        rintro rfl
        cases hadding.symm.trans hc
      exact ⟨c, serial, (Function.update_of_ne hne ..).trans hc⟩

/-- The call of `runInLoop` in `addTimer` by another thread. -/
theorem Posts.post (h : s.Posts) {caller : Option T} {p₀ : Addr} {serial₀ : ℕ}
    {e : Eventloop T (TimerFunctor F)} (hadding : s.adding caller = some (.constructed p₀ serial₀))
    (hitems : e.items = s.loop.items ++ [.addTimerInLoop p₀]) :
    Posts { s with
      loop := e
      adding := Function.update s.adding caller (some (.posted p₀ serial₀)) } := by
  have hwaiting : e.items.filterMap TimerFunctor.timer = s.waiting ++ [p₀] := by
    simp [hitems, SharedTimers.waiting, TimerFunctor.timer]
  have hupdate {c p serial} : Function.update s.adding caller (some (.posted p₀ serial₀)) c =
      some (.constructed p serial) ↔ s.adding c = some (.constructed p serial) ∧ c ≠ caller :=
    update_adding (by simp)
  have hmem {p} : p ∈ e.items.filterMap TimerFunctor.timer ↔ p ∈ s.waiting ∨ p = p₀ := by
    simp [hwaiting]
  have hnew : p₀ ∉ s.waiting := fun hp => (h.waiting hp).2 _ _ hadding
  constructor
  case nodup =>
    change (e.items.filterMap TimerFunctor.timer).Nodup
    rw [hwaiting, List.nodup_append]
    exact ⟨h.nodup, List.nodup_singleton _, by simpa using fun p hp => ne_of_mem_of_not_mem hp hnew⟩
  case waiting =>
    intro p hp
    rcases hmem.mp hp with hp | rfl
    · obtain ⟨hmem', hnot⟩ := h.waiting hp
      exact ⟨hmem', fun c serial hc => hnot c serial (hupdate.mp hc).1⟩
    · refine ⟨(h.constructed hadding).1, fun c serial hc => ?_⟩
      obtain ⟨hc, hne⟩ := hupdate.mp hc
      exact hne (h.unique hc hadding)
  case constructed => exact fun hc => h.constructed (hupdate.mp hc).1
  case unique => exact fun hc hc' => h.unique (hupdate.mp hc).1 (hupdate.mp hc').1
  case inFlight =>
    intro p hp
    rcases h.inFlight hp with hp | ⟨c, serial, hc⟩
    · exact .inl (hmem.mpr (.inl hp))
    · by_cases hne : c = caller
      · subst hne
        cases hadding.symm.trans hc
        exact .inl (hmem.mpr (.inr rfl))
      · exact .inr ⟨c, serial, hupdate.mpr ⟨hc, hne⟩⟩

/-- Every step keeps the invariant. -/
theorem Move.posts {a : Action T C F} (hmove : s.Move a s') (hinv : s.timerQueue_.Inv)
    (h : s.Posts) : s'.Posts := by
  cases hmove with
  | @timers a b q hq hquiet hnew =>
    have heffect := TimerQueue.step_effect hinv hq
    refine h.of_same rfl (fun _ _ _ => Iff.rfl) (heffect.inFlight_eq ?_ ?_)
      fun p t ht hp => heffect.stays_of_inFlight hinv ht hp
    · rintro caller rfl
      cases hquiet
    · rintro p now rfl
      cases hquiet
  | load hadding hmaking hq =>
    exact h.load hinv hadding hmaking (TimerQueue.step_effect hinv hq)
  | @add p₀ serial₀ q now hadding hq =>
    obtain ⟨hinFlight, hheap, -⟩ := (TimerQueue.step_effect hinv hq).of_addTimerInLoop
    have hnew : p₀ ∉ s.waiting := fun hp => (h.waiting hp).2 _ _ hadding
    refine h.insert hinv h.nodup (fun p => ?_) (fun c p serial => ?_) hinFlight hheap
    · exact ⟨fun hp => ⟨hp, ne_of_mem_of_not_mem hp hnew⟩, And.left⟩
    · rw [update_adding (by simp)]
      refine and_congr_right fun hc => not_congr ⟨?_, ?_⟩
      · rintro rfl
        cases hadding.symm.trans hc
        rfl
      · rintro rfl
        exact h.unique hc hadding
  | post now hadding he => exact h.post hadding (Eventloop.items_queueInLoop he).1
  | @return_ caller p₀ serial₀ t hadding ht =>
    refine h.of_same rfl (fun c p serial => ?_) rfl fun p t ht _ => ⟨t, ht, .refl t⟩
    rw [update_adding (by simp), and_iff_left_iff_imp]
    rintro hc rfl
    cases hadding.symm.trans hc
  | cancelHere hq =>
    have heffect := TimerQueue.step_effect hinv hq
    exact h.of_same rfl (fun _ _ _ => Iff.rfl) (heffect.inFlight_eq (by simp) (by simp))
      fun p t ht hp => heffect.stays_of_inFlight hinv ht hp
  | cancelThere he =>
    refine h.of_same ?_ (fun _ _ _ => Iff.rfl) rfl fun p t ht _ => ⟨t, ht, .refl t⟩
    simp [waiting, (Eventloop.items_queueInLoop he).1, TimerFunctor.timer]
  | loop he huser =>
    exact h.of_same huser.waiting (fun _ _ _ => Iff.rfl) rfl fun p t ht _ => ⟨t, ht, .refl t⟩
  | @callAdd p₀ e q now he hitems hlen hq =>
    obtain ⟨hinFlight, hheap, -⟩ := (TimerQueue.step_effect hinv hq).of_addTimerInLoop
    have hwaiting : s.waiting = p₀ :: e.items.filterMap TimerFunctor.timer := by
      simp [waiting, hitems, TimerFunctor.timer]
    have hnodup := h.nodup
    rw [hwaiting, List.nodup_cons] at hnodup
    have hp₀ : p₀ ∈ s.waiting := hwaiting ▸ List.mem_cons_self
    refine h.insert hinv hnodup.2 (fun p => ?_) (fun c p serial => ?_) hinFlight hheap
    · rw [hwaiting, List.mem_cons]
      exact ⟨fun hp => ⟨.inr hp, ne_of_mem_of_not_mem hp hnodup.1⟩,
        fun hp => hp.1.resolve_left hp.2⟩
    · refine ⟨fun hc => ⟨hc, ?_⟩, And.left⟩
      rintro rfl
      exact (h.waiting hp₀).2 c serial hc
  | callCancel now he hitems hlen hq =>
    have heffect := TimerQueue.step_effect hinv hq
    refine h.of_same ?_ (fun _ _ _ => Iff.rfl) (heffect.inFlight_eq (by simp) (by simp))
      fun p t ht hp => heffect.stays_of_inFlight hinv ht hp
    rw [waiting, waiting, hitems]
    exact (List.filterMap_cons_none rfl).symm

omit [DecidableEq T] in
private theorem posts_init : (init : SharedTimers T C F).Posts where
  nodup := List.nodup_nil
  waiting hp := absurd hp List.not_mem_nil
  constructed hc := by cases hc
  unique hc := by cases hc
  inFlight hp := absurd hp List.not_mem_nil

variable {G : SharedTimers T C F → Action T C F → Prop}

/-- In every run a timer in flight waits in one functor, or for its thread. -/
theorem posts_of_reaches (h : Reaches (ofStep step) G init s) : s.Posts :=
  h.induct posts_init fun _ _ _ hu _ hstep ih =>
    (step_move hstep).posts (TimerQueue.inv_of_reaches (reaches_timerQueue hu)) ih

end Runs

/-! ### The places of a timer -/

/-- The places of a timer: its thread is in front of `runInLoop`, the functor that inserts it waits,
it is in `timers_`, or it is in the vector `expired`. -/
inductive Place
  | thread
  | functor
  | timers
  | expired
  deriving DecidableEq

/-- A timer is in a place. -/
def IsAt (s : SharedTimers T C F) (p : Addr) : Place → Prop
  | .thread => ∃ c serial, s.adding c = some (.constructed p serial)
  | .functor => .addTimerInLoop p ∈ s.loop.items
  | .timers => ∃ e ∈ s.timerQueue_.timers_, e.timer = p
  | .expired => ∃ e ∈ s.timerQueue_.phase.expired, e.timer = p

theorem Posts.mem_inFlight_iff (h : s.Posts) {p : Addr} :
    p ∈ s.timerQueue_.inFlight ↔ s.IsAt p .thread ∨ s.IsAt p .functor := by
  constructor
  · exact fun hp => (h.inFlight hp).symm.imp_right mem_waiting.mp
  · rintro (⟨c, serial, hc⟩ | hp)
    · exact (h.constructed hc).1
    · exact (h.waiting (mem_waiting.mpr hp)).1

/-- A timer is in one place at most. -/
theorem Posts.isAt_unique (h : s.Posts) (hinv : s.timerQueue_.Inv) {p : Addr} {a b : Place}
    (ha : s.IsAt p a) (hb : s.IsAt p b) : a = b := by
  have hthread : s.IsAt p .thread → ¬ s.IsAt p .functor := fun ⟨c, serial, hc⟩ hp =>
    (h.waiting (mem_waiting.mpr hp)).2 c serial hc
  have htimers : s.IsAt p .timers → p ∉ s.timerQueue_.inFlight := fun ⟨e, he, heq⟩ hp =>
    TimerQueue.ne_of_mem_of_inFlight hinv he hp heq
  have hexpired : s.IsAt p .expired → p ∉ s.timerQueue_.inFlight := fun ⟨e, he, heq⟩ hp =>
    TimerQueue.ne_of_mem_expired_of_inFlight hinv he hp heq
  have hboth : s.IsAt p .timers → ¬ s.IsAt p .expired := fun ⟨e, he, heq⟩ ⟨f, hf, hfeq⟩ =>
    TimerQueue.ne_of_mem_of_expired hinv he hf (heq.trans hfeq.symm)
  have hinFlight := h.mem_inFlight_iff (p := p)
  cases a <;> cases b <;> grind

/-- A live timer is in one of the places. -/
theorem Posts.live_iff (h : s.Posts) (hinv : s.timerQueue_.Inv) {p : Addr} :
    (∃ t, s.timerQueue_.heap p = .live t) ↔ ∃ a, s.IsAt p a := by
  constructor
  · rintro ⟨t, ht⟩
    have hplaces := hinv.places_eq p
    rw [ht, Cell.isLive, if_pos rfl, TimerQueue.places] at hplaces
    have hpos : 0 < s.timerQueue_.inFlight.count p ∨
        0 < (s.timerQueue_.timers_.toList.map Entry.timer).count p ∨
        0 < (s.timerQueue_.phase.expired.map Entry.timer).count p := by
      omega
    rcases hpos with hpos | hpos | hpos
    · exact (h.mem_inFlight_iff.mp (List.count_pos_iff.mp hpos)).elim (⟨_, ·⟩) (⟨_, ·⟩)
    · exact ⟨.timers, List.mem_map.mp (List.count_pos_iff.mp hpos)⟩
    · exact ⟨.expired, List.mem_map.mp (List.count_pos_iff.mp hpos)⟩
  · rintro ⟨a, ha⟩
    have hinFlight := h.mem_inFlight_iff (p := p)
    cases a with
    | thread => exact TimerQueue.exists_live_of_inFlight hinv (hinFlight.mpr (.inl ha))
    | functor => exact TimerQueue.exists_live_of_inFlight hinv (hinFlight.mpr (.inr ha))
    | timers =>
      obtain ⟨e, he, rfl⟩ := ha
      exact TimerQueue.exists_live_of_mem hinv he
    | expired =>
      obtain ⟨e, he, rfl⟩ := ha
      exact TimerQueue.exists_live_of_expired hinv he

/-- A timer is in one functor, in one entry of `timers_` or in one entry of `expired`. -/
theorem Posts.nodup_places (h : s.Posts) (hinv : s.timerQueue_.Inv) :
    (s.waiting ++ s.timerQueue_.timers_.toList.map Entry.timer ++
      s.timerQueue_.phase.expired.map Entry.timer).Nodup := by
  refine List.nodup_iff_count_le_one.mpr fun p => ?_
  have hplaces : s.timerQueue_.inFlight.count p + (s.timerQueue_.timers_.toList.map
      Entry.timer).count p + (s.timerQueue_.phase.expired.map Entry.timer).count p ≤ 1 :=
    TimerQueue.places_le_one hinv p
  have hwaiting : s.waiting.count p ≤ s.timerQueue_.inFlight.count p := by
    by_cases hp : p ∈ s.waiting
    · have hpos : 0 < s.timerQueue_.inFlight.count p := List.count_pos_iff.mpr (h.waiting hp).1
      exact (List.nodup_iff_count_le_one.mp h.nodup p).trans hpos
    · rw [List.count_eq_zero.mpr hp]
      exact Nat.zero_le _
  rw [List.count_append, List.count_append]
  omega

/-- In every run a timer that has been constructed and not deleted is in exactly one place, and
there once: with one thread, in one functor, or in one entry of `timers_` or of `expired`. When the
thread of the loop is not in the handler of the timerfd, the destructor deletes the timers in
`timers_`, each of them once, and the others are left: those whose insertion waits in the queue of
the loop, and those whose thread is in front of `runInLoop`. -/
theorem destroyed_of_reaches [DecidableEq T] (h : Reaches (ofStep step) anyLabel init s) :
    (∀ p, (∃ t, s.timerQueue_.heap p = .live t) ↔ ∃! a, s.IsAt p a) ∧
      (s.waiting ++ s.timerQueue_.timers_.toList.map Entry.timer ++
        s.timerQueue_.phase.expired.map Entry.timer).Nodup ∧
      (∀ p c c' serial serial', s.adding c = some (.constructed p serial) →
        s.adding c' = some (.constructed p serial') → c = c') ∧
      (s.timerQueue_.phase = .idle → ∃ q, s.timerQueue_.destroy = .ok q ∧
        ∀ p, (∃ t, q.heap p = .live t) ↔ s.IsAt p .thread ∨ s.IsAt p .functor) := by
  have hposts : s.Posts := posts_of_reaches h
  have hinv : s.timerQueue_.Inv := TimerQueue.inv_of_reaches (reaches_timerQueue h)
  refine ⟨fun p => ?_, hposts.nodup_places hinv, fun _ _ _ _ _ h h' => hposts.unique h h',
    fun hphase => ?_⟩
  · rw [hposts.live_iff hinv]
    exact ⟨fun ⟨a, ha⟩ => ⟨a, ha, fun b hb => hposts.isAt_unique hinv hb ha⟩, ExistsUnique.exists⟩
  · obtain ⟨q, hq, hheap⟩ := TimerQueue.exists_destroy hinv
    refine ⟨q, hq, fun p => ?_⟩
    have htimers : p ∈ s.timerQueue_.timers_.toList.map Entry.timer ↔ s.IsAt p .timers :=
      List.mem_map
    rw [hheap]
    by_cases hp : s.IsAt p .timers
    · rw [if_pos (htimers.mpr hp)]
      refine iff_of_false (by simp) ?_
      rintro (ha | ha) <;> cases hposts.isAt_unique hinv hp ha
    · rw [if_neg (mt htimers.mp hp), hposts.live_iff hinv]
      constructor
      · rintro ⟨a, ha⟩
        cases a with
        | thread => exact .inl ha
        | functor => exact .inr ha
        | timers => exact absurd ha hp
        | expired =>
          obtain ⟨e, he, -⟩ := ha
          simp [hphase, ReadPhase.expired] at he
      · rintro (ha | ha)
        · exact ⟨_, ha⟩
        · exact ⟨_, ha⟩

/-- One timer is in `timers_` and another one waits in a functor; the second one leaks. -/
theorem destroyed_of_reaches_leak : ∃ s : SharedTimers Unit Unit Unit,
    s.timerQueue_.inFlight = [6] ∧ s.timerQueue_.timers_.toList = [⟨9, 5⟩] ∧
      ∃ q, s.timerQueue_.destroy = .ok q ∧
        ∀ p, (∃ t, q.heap p = .live t) ↔ s.IsAt p .thread ∨ s.IsAt p .functor := by
  obtain ⟨s, hs, hphase, hinFlight, htimers⟩ := Reaches.exists_of_run (C := anyLabel) (s := init)
    (P := fun s : SharedTimers Unit Unit Unit => s.timerQueue_.phase = .idle ∧
      s.timerQueue_.inFlight = [6] ∧ s.timerQueue_.timers_.toList = [⟨9, 5⟩]) step
    [.new none 5 () 9 2, .count none, .load none, .runInLoop none 1, .return_ none,
      .new (some ()) 6 () 7 0, .count (some ()), .load (some ()), .runInLoop (some ()) 2]
    (by decide +kernel)
  exact ⟨s, hinFlight, htimers, (destroyed_of_reaches hs).2.2.2 hphase⟩

end SharedTimers

end TinyMuduo
