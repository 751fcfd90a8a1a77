import TinyMuduo.Timer.Posted

/-!
# What `addTimer` returns, and cancelling it

`TimerQueue::addTimer` reads the sequence number of its timer behind `runInLoop`. On another thread
the loop may have inserted the timer by then, and may have run it; a timer that does not repeat is
deleted after its batch. When timers are registered for positive times, so that they repeat, and
only what `addTimer` has returned is cancelled, the timer is still there: `addTimer` returns its
`TimerId`, and no other call returns the same one.

The functors of a loop are called in the order in which they were queued. A cancel by another thread
of what `addTimer` has returned is therefore called behind the insertion, and stops the timer. On
the thread of the loop a cancel is called at once: it stops the timer unless the insertion still
waits in the queue, and is lost then.

## Main definitions

* `SharedTimers.Proper`: the guard of the runs.
* `SharedTimers.Returns`: the invariant for the calls of `addTimer` and what they returned.
* `SharedTimers.CancelWaits`: a cancel that waits behind the insertion of its timer.

## Main results

* `SharedTimers.returned_of_reaches`: what `addTimer` returns.
* `SharedTimers.not_ran_of_cancel`: a cancel that has been called stops its timer.
* `SharedTimers.lost_of_cancel`: a cancel on the thread of the loop that comes too early is lost.
-/

namespace TinyMuduo

open Transition

namespace TimerQueue

variable {T C : Type} (q : TimerQueue T C) {q' : TimerQueue T C} {ids : List TimerId}

/-- All timers repeat, and only those with the given `TimerId`s have been cancelled in the batch. -/
structure Repeating (ids : List TimerId) : Prop where
  repeats {p t} (ht : q.heap p = .live t) : t.repeat_ = true
  making {c m} (hm : q.making c = some m) : 0 < m.when_
  canceling {id} (h : id ∈ q.caneclingTimers_) : id ∈ ids

/-- A step that registers for a positive time, and cancels one of the given `TimerId`s. -/
def ProperStep (ids : List TimerId) : Action T C → Prop
  | .new _ _ _ when_ _ => 0 < when_
  | .cancelInLoop timerid => timerid ∈ ids
  | _ => True

variable {q}

section Effects

variable [DecidableEq T] {a : Action T C}

theorem Effect.repeating (heffect : q.Effect a q') (h : q.Repeating ids) (ha : ProperStep ids a) :
    q'.Repeating ids where
  repeats {p t} ht := by
    rcases heffect.live_cases ht with ht₀ | ⟨caller, cb, when_, interval, serial, hmaking, rfl⟩ |
      ⟨now, done, it, todo, t₀, hphase, ht₀, rfl⟩
    · exact h.repeats ht₀
    · exact decide_eq_true (h.making hmaking)
    · have hold := h.repeats ht₀
      exact hold
  making {c m} hm := by
    cases heffect with
    | new cb when_ interval hmaking hp =>
      rcases update_eq_some hm with ⟨-, hm⟩ | ⟨-, hm⟩
      · obtain rfl := Option.some.inj hm
        exact ha
      · exact h.making hm
    | count hmaking =>
      rcases update_eq_some hm with ⟨-, hm⟩ | ⟨-, hm⟩
      · obtain rfl := Option.some.inj hm
        have hold := h.making hmaking
        exact hold
      · exact h.making hm
    | load hmaking =>
      rcases update_eq_some hm with ⟨-, hm⟩ | ⟨-, hm⟩
      · cases hm
      · exact h.making hm
    | _ => exact h.making hm
  canceling {id} hid := by
    cases heffect with
    | cancelBatch hphase hactive =>
      rcases OrderedSet.mem_insert.mp hid with rfl | hid
      · exact ha
      · exact h.canceling hid
    | handleRead now sentinel n hphase hsize hactive =>
      exact absurd hid (OrderedSet.notMem_empty _)
    | _ => exact h.canceling hid

/-- A timer that repeats is deleted only when it is cancelled. -/
theorem Effect.stays_of_repeating (heffect : q.Effect a q') (hinv : q.Inv) (h : q.Repeating ids)
    (ha : ProperStep ids a) {p : Addr} {t : Timer C} (ht : q.heap p = .live t)
    (hid : ⟨p, t.sequence_⟩ ∉ ids) : ∃ t', q'.heap p = .live t' ∧ t.SameTimer t' := by
  refine heffect.stays hinv ht ?_ fun _ => ⟨h.repeats ht, fun hmem => hid (h.canceling hmem)⟩
  rintro rfl
  exact absurd ha hid

/-- The timers that a batch finds are not among those that have been cancelled. -/
theorem not_ran_of_doomed {w w' x : TimerQueue T C} {serial : ℕ} {id : TimerId} {r : ℚ}
    (hq : Reaches (ofStep step) anyLabel init q) (hmade : .made serial id r ∈ q.log)
    (hdoomed : q.Doomed serial) (hw : Reaches (ofStep step) anyLabel q w) {now : ℤ}
    {sentinel : Addr} {n : ℕ} (hread : w.step (.handleRead now sentinel n) = some w')
    (hx : Reaches (ofStep step) anyLabel w' x) :
    ∃ new, x.log = w'.log ++ new ∧ .ran serial ∉ new := by
  have hw₀ : Reaches (ofStep step) anyLabel init w := hq.trans hw
  have hdoomed' : w.Doomed serial := doomed_of_reaches hq hw hmade hdoomed
  obtain ⟨new, hlog⟩ := exists_log_of_reaches hq (hw.snoc trivial hread)
  refine ran_notMem_of_reaches (hw₀.snoc trivial hread) hx
    (hlog ▸ List.mem_append_left _ hmade) fun p t ht hserial => ?_
  cases step_effect (inv_of_reaches hw₀) hread with
  | handleRead _ _ _ hphase hsize hactive =>
    have hmem := (hdoomed' p t ht hserial).1
    simp [hphase, ReadPhase.expired] at hmem

end Effects

end TimerQueue

namespace SharedTimers

variable {T C F : Type} (s : SharedTimers T C F) {s' : SharedTimers T C F}

/-- Timers are registered for positive times, and what is cancelled was returned by `addTimer`. -/
def Proper : Action T C F → Prop
  | .new _ _ _ when_ _ => 0 < when_
  | .cancel _ timerid => timerid ∈ s.returned
  | _ => True

instance (s : SharedTimers T C F) : (a : Action T C F) → Decidable (s.Proper a)
  | .new _ _ _ when_ _ => inferInstanceAs (Decidable (0 < when_))
  | .cancel _ timerid => inferInstanceAs (Decidable (timerid ∈ s.returned))
  | .count _ | .load _ | .runInLoop .. | .return_ _ | .handler _ | .queueInLoop .. | .quit _
  | .notify _ | .poll _ | .handleRead | .loop _ => .isTrue trivial

/-- The invariant for the calls of `addTimer`: until a call returns its timer is there, and its
`TimerId` has not been returned; what was returned is the `TimerId` of a timer whose thread has
passed `runInLoop`. -/
structure Returns : Prop where
  live {c a} (h : s.adding c = some a) : ∃ t, s.timerQueue_.heap a.timer = .live t ∧
    t.serial = a.serial ∧ ⟨a.timer, t.sequence_⟩ ∉ s.returned
  unique {c c' a a'} (h : s.adding c = some a) (h' : s.adding c' = some a')
    (heq : a.timer = a'.timer) : c = c'
  repeating : s.timerQueue_.Repeating s.returned
  cancels {id} (h : .cancelInLoop id ∈ s.loop.items) : id ∈ s.returned
  returned {id} (h : id ∈ s.returned) : ∃ serial r, .made serial id r ∈ s.timerQueue_.log ∧
    ∀ c p, s.adding c ≠ some (.constructed p serial)
  nodup : s.returned.Nodup

variable {s}

theorem UserMove.cancels {e e' : Eventloop T (TimerFunctor F)} (h : UserMove e e') {id : TimerId}
    (hid : .cancelInLoop id ∈ e'.items) : .cancelInLoop id ∈ e.items := by
  cases h with
  | same hitems hlen => exact hitems ▸ hid
  | push cb hitems hlen => simpa [hitems] using hid
  | pop cb hitems hlen => exact hitems ▸ List.mem_cons_of_mem _ hid

section Runs

variable [DecidableEq T]

/-! ### What `addTimer` returns -/

/-- A step that starts no call of `addTimer` and ends none. -/
theorem Returns.of_same (h : s.Returns) (hinv : s.timerQueue_.Inv)
    (hqueue : s'.timerQueue_ = s.timerQueue_ ∨
      ∃ b, s.timerQueue_.step b = some s'.timerQueue_ ∧ TimerQueue.ProperStep s.returned b)
    (hadding : ∀ c a, s'.adding c = some a → s.adding c = some a ∨
      ∃ p serial, a = .posted p serial ∧ s.adding c = some (.constructed p serial))
    (hcancels : ∀ id, .cancelInLoop id ∈ s'.loop.items → id ∈ s.returned)
    (hreturned : s'.returned = s.returned) : s'.Returns := by
  have hold {c a} (hc : s'.adding c = some a) :
      ∃ a₀, s.adding c = some a₀ ∧ a₀.timer = a.timer ∧ a₀.serial = a.serial := by
    rcases hadding c a hc with hsame | ⟨p, serial, rfl, hconstructed⟩
    · exact ⟨a, hsame, rfl, rfl⟩
    · exact ⟨_, hconstructed, rfl, rfl⟩
  constructor
  case live =>
    intro c a hc
    obtain ⟨a₀, hc, htimer, hserial⟩ := hold hc
    obtain ⟨t, ht, hserial', hid⟩ := h.live hc
    rw [htimer] at ht hid
    rw [hreturned]
    rcases hqueue with hsame | ⟨b, hb, hproper⟩
    · exact ⟨t, hsame ▸ ht, hserial'.trans hserial, hid⟩
    · obtain ⟨t', ht', hsame⟩ := (TimerQueue.step_effect hinv hb).stays_of_repeating hinv
        h.repeating hproper ht hid
      exact ⟨t', ht', hsame.serial.symm.trans (hserial'.trans hserial), hsame.sequence ▸ hid⟩
  case unique =>
    intro c c' a a' hc hc' heq
    obtain ⟨a₀, hc, htimer, -⟩ := hold hc
    obtain ⟨a₀', hc', htimer', -⟩ := hold hc'
    exact h.unique hc hc' (htimer.trans (heq.trans htimer'.symm))
  case repeating =>
    rw [hreturned]
    rcases hqueue with hsame | ⟨b, hb, hproper⟩
    · exact hsame ▸ h.repeating
    · exact (TimerQueue.step_effect hinv hb).repeating h.repeating hproper
  case cancels => exact fun hid => hreturned ▸ hcancels _ hid
  case returned =>
    intro id hid
    rw [hreturned] at hid
    obtain ⟨serial, r, hmade, hnot⟩ := h.returned hid
    refine ⟨serial, r, ?_, fun c p hc => ?_⟩
    · rcases hqueue with hsame | ⟨b, hb, -⟩
      · exact hsame ▸ hmade
      · obtain ⟨new, hlog, -⟩ := (TimerQueue.step_effect hinv hb).exists_log
        exact hlog ▸ List.mem_append_left _ hmade
    · rcases hadding c _ hc with hc | ⟨p, serial, heq, -⟩
      · exact hnot c p hc
      · cases heq
  case nodup => exact hreturned ▸ h.nodup

/-- The end of a construction. -/
theorem Returns.load (h : s.Returns) (hinv : s.timerQueue_.Inv) (hids : s.timerQueue_.Ids)
    {caller : Option T} {m : Making C} {q : TimerQueue T C} (hqids : q.Ids)
    (hmaking : s.timerQueue_.making caller = some m)
    (heffect : s.timerQueue_.Effect (.load caller) q) :
    Returns { s with
      timerQueue_ := q
      adding := Function.update s.adding caller (some (.constructed m.addr m.serial)) } := by
  obtain ⟨-, t₀, ht₀, hserial₀⟩ := heffect.of_load hmaking
  have hcases {c a} (hc : Function.update s.adding caller
      (some (.constructed m.addr m.serial)) c = some a) :
      c = caller ∧ a = .constructed m.addr m.serial ∨ c ≠ caller ∧ s.adding c = some a :=
    (update_adding_cases hc).imp_left (And.imp_right fun heq => (Option.some.inj heq).symm)
  have hne {c a} (hc : s.adding c = some a) : m.addr ≠ a.timer := by
    obtain ⟨t, ht, -⟩ := h.live hc
    exact TimerQueue.addr_ne_of_live hinv hmaking ht
  have hlog {e} (he : e ∈ s.timerQueue_.log) : e ∈ q.log := by
    obtain ⟨new, hlog, -⟩ := heffect.exists_log
    exact hlog ▸ List.mem_append_left _ he
  constructor
  case live =>
    intro c a hc
    rcases hcases hc with ⟨-, rfl⟩ | ⟨-, hc⟩
    · refine ⟨t₀, ht₀, hserial₀, fun hid => ?_⟩
      obtain ⟨serial, r, hmade, -⟩ := h.returned hid
      obtain rfl : serial = m.serial :=
        (hqids.made_id (hlog hmade) (hqids.live ht₀)).trans hserial₀
      exact hids.making hmaking hmade
    · obtain ⟨t, ht, hserial, hid⟩ := h.live hc
      obtain ⟨t', ht', hsame⟩ :=
        heffect.stays_of_repeating hinv h.repeating trivial ht hid
      exact ⟨t', ht', hsame.serial.symm.trans hserial, hsame.sequence ▸ hid⟩
  case unique =>
    intro c c' a a' hc hc' heq
    rcases hcases hc with ⟨hcaller, rfl⟩ | ⟨-, hold⟩ <;>
      rcases hcases hc' with ⟨hcaller', rfl⟩ | ⟨-, hold'⟩
    · exact hcaller.trans hcaller'.symm
    · exact absurd heq (hne hold')
    · exact absurd heq.symm (hne hold)
    · exact h.unique hold hold' heq
  case repeating => exact heffect.repeating h.repeating trivial
  case cancels => exact h.cancels
  case returned =>
    intro id hid
    obtain ⟨serial, r, hmade, hnot⟩ := h.returned hid
    refine ⟨serial, r, hlog hmade, fun c p hc => ?_⟩
    rcases hcases hc with ⟨-, heq⟩ | ⟨-, hc⟩
    · cases heq
      exact hids.making hmaking hmade
    · exact hnot c p hc
  case nodup => exact h.nodup

/-- The return of `addTimer`. -/
theorem Returns.return_ (h : s.Returns) (hserials : s.timerQueue_.Serials)
    (hids : s.timerQueue_.Ids) {caller : Option T} {p₀ : Addr} {serial₀ : ℕ} {t₀ : Timer C}
    (hadding : s.adding caller = some (.posted p₀ serial₀))
    (ht₀ : s.timerQueue_.heap p₀ = .live t₀) :
    Returns { s with
      adding := Function.update s.adding caller none
      returned := s.returned ++ [⟨p₀, t₀.sequence_⟩] } := by
  have hold {c a} (hc : Function.update s.adding caller none c = some a) :
      c ≠ caller ∧ s.adding c = some a :=
    (update_adding_cases hc).resolve_left fun h => by cases h.2
  have hmem {id} : id ∈ s.returned ++ [⟨p₀, t₀.sequence_⟩] ↔
      id ∈ s.returned ∨ id = ⟨p₀, t₀.sequence_⟩ := by
    simp
  have hnew : ⟨p₀, t₀.sequence_⟩ ∉ s.returned := by
    obtain ⟨t, ht, -, hid⟩ := h.live hadding
    obtain rfl := Cell.live.inj (ht₀.symm.trans ht)
    exact hid
  constructor
  case live =>
    intro c a hc
    obtain ⟨hne, hc⟩ := hold hc
    obtain ⟨t, ht, hserial, hid⟩ := h.live hc
    refine ⟨t, ht, hserial, fun hmem' => ?_⟩
    rcases hmem.mp hmem' with hmem' | heq
    · exact hid hmem'
    · exact hne (h.unique hc hadding (congrArg TimerId.timer_ heq))
  case unique => exact fun hc hc' heq => h.unique (hold hc).2 (hold hc').2 heq
  case repeating =>
    exact ⟨h.repeating.repeats, h.repeating.making,
      fun hid => hmem.mpr (.inl (h.repeating.canceling hid))⟩
  case cancels => exact fun hid => hmem.mpr (.inl (h.cancels hid))
  case returned =>
    intro id hid
    rcases hmem.mp hid with hid | rfl
    · obtain ⟨serial, r, hmade, hnot⟩ := h.returned hid
      exact ⟨serial, r, hmade, fun c p hc => hnot c p (hold hc).2⟩
    · refine ⟨t₀.serial, t₀.interval_, hids.live ht₀, fun c p hc => ?_⟩
      obtain ⟨hne, hc⟩ := hold hc
      obtain ⟨t, ht, hserial, -⟩ := h.live hc
      have hp : p = p₀ := hserials.unique (.live ht hserial) (.live ht₀ rfl)
      exact hne (h.unique hc hadding hp)
  case nodup =>
    refine List.nodup_append.mpr ⟨h.nodup, List.nodup_singleton _, ?_⟩
    simpa using fun id hid => ne_of_mem_of_not_mem hid hnew

/-- Every step keeps the invariant. -/
theorem Move.returns {a : Action T C F} (hmove : s.Move a s') (ha : s.Proper a)
    (hq : Reaches (ofStep TimerQueue.step) anyLabel .init s.timerQueue_) (h : s.Returns) :
    s'.Returns := by
  have hinv := TimerQueue.inv_of_reaches hq
  have hids := TimerQueue.ids_of_reaches hq
  cases hmove with
  | @timers a b q hb hquiet hnew =>
    refine h.of_same hinv (.inr ⟨b, hb, ?_⟩) (fun c a hc => .inl hc) (fun _ => h.cancels) rfl
    cases b with
    | new caller p cb when_ interval =>
      obtain rfl := hnew caller p cb when_ interval rfl
      exact ha
    | cancelInLoop timerid => cases hquiet
    | _ => trivial
  | load hadding hmaking hb =>
    exact h.load hinv hids (TimerQueue.ids_of_reaches (hq.snoc trivial hb)) hmaking
      (TimerQueue.step_effect hinv hb)
  | @add p serial q now hadding hb =>
    refine h.of_same hinv (.inr ⟨_, hb, trivial⟩) (fun c a hc => ?_) (fun _ => h.cancels) rfl
    rcases update_adding_cases hc with ⟨rfl, heq⟩ | ⟨-, hold⟩
    · exact .inr ⟨p, serial, (Option.some.inj heq).symm, hadding⟩
    · exact .inl hold
  | @post t p serial e now hadding he =>
    refine h.of_same hinv (.inl rfl) (fun c a hc => ?_) (fun id hid => ?_) rfl
    · rcases update_adding_cases hc with ⟨rfl, heq⟩ | ⟨-, hold⟩
      · exact .inr ⟨p, serial, (Option.some.inj heq).symm, hadding⟩
      · exact .inl hold
    · rw [(Eventloop.items_queueInLoop he).1] at hid
      exact h.cancels (by simpa using hid)
  | return_ hadding ht => exact h.return_ (TimerQueue.serials_of_reaches hq) hids hadding ht
  | cancelHere hb =>
    exact h.of_same hinv (.inr ⟨_, hb, ha⟩) (fun c a hc => .inl hc) (fun _ => h.cancels) rfl
  | @cancelThere t timerid e he =>
    refine h.of_same hinv (.inl rfl) (fun c a hc => .inl hc) (fun id hid => ?_) rfl
    rw [(Eventloop.items_queueInLoop he).1, List.mem_append, List.mem_singleton] at hid
    rcases hid with hid | hid
    · exact h.cancels hid
    · cases hid
      exact ha
  | loop he huser =>
    exact h.of_same hinv (.inl rfl) (fun c a hc => .inl hc)
      (fun id hid => h.cancels (huser.cancels hid)) rfl
  | callAdd now he hitems hlen hb =>
    exact h.of_same hinv (.inr ⟨_, hb, trivial⟩) (fun c a hc => .inl hc)
      (fun id hid => h.cancels (hitems ▸ List.mem_cons_of_mem _ hid)) rfl
  | callCancel now he hitems hlen hb =>
    exact h.of_same hinv (.inr ⟨_, hb, h.cancels (hitems ▸ List.mem_cons_self)⟩)
      (fun c a hc => .inl hc)
      (fun id hid => h.cancels (hitems ▸ List.mem_cons_of_mem _ hid)) rfl

omit [DecidableEq T] in
private theorem returns_init : (init : SharedTimers T C F).Returns where
  live hc := by cases hc
  unique hc := by cases hc
  repeating :=
    { repeats := fun ht => by cases ht
      making := fun hm => by cases hm
      canceling := fun hid => absurd hid (OrderedSet.notMem_empty _) }
  cancels hid := absurd hid List.not_mem_nil
  returned hid := absurd hid List.not_mem_nil
  nodup := List.nodup_nil

theorem returns_of_reaches (h : Reaches (ofStep step) Proper init s) : s.Returns :=
  h.induct returns_init fun _ _ _ hu ha hstep ih =>
    (step_move hstep).returns ha (reaches_timerQueue hu) ih

/-- The timer of what was returned is inserted, or its insertion waits in the queue of the loop. -/
theorem settled_of_returned (h : Reaches (ofStep step) Proper init s) {id : TimerId}
    (hid : id ∈ s.returned) : ∃ serial r, .made serial id r ∈ s.timerQueue_.log ∧
      (.inserted serial ∈ s.timerQueue_.log ∨ .addTimerInLoop id.timer_ ∈ s.loop.items) := by
  obtain ⟨serial, r, hmade, hnot⟩ := (returns_of_reaches h).returned hid
  refine ⟨serial, r, hmade, ?_⟩
  refine (TimerQueue.settled_of_reaches (reaches_timerQueue h) serial id r hmade).imp_right ?_
  rintro ⟨hp, t, ht, hserial⟩
  rcases (posts_of_reaches h).inFlight hp with hp | ⟨c, serial', hc⟩
  · exact mem_waiting.mp hp
  · obtain ⟨-, t', ht', hserial'⟩ := (posts_of_reaches h).constructed hc
    obtain rfl := Cell.live.inj (ht.symm.trans ht')
    exact absurd hc (hserial' ▸ hserial ▸ hnot c _)

/-- What `addTimer` returns, in every run in which timers are registered for positive times and only
what it has returned is cancelled. When its timer has been passed to `runInLoop` and the loop has
been woken, the call can return, and it returns the `TimerId` of the timer that it has constructed,
which no call has returned before. What was returned is the `TimerId` of a timer that is inserted,
or whose insertion waits in the queue of the loop. -/
theorem returned_of_reaches (h : Reaches (ofStep step) Proper init s) :
    (∀ caller p serial, s.adding caller = some (.posted p serial) →
      s.loop.notifying caller = false → ∃ s' id r, s.step (.return_ caller) = some s' ∧
        s'.returned = s.returned ++ [id] ∧ id ∉ s.returned ∧
        .made serial id r ∈ s.timerQueue_.log) ∧
      ∀ id ∈ s.returned, ∃ serial r, .made serial id r ∈ s.timerQueue_.log ∧
        (.inserted serial ∈ s.timerQueue_.log ∨ .addTimerInLoop id.timer_ ∈ s.loop.items) := by
  have hq := reaches_timerQueue h
  have hreturns : s.Returns := returns_of_reaches h
  have hids := TimerQueue.ids_of_reaches hq
  refine ⟨fun caller p serial hadding hnotify => ?_, fun id hid => settled_of_returned h hid⟩
  obtain ⟨t, ht, hserial, hid⟩ := hreturns.live hadding
  obtain rfl : t.serial = serial := hserial
  have hderef : s.timerQueue_.deref p = .ok t := TimerQueue.deref_eq ht
  have hstep : s.step (.return_ caller) = some { s with
      adding := Function.update s.adding caller none
      returned := s.returned ++ [⟨p, t.sequence_⟩] } := by
    simp only [step, return_, hadding, hnotify, Bool.false_eq_true, if_false, hderef]
    rfl
  exact ⟨_, ⟨p, t.sequence_⟩, t.interval_, hstep, rfl, hid, hids.live ht⟩

/-- The loop inserts the timer and runs it before `addTimer` reads its sequence number. -/
theorem returned_of_reaches_ran : ∃ s s' : SharedTimers Unit Unit Unit,
    .ran 0 ∈ s.timerQueue_.log ∧ s.step (.return_ (some ())) = some s' ∧
      ∃ id r, s'.returned = s.returned ++ [id] ∧ .made 0 id r ∈ s.timerQueue_.log := by
  obtain ⟨s, hs, hran, hadding, hnotify⟩ := Reaches.exists_of_run (C := Proper) (s := init)
    (P := fun s : SharedTimers Unit Unit Unit => .ran 0 ∈ s.timerQueue_.log ∧
      s.adding (some ()) = some (.posted 5 0) ∧ s.loop.notifying (some ()) = false) step
    [.new (some ()) 5 () 3 2, .count (some ()), .load (some ()), .runInLoop (some ()) 1,
      .notify (some ()), .loop 1, .loop 1, .loop 1, .poll false, .loop 1, .loop 1, .loop 1, .loop 1,
      .loop 1, .loop 1, .loop 1, .poll false, .handler (.handleRead 3 9 1), .handler .run]
    (by decide +kernel)
  obtain ⟨s', id, r, hstep, hreturned, -, hmade⟩ := (returned_of_reaches hs).1 _ _ _ hadding hnotify
  exact ⟨s, s', hran, hstep, id, r, hreturned, hmade⟩

/-! ### Cancelling what `addTimer` returned -/

omit [DecidableEq T] in
/-- The functor of a cancel waits, and is going to be the `n`-th one that the loop calls, when the
first one is the 0-th. Its timer has been inserted, or the insertion waits in front of it. -/
def CancelWaits (s : SharedTimers T C F) (serial : ℕ) (timerid : TimerId) (n : ℕ) : Prop :=
  ∃ pre post, s.loop.items = pre ++ .cancelInLoop timerid :: post ∧
    s.loop.executed.length + pre.length = n ∧
    (.inserted serial ∈ s.timerQueue_.log ∨ .addTimerInLoop timerid.timer_ ∈ pre)

theorem Move.exists_log {a : Action T C F} (hmove : s.Move a s') (hinv : s.timerQueue_.Inv) :
    ∃ new, s'.timerQueue_.log = s.timerQueue_.log ++ new := by
  rcases hmove.timerQueue with hsame | ⟨b, hb⟩
  · exact ⟨[], by rw [hsame, List.append_nil]⟩
  · obtain ⟨new, hlog, -⟩ := (TimerQueue.step_effect hinv hb).exists_log
    exact ⟨new, hlog⟩

section CancelWaits

variable {serial n : ℕ} {timerid : TimerId} {r : ℚ}

omit [DecidableEq T] in
/-- A step that calls no functor. -/
theorem CancelWaits.of_append (h : s.CancelWaits serial timerid n)
    (hitems : ∃ new, s'.loop.items = s.loop.items ++ new)
    (hlen : s'.loop.executed.length = s.loop.executed.length)
    (hlog : ∃ new, s'.timerQueue_.log = s.timerQueue_.log ++ new) :
    s'.CancelWaits serial timerid n := by
  obtain ⟨pre, post, heq, hn, hinserted⟩ := h
  obtain ⟨new, hitems⟩ := hitems
  obtain ⟨new', hlog⟩ := hlog
  exact ⟨pre, post ++ new, by simp [hitems, heq], by rw [hlen, hn],
    hinserted.imp_left fun hmem => hlog ▸ List.mem_append_left _ hmem⟩

omit [DecidableEq T] in
/-- The call of a functor in front of the cancel: when it inserts the timer, the timer has been
inserted afterwards. -/
theorem CancelWaits.of_cons {cb : TimerFunctor F} {pre post : List (TimerFunctor F)}
    (hitems : s'.loop.items = pre ++ .cancelInLoop timerid :: post)
    (hlen : s'.loop.executed.length + pre.length = n)
    (hinserted : .inserted serial ∈ s.timerQueue_.log ∨ .addTimerInLoop timerid.timer_ ∈ cb :: pre)
    (hlog : ∃ new, s'.timerQueue_.log = s.timerQueue_.log ++ new)
    (hcb : cb = .addTimerInLoop timerid.timer_ → .inserted serial ∈ s'.timerQueue_.log) :
    s'.CancelWaits serial timerid n := by
  obtain ⟨new, hlog⟩ := hlog
  refine ⟨pre, post, hitems, hlen, ?_⟩
  rcases hinserted with hmem | hmem
  · exact .inl (hlog ▸ List.mem_append_left _ hmem)
  · rcases List.mem_cons.mp hmem with heq | hmem
    · exact .inl (hcb heq.symm)
    · exact .inr hmem

/-- A cancel that waits goes on waiting, or its timer is doomed. -/
theorem Move.cancelWaits {a : Action T C F} (hmove : s.Move a s')
    (hq : Reaches (ofStep TimerQueue.step) anyLabel .init s.timerQueue_)
    (hmade : .made serial timerid r ∈ s.timerQueue_.log) (h : s.CancelWaits serial timerid n) :
    s'.CancelWaits serial timerid n ∨ s'.timerQueue_.Doomed serial := by
  have hinv := TimerQueue.inv_of_reaches hq
  have hlog := hmove.exists_log hinv
  have hpop {cb : TimerFunctor F} {e : Eventloop T (TimerFunctor F)}
      (hitems : s.loop.items = cb :: e.items)
      (hlen : e.executed.length = s.loop.executed.length + 1) :
      (cb = .cancelInLoop timerid ∧ .inserted serial ∈ s.timerQueue_.log) ∨
        ∃ pre post, e.items = pre ++ .cancelInLoop timerid :: post ∧
          e.executed.length + pre.length = n ∧
          (.inserted serial ∈ s.timerQueue_.log ∨ .addTimerInLoop timerid.timer_ ∈ cb :: pre) := by
    obtain ⟨pre, post, heq, hn, hinserted⟩ := h
    rcases List.cons_eq_append_iff.mp (hitems.symm.trans heq) with ⟨rfl, hcons⟩ | ⟨pre, rfl, hrest⟩
    · exact .inl ⟨(List.cons.inj hcons).1.symm, hinserted.resolve_right List.not_mem_nil⟩
    · rw [List.length_cons] at hn
      exact .inr ⟨pre, post, hrest, by omega, hinserted⟩
  cases hmove with
  | timers hb hquiet hnew | load hadding hmaking hb | add now hadding hb | return_ hadding ht
  | cancelHere hb => exact .inl (h.of_append ⟨[], (List.append_nil _).symm⟩ rfl hlog)
  | post now hadding he | cancelThere he =>
    obtain ⟨hitems, hexec⟩ := Eventloop.items_queueInLoop he
    exact .inl (h.of_append ⟨_, hitems⟩ (congrArg List.length hexec) hlog)
  | loop he huser =>
    cases huser with
    | same hitems hlen => exact .inl (h.of_append ⟨[], by simpa using hitems⟩ hlen hlog)
    | push cb hitems hlen => exact .inl (h.of_append ⟨_, hitems⟩ hlen hlog)
    | pop cb hitems hlen =>
      rcases hpop hitems hlen with ⟨heq, -⟩ | ⟨pre, post, heq, hn, hinserted⟩
      · cases heq
      · exact .inl (.of_cons heq hn hinserted hlog (by simp))
  | callAdd now he hitems hlen hb =>
    rcases hpop hitems hlen with ⟨heq, -⟩ | ⟨pre, post, heq, hn, hinserted⟩
    · cases heq
    · refine .inl (.of_cons heq hn hinserted hlog fun hcb => ?_)
      cases hcb
      obtain ⟨-, -, t, ht, hmem⟩ := (TimerQueue.step_effect hinv hb).of_addTimerInLoop
      rcases TimerQueue.settled_of_reaches hq serial timerid r hmade with hold | ⟨-, t', ht', rfl⟩
      · obtain ⟨new, hlog⟩ := hlog
        exact hlog ▸ List.mem_append_left _ hold
      · cases ht.symm.trans ht'
        exact hmem
  | callCancel now he hitems hlen hb =>
    rcases hpop hitems hlen with ⟨heq, hinserted⟩ | ⟨pre, post, heq, hn, hinserted⟩
    · cases heq
      exact .inr ((TimerQueue.step_effect hinv hb).doomed_of_cancel hinv
        (TimerQueue.serials_of_reaches hq) (TimerQueue.ids_of_reaches hq) hmade hinserted)
    · exact .inl (.of_cons heq hn hinserted hlog (by simp))

/-- When the functor of the cancel has been called, the timer is doomed. -/
theorem doomed_of_cancelWaits {G : SharedTimers T C F → Action T C F → Prop}
    (hq : Reaches (ofStep TimerQueue.step) anyLabel .init s.timerQueue_)
    (hmade : .made serial timerid r ∈ s.timerQueue_.log) (h : s.CancelWaits serial timerid n)
    (hreach : Reaches (ofStep step) G s s') (hlen : n < s'.loop.executed.length) :
    s'.timerQueue_.Doomed serial := by
  have hall : s'.CancelWaits serial timerid n ∨ s'.timerQueue_.Doomed serial := by
    refine hreach.induct
      (I := fun u => u.CancelWaits serial timerid n ∨ u.timerQueue_.Doomed serial)
      (.inl h) fun u a v hu _ hstep ih => ?_
    have hu' := hq.trans (reaches_timerQueue hu)
    obtain ⟨new, hlog⟩ := TimerQueue.exists_log_of_reaches hq (reaches_timerQueue hu)
    have hmade' : .made serial timerid r ∈ u.timerQueue_.log :=
      hlog ▸ List.mem_append_left _ hmade
    rcases ih with hwaits | hdoomed
    · exact (step_move hstep).cancelWaits hu' hmade' hwaits
    · refine .inr (TimerQueue.doomed_of_reaches hu' ?_ hmade' hdoomed)
      exact reaches_timerQueue ((Reaches.refl u).snoc (C := anyLabel) trivial hstep)
  refine hall.resolve_left ?_
  rintro ⟨pre, post, -, hn, -⟩
  omega

end CancelWaits

/-- A cancel of what `addTimer` has returned, in a run in which timers are registered for positive
times and only what `addTimer` has returned is cancelled. From the state in which the cancel has
been called, at once on the thread of the loop and otherwise when the loop has called its functor,
no batch that starts later runs the timer. On the thread of the loop the insertion of the timer must
not wait any more. -/
theorem not_ran_of_cancel {caller : Option T} {timerid : TimerId} {v : SharedTimers T C F}
    (h : Reaches (ofStep step) Proper init s) (hid : timerid ∈ s.returned)
    (hcancel : s.step (.cancel caller timerid) = some s')
    (hhere : caller = none → .addTimerInLoop timerid.timer_ ∉ s.loop.items)
    (hv : Reaches (ofStep step) Proper s' v)
    (hcalled : caller ≠ none → s.loop.queued.length < v.loop.executed.length) :
    ∃ serial r, .made serial timerid r ∈ s.timerQueue_.log ∧
      ∀ w now sentinel n w' x, Reaches (ofStep step) Proper v w →
        w.step (.handler (.handleRead now sentinel n)) = some w' →
        Reaches (ofStep step) Proper w' x →
        ∃ new, x.timerQueue_.log = w'.timerQueue_.log ++ new ∧ .ran serial ∉ new := by
  have hq := reaches_timerQueue h
  have hinv := TimerQueue.inv_of_reaches hq
  have hq' := reaches_timerQueue (h.snoc (a := .cancel caller timerid) hid hcancel)
  obtain ⟨serial, r, hmade, hsettled⟩ := settled_of_returned h hid
  have hmade' {u : SharedTimers T C F} (hu : Reaches (ofStep step) Proper s u) :
      .made serial timerid r ∈ u.timerQueue_.log := by
    obtain ⟨new, hlog⟩ := TimerQueue.exists_log_of_reaches hq (reaches_timerQueue hu)
    exact hlog ▸ List.mem_append_left _ hmade
  have hs : Reaches (ofStep step) Proper s s' :=
    (Reaches.refl s).snoc (a := .cancel caller timerid) hid hcancel
  have hdoomed : v.timerQueue_.Doomed serial := by
    obtain ⟨-, hcancel⟩ := Option.ite_none_right_eq_some.mp hcancel
    cases caller with
    | none =>
      obtain ⟨q, hb, rfl⟩ := Option.map_eq_some_iff.mp hcancel
      have hinserted := hsettled.resolve_right (hhere rfl)
      have hdoomed' : q.Doomed serial := (TimerQueue.step_effect hinv hb).doomed_of_cancel hinv
        (TimerQueue.serials_of_reaches hq) (TimerQueue.ids_of_reaches hq) hmade hinserted
      exact TimerQueue.doomed_of_reaches hq' (reaches_timerQueue hv) (hmade' hs) hdoomed'
    | some t =>
      obtain ⟨e, he, rfl⟩ := Option.map_eq_some_iff.mp hcancel
      obtain ⟨hitems, hexec⟩ := Eventloop.items_queueInLoop he
      refine doomed_of_cancelWaits hq' (hmade' hs) ⟨s.loop.items, [], hitems, ?_, hsettled⟩ hv
        (hcalled (by simp))
      rw [Eventloop.length_queued (reaches_loop h), hexec]
  refine ⟨serial, r, hmade, fun w now sentinel n w' x hw hread hx => ?_⟩
  obtain ⟨-, hread⟩ := Option.ite_none_right_eq_some.mp hread
  obtain ⟨q, hb, rfl⟩ := Option.map_eq_some_iff.mp hread
  exact TimerQueue.not_ran_of_doomed (hq'.trans (reaches_timerQueue hv)) (hmade' (hs.trans hv))
    hdoomed (reaches_timerQueue hw) hb (reaches_timerQueue hx)

/-- Another thread adds a timer and cancels it before the loop calls a functor. -/
theorem not_ran_of_cancel_waiting : ∃ (v : SharedTimers Unit Unit Unit) (serial : ℕ),
    v.timerQueue_.timers_.toList = [] ∧
      ∀ w now sentinel n w' x, Reaches (ofStep step) Proper v w →
        w.step (.handler (.handleRead now sentinel n)) = some w' →
        Reaches (ofStep step) Proper w' x →
        ∃ new, x.timerQueue_.log = w'.timerQueue_.log ++ new ∧ .ran serial ∉ new := by
  obtain ⟨s, hs, hid, hrun⟩ := Reaches.exists_of_run (C := Proper) (s := init)
    (P := fun s : SharedTimers Unit Unit Unit => ⟨5, 1⟩ ∈ s.returned ∧
      ((s.step (.cancel (some ()) ⟨5, 1⟩)).bind fun s' => run step Proper s'
        [.notify (some ()), .loop 1, .loop 1, .loop 1, .poll true, .handleRead, .loop 1, .loop 1,
          .loop 1, .loop 1, .loop 1, .loop 1]).any
        fun v => s.loop.queued.length < v.loop.executed.length ∧
          v.timerQueue_.timers_.toList = []) step
    [.new (some ()) 5 () 3 2, .count (some ()), .load (some ()), .runInLoop (some ()) 1,
      .notify (some ()), .return_ (some ())] (by decide +kernel)
  obtain ⟨v, hv, hP⟩ := (Option.any_eq_true _ _).mp hrun
  obtain ⟨s', hcancel, hv⟩ := Option.bind_eq_some_iff.mp hv
  obtain ⟨hcalled, hempty⟩ := of_decide_eq_true hP
  obtain ⟨serial, r, -, hall⟩ := not_ran_of_cancel hs hid hcancel (by simp) (Reaches.of_run _ hv)
    fun _ => hcalled
  exact ⟨v, serial, hempty, hall⟩

/-- On the thread of the loop a cancel is lost while the insertion of its timer waits: it changes
neither the sets nor the timers, and the insertion goes on waiting. -/
theorem lost_of_cancel {timerid : TimerId} (h : Reaches (ofStep step) anyLabel init s)
    (hwaits : .addTimerInLoop timerid.timer_ ∈ s.loop.items)
    (hcancel : s.step (.cancel none timerid) = some s') :
    s'.loop = s.loop ∧ s'.timerQueue_.timers_ = s.timerQueue_.timers_ ∧
      s'.timerQueue_.activeTimers_ = s.timerQueue_.activeTimers_ ∧
      s'.timerQueue_.heap = s.timerQueue_.heap := by
  have hinv := TimerQueue.inv_of_reaches (reaches_timerQueue h)
  have hflight : timerid.timer_ ∈ s.timerQueue_.inFlight :=
    ((posts_of_reaches h).waiting (mem_waiting.mpr hwaits)).1
  obtain ⟨-, hcancel⟩ := Option.ite_none_right_eq_some.mp hcancel
  obtain ⟨q, hb, rfl⟩ := Option.map_eq_some_iff.mp hcancel
  cases TimerQueue.step_effect hinv hb with
  | cancel hphase ht hseq hmem =>
    exact absurd rfl (TimerQueue.ne_of_mem_of_inFlight hinv hmem hflight)
  | cancelBatch hphase hactive | cancelNothing hphase hactive => exact ⟨rfl, rfl, rfl, rfl⟩

end Runs

end SharedTimers

end TinyMuduo
