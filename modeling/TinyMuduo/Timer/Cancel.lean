import TinyMuduo.Timer.Sound

/-!
# Cancelling a timer

A `TimerId` is the address of a timer with the number that its constructor has loaded. Two timers
may load the same number, and two timers may have the same address one after the other; but no two
timers of a run have the same `TimerId`. Therefore a cancel of a timer that was inserted stops this
timer: no batch that starts later runs it. The cancel leaves the other timers where they are, and
what it keeps in `caneclingTimers_` is never the `TimerId` of another timer.

## Main definitions

* `TimerQueue.Ids`: the invariant for the `TimerId`s.
* `TimerQueue.Doomed`: a timer that does not run in a later batch.
* `TimerQueue.Untouched`: a step does not change a timer and its places.

## Main results

* `TimerQueue.Ids.made_id`: a `TimerId` is that of one timer.
* `TimerQueue.cancelInLoop_sound`: a cancel stops its timer and no other one.
-/

namespace TinyMuduo

open Transition

/-- A timer at two times: only its expiration may have changed. -/
structure Timer.SameTimer {C : Type} (t t' : Timer C) : Prop where
  serial : t.serial = t'.serial
  sequence : t.sequence_ = t'.sequence_
  interval : t.interval_ = t'.interval_

theorem Timer.SameTimer.refl {C : Type} (t : Timer C) : t.SameTimer t := ⟨rfl, rfl, rfl⟩

namespace TimerQueue

variable {T C : Type} (q : TimerQueue T C) {q' : TimerQueue T C}

/-- The invariant for the `TimerId`s that have been handed out. A timer whose constructor has
incremented `s_numCreated` is going to load a number that no timer at its address has had. -/
structure Ids : Prop where
  lt_born {serial id r} (h : .made serial id r ∈ q.log) : serial < q.born
  made_le {serial id r} (h : .made serial id r ∈ q.log) : id.sequence_ ≤ q.s_numCreated
  made_lt {c p cb when_ interval serial serial' n r}
    (hm : q.making c = some (.counted p cb when_ interval serial))
    (h : .made serial' ⟨p, n⟩ r ∈ q.log) : n < q.s_numCreated
  made_id {serial serial' id r r'} (h : .made serial id r ∈ q.log)
    (h' : .made serial' id r' ∈ q.log) : serial = serial'
  made_serial {serial id id' r r'} (h : .made serial id r ∈ q.log)
    (h' : .made serial id' r' ∈ q.log) : id = id' ∧ r = r'
  making {c m id r} (hm : q.making c = some m) : .made m.serial id r ∉ q.log
  live {p t} (ht : q.heap p = .live t) : .made t.serial ⟨p, t.sequence_⟩ t.interval_ ∈ q.log
  about {e serial} (he : e ∈ q.log) (h : e.about = some serial) :
    ∃ id r, .made serial id r ∈ q.log
  inFlight {p t} (hp : p ∈ q.inFlight) (ht : q.heap p = .live t) : .inserted t.serial ∉ q.log

variable {q}

/-! ### A `TimerId` is that of one timer -/

/-- A step that constructs nothing. -/
theorem Ids.of_made (h : q.Ids) {new : List TimerEvent} (hlog : q'.log = q.log ++ new)
    (hnew : ∀ e ∈ new, (∀ serial id r, e ≠ .made serial id r) ∧
      ∀ serial, e.about = some serial → ∃ id r, .made serial id r ∈ q.log)
    (hborn : q'.born = q.born) (hnum : q'.s_numCreated = q.s_numCreated)
    (hmaking : q'.making = q.making)
    (hheap : ∀ p t', q'.heap p = .live t' → ∃ t, q.heap p = .live t ∧ t.SameTimer t')
    (hinFlight : ∀ p t, p ∈ q'.inFlight → q'.heap p = .live t →
      p ∈ q.inFlight ∧ .inserted t.serial ∉ new) : q'.Ids := by
  have hmade {serial id r} : .made serial id r ∈ q'.log ↔ .made serial id r ∈ q.log := by
    rw [hlog, List.mem_append]
    exact or_iff_left fun hmem => (hnew _ hmem).1 serial id r rfl
  constructor
  case lt_born =>
    intro serial id r h'
    rw [hborn]
    exact h.lt_born (hmade.mp h')
  case made_le =>
    intro serial id r h'
    rw [hnum]
    exact h.made_le (hmade.mp h')
  case made_lt =>
    intro c p cb when_ interval serial serial' n r hm h'
    rw [hmaking] at hm
    rw [hnum]
    exact h.made_lt hm (hmade.mp h')
  case made_id => exact fun h₁ h₂ => h.made_id (hmade.mp h₁) (hmade.mp h₂)
  case made_serial => exact fun h₁ h₂ => h.made_serial (hmade.mp h₁) (hmade.mp h₂)
  case making =>
    intro c m id r hm h'
    rw [hmaking] at hm
    exact h.making hm (hmade.mp h')
  case live =>
    intro p t' ht'
    obtain ⟨t, ht, hsame⟩ := hheap p t' ht'
    rw [hmade, ← hsame.serial, ← hsame.sequence, ← hsame.interval]
    exact h.live ht
  case about =>
    intro e serial he habout
    rw [hlog, List.mem_append] at he
    obtain ⟨id, r, hid⟩ : ∃ id r, .made serial id r ∈ q.log := by
      rcases he with he | he
      · exact h.about he habout
      · exact (hnew e he).2 serial habout
    exact ⟨id, r, hmade.mpr hid⟩
  case inFlight =>
    intro p t' hp ht'
    obtain ⟨hp', hnot⟩ := hinFlight p t' hp ht'
    obtain ⟨t, ht, hsame⟩ := hheap p t' ht'
    rw [hlog, List.mem_append, not_or]
    exact ⟨hsame.serial ▸ h.inFlight hp' ht, hnot⟩

/-- The allocation of memory for a timer. -/
theorem Ids.new [DecidableEq T] (h : q.Ids) {caller : Option T} {p : Addr} (cb : C) (when_ : ℤ)
    (interval : ℚ) :
    Ids { q with
      heap := Function.update q.heap p .raw
      making := Function.update q.making caller (some (.allocated p cb when_ interval q.born))
      born := q.born + 1 } := by
  have hlive {p' t} (ht : Function.update q.heap p .raw p' = .live t) : q.heap p' = .live t :=
    (of_update_dead ht rfl).2
  refine ⟨fun h' => (h.lt_born h').trans (Nat.lt_succ_self _), h.made_le, fun hm h' => ?_,
    h.made_id, h.made_serial, fun hm h' => ?_, fun ht => h.live (hlive ht), h.about,
    fun hp ht => h.inFlight hp (hlive ht)⟩
  · rcases update_eq_some hm with ⟨-, hm⟩ | ⟨-, hm⟩
    · cases hm
    · exact h.made_lt hm h'
  · rcases update_eq_some hm with ⟨-, hm⟩ | ⟨-, hm⟩
    · obtain rfl := Option.some.inj hm
      exact absurd (h.lt_born h') (lt_irrefl _)
    · exact h.making hm h'

/-- The increment of `s_numCreated`: the new number is that of no timer yet. -/
theorem Ids.count [DecidableEq T] (h : q.Ids) {caller : Option T} {p : Addr} {cb : C} {when_ : ℤ}
    {interval : ℚ} {serial : ℕ}
    (hmaking : q.making caller = some (.allocated p cb when_ interval serial)) :
    Ids { q with
      s_numCreated := q.s_numCreated + 1
      making := Function.update q.making caller (some (.counted p cb when_ interval serial)) } := by
  refine ⟨h.lt_born, fun h' => (h.made_le h').trans (Nat.le_succ _), fun _ h' => ?_, h.made_id,
    h.made_serial, fun hm h' => ?_, h.live, h.about, h.inFlight⟩
  · exact Nat.lt_succ_of_le (h.made_le h')
  · rcases update_eq_some hm with ⟨-, hm⟩ | ⟨-, hm⟩
    · obtain rfl := Option.some.inj hm
      exact h.making hmaking h'
    · exact h.making hm h'

/-- The load of `s_numCreated`: the number is larger than those of the earlier timers at the
address. -/
theorem Ids.load [DecidableEq T] (h : q.Ids) (hinv : q.Inv) (hserials : q.Serials)
    {caller : Option T} {p : Addr} {cb : C} {when_ : ℤ} {interval : ℚ} {serial : ℕ}
    (hmaking : q.making caller = some (.counted p cb when_ interval serial)) :
    Ids { q with
      heap := Function.update q.heap p (.live (.new cb when_ interval q.s_numCreated serial))
      making := Function.update q.making caller none
      inFlight := p :: q.inFlight
      log := q.log ++ [.made serial ⟨p, q.s_numCreated⟩ interval] } := by
  have hnotMade (id : TimerId) (r : ℚ) : .made serial id r ∉ q.log := h.making hmaking
  have hnew (n serial' : ℕ) (r : ℚ) (h' : .made serial' ⟨p, n⟩ r ∈ q.log) : n ≠ q.s_numCreated :=
    (h.made_lt hmaking h').ne
  have hmade {serial' id r} :
      .made serial' id r ∈ q.log ++ [.made serial ⟨p, q.s_numCreated⟩ interval] ↔
        .made serial' id r ∈ q.log ∨
          serial' = serial ∧ id = ⟨p, q.s_numCreated⟩ ∧ r = interval := by
    simp
  have hother {c m} (hm : Function.update q.making caller none c = some m) :
      q.making c = some m ∧ m.addr ≠ p ∧ m.serial ≠ serial := by
    rcases update_eq_some hm with ⟨-, hm⟩ | ⟨hc, hm⟩
    · cases hm
    · have haddr : m.addr ≠ p := fun heq => hc (hinv.making_inj hm hmaking heq)
      refine ⟨hm, haddr, fun heq => haddr ?_⟩
      have hm' : q.IsTimer serial m.addr := .making hm rfl heq
      exact hserials.unique hm' (.making hmaking rfl rfl)
  constructor
  case lt_born =>
    intro serial' id r h'
    rcases hmade.mp h' with h' | ⟨rfl, -⟩
    · exact h.lt_born h'
    · exact hserials.lt_born (.making hmaking rfl rfl)
  case made_le =>
    intro serial' id r h'
    rcases hmade.mp h' with h' | ⟨-, rfl, -⟩
    · exact h.made_le h'
    · exact le_rfl
  case made_lt =>
    intro c p' cb' when_' interval' serial' serial'' n r hm h'
    obtain ⟨hm, haddr, -⟩ := hother hm
    rcases hmade.mp h' with h' | ⟨-, hid, -⟩
    · exact h.made_lt hm h'
    · exact absurd (congrArg TimerId.timer_ hid) haddr
  case made_id =>
    intro serial₁ serial₂ id r₁ r₂ h₁ h₂
    rcases hmade.mp h₁ with h₁ | ⟨hs₁, hid₁, -⟩ <;> rcases hmade.mp h₂ with h₂ | ⟨hs₂, hid₂, -⟩
    · exact h.made_id h₁ h₂
    · rw [hid₂] at h₁
      exact absurd rfl (hnew _ _ _ h₁)
    · rw [hid₁] at h₂
      exact absurd rfl (hnew _ _ _ h₂)
    · exact hs₁.trans hs₂.symm
  case made_serial =>
    intro serial' id₁ id₂ r₁ r₂ h₁ h₂
    rcases hmade.mp h₁ with h₁ | ⟨hs₁, hid₁, hr₁⟩ <;>
      rcases hmade.mp h₂ with h₂ | ⟨hs₂, hid₂, hr₂⟩
    · exact h.made_serial h₁ h₂
    · exact absurd (hs₂ ▸ h₁) (hnotMade id₁ r₁)
    · exact absurd (hs₁ ▸ h₂) (hnotMade id₂ r₂)
    · exact ⟨hid₁.trans hid₂.symm, hr₁.trans hr₂.symm⟩
  case making =>
    intro c m id r hm h'
    obtain ⟨hm, -, hserial⟩ := hother hm
    rcases hmade.mp h' with h' | ⟨hs, -⟩
    · exact h.making hm h'
    · exact hserial hs
  case live =>
    intro p' t ht
    rw [hmade]
    rcases of_update_live ht with ⟨rfl, rfl⟩ | ⟨-, ht⟩
    · exact .inr ⟨rfl, rfl, rfl⟩
    · exact .inl (h.live ht)
  case about =>
    intro e serial' he habout
    rcases List.mem_append.mp he with he | he
    · obtain ⟨id, r, hid⟩ := h.about he habout
      exact ⟨id, r, hmade.mpr (.inl hid)⟩
    · obtain rfl := List.mem_singleton.mp he
      obtain rfl := Option.some.inj habout
      exact ⟨_, _, List.mem_append_right _ he⟩
  case inFlight =>
    intro p' t hp ht h'
    have hinserted : .inserted t.serial ∈ q.log := by simpa using h'
    rcases of_update_live ht with ⟨rfl, rfl⟩ | ⟨hne, ht⟩
    · obtain ⟨id, r, hid⟩ := h.about hinserted rfl
      exact hnotMade id r hid
    · exact h.inFlight ((List.mem_cons.mp hp).resolve_left hne) ht hinserted

/-- `reset` does not make another timer out of a timer. -/
theorem exists_of_restarted {it : Entry} {t t' : Timer C} {now : ℤ} {done todo : List Entry}
    {p : Addr} (ht : q.heap it.timer = .live t)
    (ht' : (q.restarted it t now done todo).heap p = .live t') :
    ∃ t₀, q.heap p = .live t₀ ∧ t₀.SameTimer t' := by
  rcases of_restarted_live ht' with ⟨rfl, rfl⟩ | ⟨-, ht'⟩
  · exact ⟨t, ht, rfl, rfl, rfl⟩
  · exact ⟨t', ht', .refl t'⟩

/-- Timers with different addresses have different numbers. -/
theorem serial_ne (hserials : q.Serials) {p p' : Addr} {t t' : Timer C} (ht : q.heap p = .live t)
    (ht' : q.heap p' = .live t') (hne : p ≠ p') : t.serial ≠ t'.serial :=
  fun heq => hne (hserials.unique (.live ht heq) (.live ht' rfl))

/-- The invariant for the `TimerId`s is kept. -/
theorem Effect.ids [DecidableEq T] {a : Action T C} (heffect : q.Effect a q') (hinv : q.Inv)
    (hserials : q.Serials) (h : q.Ids) : q'.Ids := by
  have hmade {p t} (ht : q.heap p = .live t) : ∃ id r, .made t.serial id r ∈ q.log :=
    ⟨_, _, h.live ht⟩
  have hsame (p : Addr) (t : Timer C) (ht : q.heap p = .live t) :
      ∃ t', q.heap p = .live t' ∧ t'.SameTimer t := ⟨t, ht, .refl t⟩
  cases heffect with
  | new cb when_ interval hmaking hp => exact h.new cb when_ interval
  | count hmaking => exact h.count hmaking
  | load hmaking => exact h.load hinv hserials hmaking
  | @addEarliest p t now hphase hp ht hear =>
    refine h.of_made (List.append_assoc _ _ _) (by simpa [TimerEvent.about] using hmade ht) rfl rfl
      rfl hsame fun p' t' hp' ht' => ⟨List.mem_of_mem_erase hp', ?_⟩
    have hne : p' ≠ p := fun heq => notMem_erase_inFlight hinv p (heq ▸ hp')
    simpa using serial_ne hserials ht' ht hne
  | @add p t e now hphase hp ht he hle =>
    refine h.of_made rfl (by simpa [TimerEvent.about] using hmade ht) rfl rfl rfl hsame
      fun p' t' hp' ht' => ⟨List.mem_of_mem_erase hp', ?_⟩
    have hne : p' ≠ p := fun heq => notMem_erase_inFlight hinv p (heq ▸ hp')
    simpa using serial_ne hserials ht' ht hne
  | cancel hphase ht hseq hmem =>
    exact h.of_made (List.append_assoc _ _ _) (by simpa [TimerEvent.about] using hmade ht) rfl rfl
      rfl (fun p' t' ht' => hsame p' t' (of_update_dead ht' rfl).2)
      fun p' t' hp' _ => ⟨hp', by simp⟩
  | cancelBatch hphase hactive | cancelNothing hphase hactive
  | handleRead now sentinel n hphase hsize hactive | rearm now' hphase he ht hpos =>
    exact h.of_made rfl (by simp [TimerEvent.about]) rfl rfl rfl hsame
      fun p' t' hp' _ => ⟨hp', by simp⟩
  | run hphase ht =>
    exact h.of_made rfl (by simpa [TimerEvent.about] using hmade ht) rfl rfl rfl hsame
      fun p' t' hp' _ => ⟨hp', by simp⟩
  | return_ hphase | endCalls hphase | rearmNothing now' hphase hnot =>
    exact h.of_made (List.append_nil _).symm (by simp) rfl rfl rfl hsame
      fun p' t' hp' _ => ⟨hp', by simp⟩
  | @restart now done it todo t hphase ht hrepeat hcancel =>
    refine h.of_made rfl (by simpa [restarted, TimerEvent.about] using hmade ht) rfl rfl rfl
      (fun p' t' ht' => exists_of_restarted ht ht')
      fun p' t' hp' ht' => ⟨hp', ?_⟩
    have hit : it ∈ q.phase.expired := by
      rw [hphase]
      exact List.mem_cons_self
    have hne : p' ≠ it.timer := (ne_of_mem_expired_of_inFlight hinv hit hp').symm
    have ht'' : q.heap p' = .live t' := (Function.update_of_ne hne ..).symm.trans ht'
    simpa using serial_ne hserials ht'' ht hne
  | discard hphase ht hcancel =>
    exact h.of_made rfl (by simpa [TimerEvent.about] using hmade ht) rfl rfl rfl
      (fun p' t' ht' => hsame p' t' (of_update_dead ht' rfl).2)
      fun p' t' hp' _ => ⟨hp', by simp⟩

/-! ### A cancelled timer does not run in a later batch -/

/-- A step appends to the log, and runs a timer that is live. -/
theorem Effect.exists_log [DecidableEq T] {a : Action T C} (heffect : q.Effect a q') :
    ∃ new, q'.log = q.log ++ new ∧
      ∀ serial, .ran serial ∈ new → ∃ p t, q.heap p = .live t ∧ t.serial = serial := by
  cases heffect with
  | new cb when_ interval hmaking hp | count hmaking | return_ hphase | endCalls hphase
  | rearmNothing now' hphase hnot => exact ⟨[], (List.append_nil _).symm, by simp⟩
  | load hmaking | add now hphase hp ht he hle | cancelBatch hphase hactive
  | cancelNothing hphase hactive | handleRead now sentinel n hphase hsize hactive
  | restart hphase ht hrepeat hcancel | discard hphase ht hcancel | rearm now' hphase he ht hpos =>
    exact ⟨_, rfl, by simp⟩
  | addEarliest now hphase hp ht hear | cancel hphase ht hseq hmem =>
    exact ⟨_, List.append_assoc _ _ _, by simp⟩
  | @run now ran it todo t hphase ht =>
    refine ⟨_, rfl, fun serial hran => ⟨it.timer, t, ht, ?_⟩⟩
    simpa using (List.mem_singleton.mp hran).symm

/-- A timer that is not live, or that is in the batch and marked for deletion. -/
def Doomed (q : TimerQueue T C) (serial : ℕ) : Prop :=
  ∀ p t, q.heap p = .live t → t.serial = serial →
    p ∈ q.phase.expired.map Entry.timer ∧ ⟨p, t.sequence_⟩ ∈ q.caneclingTimers_

/-- A timer that was constructed before the step is the same timer after it. -/
theorem Effect.exists_live [DecidableEq T] {a : Action T C} (heffect : q.Effect a q')
    (hids : q.Ids) {p : Addr} {t' : Timer C} {id : TimerId} {r : ℚ}
    (hmade : .made t'.serial id r ∈ q.log) (ht' : q'.heap p = .live t') :
    ∃ t, q.heap p = .live t ∧ t.SameTimer t' := by
  rcases heffect.live_cases ht' with ht | ⟨caller, cb, when_, interval, serial, hmaking, rfl⟩ |
    ⟨now, done, it, todo, t, hphase, ht, rfl⟩
  · exact ⟨t', ht, .refl t'⟩
  · exact absurd hmade (hids.making hmaking)
  · exact ⟨t, ht, rfl, rfl, rfl⟩

/-- What is doomed stays doomed: `reset` deletes the timers that have been marked. -/
theorem Effect.doomed [DecidableEq T] {a : Action T C} (heffect : q.Effect a q') (hids : q.Ids)
    {serial : ℕ} {id : TimerId} {r : ℚ} (hmade : .made serial id r ∈ q.log)
    (h : q.Doomed serial) : q'.Doomed serial := by
  intro p t' ht' hserial
  obtain ⟨t, ht, hsame⟩ := heffect.exists_live hids (hserial ▸ hmade) ht'
  obtain ⟨hmem, hmarked⟩ := h p t ht (hsame.serial.trans hserial)
  rw [← hsame.sequence]
  cases heffect with
  | new cb when_ interval hmaking hp | count hmaking | load hmaking
  | addEarliest now hphase hp ht hear | add now hphase hp ht he hle | cancel hphase ht hseq hmem'
  | cancelNothing hphase hactive => exact ⟨hmem, hmarked⟩
  | cancelBatch hphase hactive => exact ⟨hmem, OrderedSet.mem_insert.mpr (.inr hmarked)⟩
  | handleRead now sentinel n hphase hsize hactive => simp [hphase, ReadPhase.expired] at hmem
  | run hphase ht | return_ hphase | endCalls hphase =>
    refine ⟨?_, hmarked⟩
    simpa [hphase, ReadPhase.expired] using hmem
  | rearm now' hphase he ht hpos | rearmNothing now' hphase hnot =>
    simp [hphase, ReadPhase.expired] at hmem
  | @restart now done it todo t₀ hphase ht₀ hrepeat hcancel =>
    have hne : p ≠ it.timer := by
      rintro rfl
      obtain rfl := Cell.live.inj (ht₀.symm.trans ht)
      exact hcancel hmarked
    rw [hphase, ReadPhase.expired, List.map_cons, List.mem_cons] at hmem
    exact ⟨hmem.resolve_left hne, hmarked⟩
  | discard hphase ht₀ hcancel =>
    rw [hphase, ReadPhase.expired, List.map_cons, List.mem_cons] at hmem
    exact ⟨hmem.resolve_left (of_update_dead ht' rfl).1, hmarked⟩

/-- A timer that was inserted is in `timers_` or in the batch. -/
theorem mem_expired_of_inserted (hinv : q.Inv) (hids : q.Ids) {p : Addr} {t : Timer C}
    (ht : q.heap p = .live t) (hinserted : .inserted t.serial ∈ q.log)
    (hactive : ⟨p, t.sequence_⟩ ∉ q.activeTimers_) : p ∈ q.phase.expired.map Entry.timer := by
  have hplaces : q.places p = 1 := by
    rw [hinv.places_eq, ht]
    rfl
  have hinFlight : q.inFlight.count p = 0 :=
    List.count_eq_zero.mpr fun hp => hids.inFlight hp ht hinserted
  have htimers : (q.timers_.toList.map Entry.timer).count p = 0 := by
    refine List.count_eq_zero.mpr fun hp => ?_
    obtain ⟨e, he, rfl⟩ := List.mem_map.mp hp
    have hkey := hinv.keyed he ht
    exact hactive ((hinv.active _).mpr ⟨t, ht, rfl, by rwa [hkey]⟩)
  rw [places] at hplaces
  exact List.count_pos_iff.mp (by omega)

section Cancel

variable [DecidableEq T] {serial : ℕ} {timerid : TimerId} {r : ℚ}

/-- After a cancel of a timer that was inserted the timer is doomed: it was waiting and has been
deleted, it is in the batch and has been marked, or it was deleted before. -/
theorem Effect.doomed_of_cancel (heffect : q.Effect (.cancelInLoop timerid) q') (hinv : q.Inv)
    (hserials : q.Serials) (hids : q.Ids) (hmade : .made serial timerid r ∈ q.log)
    (hinserted : .inserted serial ∈ q.log) : q'.Doomed serial := by
  have hlate {p t} (hactive : timerid ∉ q.activeTimers_) (ht : q.heap p = .live t)
      (hserial : t.serial = serial) :
      p ∈ q.phase.expired.map Entry.timer ∧ timerid = ⟨p, t.sequence_⟩ := by
    subst hserial
    have hid : timerid = ⟨p, t.sequence_⟩ := (hids.made_serial hmade (hids.live ht)).1
    exact ⟨mem_expired_of_inserted hinv hids ht hinserted (hid ▸ hactive), hid⟩
  cases heffect with
  | @cancel _ t hphase ht hseq hmem =>
    intro p t' ht' hserial
    obtain ⟨hne, ht'⟩ := of_update_dead ht' rfl
    have hmade' := hids.live ht
    rw [hseq] at hmade'
    have hsame : t.serial = t'.serial := (hids.made_id hmade' hmade).trans hserial.symm
    exact absurd hsame (serial_ne hserials ht ht' hne.symm)
  | cancelBatch hphase hactive =>
    intro p t ht hserial
    obtain ⟨hmem, hid⟩ := hlate hactive ht hserial
    exact ⟨hmem, OrderedSet.mem_insert.mpr (.inl hid.symm)⟩
  | cancelNothing hphase hactive =>
    intro p t ht hserial
    obtain ⟨hmem, -⟩ := hlate hactive ht hserial
    simp [hphase, ReadPhase.expired] at hmem

/-- A step does not change what is at an address, nor where the address is used. -/
structure Untouched (q q' : TimerQueue T C) (p : Addr) : Prop where
  heap : q'.heap p = q.heap p
  timers (when_ : ℤ) : ⟨when_, p⟩ ∈ q'.timers_ ↔ ⟨when_, p⟩ ∈ q.timers_
  active (n : ℕ) : ⟨p, n⟩ ∈ q'.activeTimers_ ↔ ⟨p, n⟩ ∈ q.activeTimers_
  inFlight : p ∈ q'.inFlight ↔ p ∈ q.inFlight
  expired : q'.phase = q.phase

/-- A cancel does not touch the other timers. -/
theorem Effect.untouched_of_cancel (heffect : q.Effect (.cancelInLoop timerid) q') (hids : q.Ids)
    (hmade : .made serial timerid r ∈ q.log) {p : Addr}
    (hp : ∀ t, q.heap p = .live t → t.serial ≠ serial) : Untouched q q' p := by
  cases heffect with
  | @cancel _ t hphase ht hseq hmem =>
    have hne : p ≠ timerid.timer_ := by
      rintro rfl
      have hmade' := hids.live ht
      rw [hseq] at hmade'
      exact hp t ht (hids.made_id hmade' hmade)
    exact ⟨Function.update_of_ne hne .., fun when_ => by simp [removed, hne],
      fun n => by simp [removed, hne], Iff.rfl, rfl⟩
  | cancelBatch hphase hactive | cancelNothing hphase hactive =>
    exact ⟨rfl, fun _ => Iff.rfl, fun _ => Iff.rfl, Iff.rfl, rfl⟩

/-- A cancel marks its own `TimerId` at most. -/
theorem Effect.canceling_of_cancel (heffect : q.Effect (.cancelInLoop timerid) q') {id : TimerId}
    (hne : id ≠ timerid) : id ∈ q'.caneclingTimers_ ↔ id ∈ q.caneclingTimers_ := by
  cases heffect with
  | cancel hphase ht hseq hmem | cancelNothing hphase hactive => rfl
  | cancelBatch hphase hactive => simp [hne]

end Cancel

/-! ### Every run -/

private theorem ids_init : (init : TimerQueue T C).Ids where
  lt_born h := absurd h List.not_mem_nil
  made_le h := absurd h List.not_mem_nil
  made_lt _ h := absurd h List.not_mem_nil
  made_id h := absurd h List.not_mem_nil
  made_serial h := absurd h List.not_mem_nil
  making _ := List.not_mem_nil
  live ht := by cases ht
  about h := absurd h List.not_mem_nil
  inFlight _ _ := List.not_mem_nil

variable [DecidableEq T] {G : TimerQueue T C → Action T C → Prop}

/-- The invariant for the `TimerId`s holds in every run. -/
theorem ids_of_reaches (h : Reaches (ofStep step) G init q) : q.Ids :=
  h.induct ids_init fun _ _ _ hu _ hstep ih =>
    (step_effect (inv_of_reaches hu) hstep).ids (inv_of_reaches hu) (serials_of_reaches hu) ih

theorem exists_log_of_reaches (hq : Reaches (ofStep step) G init q)
    (h : Reaches (ofStep step) G q q') : ∃ new, q'.log = q.log ++ new := by
  refine h.induct (I := fun u => ∃ new, u.log = q.log ++ new) ⟨[], (List.append_nil _).symm⟩
    fun u a v hu _ hstep ⟨new, hlog⟩ => ?_
  obtain ⟨new', hlog', -⟩ := (step_effect (inv_of_reaches (hq.trans hu)) hstep).exists_log
  exact ⟨new ++ new', by rw [hlog', hlog, List.append_assoc]⟩

theorem doomed_of_reaches (hq : Reaches (ofStep step) G init q)
    (h : Reaches (ofStep step) G q q') {serial : ℕ} {id : TimerId}
    {r : ℚ} (hmade : .made serial id r ∈ q.log) (hdoomed : q.Doomed serial) : q'.Doomed serial := by
  refine h.induct (I := fun u => u.Doomed serial) hdoomed fun u a v hu _ hstep ih => ?_
  obtain ⟨new, hlog⟩ := exists_log_of_reaches hq hu
  have hmade' : .made serial id r ∈ u.log := hlog ▸ List.mem_append_left _ hmade
  exact (step_effect (inv_of_reaches (hq.trans hu)) hstep).doomed (ids_of_reaches (hq.trans hu))
    hmade' ih

/-- A timer that is not live does not run any more. -/
theorem ran_notMem_of_reaches (hq : Reaches (ofStep step) G init q)
    (h : Reaches (ofStep step) G q q') {serial : ℕ} {id : TimerId} {r : ℚ}
    (hmade : .made serial id r ∈ q.log) (hdead : ∀ p t, q.heap p = .live t → t.serial ≠ serial) :
    ∃ new, q'.log = q.log ++ new ∧ .ran serial ∉ new := by
  suffices hall : (∃ new, q'.log = q.log ++ new ∧ .ran serial ∉ new) ∧
      ∀ p t, q'.heap p = .live t → t.serial ≠ serial from hall.1
  refine h.induct (I := fun u => (∃ new, u.log = q.log ++ new ∧ .ran serial ∉ new) ∧
      ∀ p t, u.heap p = .live t → t.serial ≠ serial)
    ⟨⟨[], (List.append_nil _).symm, List.not_mem_nil⟩, hdead⟩
    fun u a v hu _ hstep ⟨⟨new, hlog, hnot⟩, hdead'⟩ => ?_
  have heffect := step_effect (inv_of_reaches (hq.trans hu)) hstep
  refine ⟨?_, ?_⟩
  · obtain ⟨new', hlog', hran⟩ := heffect.exists_log
    refine ⟨new ++ new', by rw [hlog', hlog, List.append_assoc], fun hmem => ?_⟩
    rcases List.mem_append.mp hmem with hmem | hmem
    · exact hnot hmem
    · obtain ⟨p, t, ht, hserial⟩ := hran serial hmem
      exact hdead' p t ht hserial
  · rintro p t' ht' rfl
    have hmade' : .made t'.serial id r ∈ u.log := hlog ▸ List.mem_append_left _ hmade
    obtain ⟨t, ht, hsame⟩ := heffect.exists_live (ids_of_reaches (hq.trans hu)) hmade' ht'
    exact hdead' p t ht hsame.serial

/-- A cancel of a timer that was inserted, by the `TimerId` of the timer. A batch that starts later
does not run the timer. The other timers and the constructions are not touched by the cancel, and
what it marks is the `TimerId` of no other timer at any time. -/
theorem cancelInLoop_sound {u v : TimerQueue T C} {serial : ℕ} {timerid : TimerId} {r : ℚ}
    (hu : Reaches (ofStep step) anyLabel init u) (hmade : .made serial timerid r ∈ u.log)
    (hinserted : .inserted serial ∈ u.log) (hcancel : u.step (.cancelInLoop timerid) = some v) :
    (∀ w now sentinel n w' x, Reaches (ofStep step) anyLabel v w →
      w.step (.handleRead now sentinel n) = some w' → Reaches (ofStep step) anyLabel w' x →
      ∃ new, x.log = w'.log ++ new ∧ .ran serial ∉ new) ∧
    (∀ p, (∀ t, u.heap p = .live t → t.serial ≠ serial) → Untouched u v p) ∧
    v.making = u.making ∧
    (∀ id ≠ timerid, id ∈ v.caneclingTimers_ ↔ id ∈ u.caneclingTimers_) ∧
    ∀ x p t, Reaches (ofStep step) anyLabel v x → x.heap p = .live t → t.serial ≠ serial →
      ⟨p, t.sequence_⟩ ≠ timerid := by
  have hinv := inv_of_reaches hu
  have hids := ids_of_reaches hu
  have heffect := step_effect hinv hcancel
  have hv : Reaches (ofStep step) anyLabel init v := hu.snoc trivial hcancel
  have hmade_of {x : TimerQueue T C} (hx : Reaches (ofStep step) anyLabel v x) :
      .made serial timerid r ∈ x.log := by
    obtain ⟨new, hlog, -⟩ := heffect.exists_log
    obtain ⟨new', hlog'⟩ := exists_log_of_reaches hv hx
    rw [hlog', hlog]
    exact List.mem_append_left _ (List.mem_append_left _ hmade)
  refine ⟨fun w now sentinel n w' x hw hread hx => ?_,
    fun p hp => heffect.untouched_of_cancel hids hmade hp, ?_,
    fun id hne => heffect.canceling_of_cancel hne, fun x p t hx ht hne heq => ?_⟩
  · have hw' : Reaches (ofStep step) anyLabel init w := hv.trans hw
    have hdoomed : w.Doomed serial := doomed_of_reaches hv hw (hmade_of (.refl v))
      (heffect.doomed_of_cancel hinv (serials_of_reaches hu) hids hmade hinserted)
    refine ran_notMem_of_reaches (hw'.snoc trivial hread) hx (hmade_of (hw.snoc trivial hread)) ?_
    have hread' := step_effect (inv_of_reaches hw') hread
    cases hread' with
    | handleRead now sentinel n hphase hsize hactive =>
      intro p t ht hserial
      have hmem := (hdoomed p t ht hserial).1
      simp [hphase, ReadPhase.expired] at hmem
  · cases heffect <;> rfl
  · have hids' := ids_of_reaches (hv.trans hx)
    have hmade' := hids'.live ht
    rw [heq] at hmade'
    exact hne (hids'.made_id hmade' (hmade_of hx))

/-- Two threads load the same number for their timers, and the callback of the one timer cancels the
other one, which has run in the same batch. -/
theorem cancelInLoop_sound_same_number : ∃ u v : TimerQueue Bool Unit,
    u.step (.cancelInLoop ⟨6, 2⟩) = some v ∧ .made 0 ⟨5, 2⟩ 2 ∈ u.log ∧
      ∀ w now sentinel n w' x, Reaches (ofStep step) anyLabel v w →
        w.step (.handleRead now sentinel n) = some w' → Reaches (ofStep step) anyLabel w' x →
        ∃ new, x.log = w'.log ++ new ∧ .ran 1 ∉ new := by
  obtain ⟨u, hu, ⟨hmade₀, hmade, hinserted⟩, hsome⟩ := Reaches.exists_of_run (C := anyLabel)
    (s := init)
    (P := fun u : TimerQueue Bool Unit =>
      (.made 0 ⟨5, 2⟩ 2 ∈ u.log ∧ .made 1 ⟨6, 2⟩ 2 ∈ u.log ∧ .inserted 1 ∈ u.log) ∧
        (u.step (.cancelInLoop ⟨6, 2⟩)).isSome) step
    [.new (some true) 5 () 3 2, .new (some false) 6 () 2 2, .count (some true),
      .count (some false), .load (some true), .load (some false), .addTimerInLoop 6 1,
      .addTimerInLoop 5 1, .handleRead 3 9 2, .run, .return_, .run] (by decide +kernel)
  obtain ⟨v, hv⟩ := Option.isSome_iff_exists.mp hsome
  exact ⟨u, v, hv, hmade₀, (cancelInLoop_sound hu hmade hinserted hv).1⟩

end TimerQueue

end TinyMuduo
