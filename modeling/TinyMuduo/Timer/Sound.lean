import TinyMuduo.Library.Log
import TinyMuduo.Timer.Effect

/-!
# No timer is used after its deletion

In every run of the threads, with any addresses from the allocator, any cancels and any prefix taken
by `getExpired`, `timers_` and `activeTimers_` have the same timers, no step is at fault, and what
the sets and the vector `expired` refer to are timers that have not been deleted. An address may be
that of several timers one after the other; the numbers of the constructions tell them apart.

## Main definitions

* `TimerQueue.IsTimer`: the timer with a number is at an address.
* `TimerQueue.Serials`: the invariant for the numbers and the log.
* `TimerQueue.SameTimers`, `TimerQueue.Refers`: what the result says about the sets.

## Main results

* `TimerQueue.inv_of_reaches`, `TimerQueue.serials_of_reaches`: the invariants hold in every run.
* `TimerQueue.sound`: the two sets agree, no step is at fault, and a timer is deleted at most once
  and not used after that.
-/

namespace TinyMuduo

open Transition

/-- The timer that an event is about. -/
def TimerEvent.about : TimerEvent → Option ℕ
  | made serial _ _ | inserted serial | ran serial | deleted serial => some serial
  | cancelled _ | read | settime _ => none

/-- The timer that an event is about has not been deleted before. -/
def TimerEvent.NotDeleted (pre : List TimerEvent) (e : TimerEvent) : Prop :=
  ∀ serial, e.about = some serial → .deleted serial ∉ pre

namespace TimerQueue

variable {T C : Type} (q : TimerQueue T C)

/-- The timer with a number is at an address, or under construction there. -/
inductive IsTimer (serial : ℕ) (p : Addr) : Prop
  | live {t} (ht : q.heap p = .live t) (hserial : t.serial = serial)
  | making {c m} (hm : q.making c = some m) (hp : m.addr = p) (hserial : m.serial = serial)

/-- The invariant for the numbers of the timers: a number is that of one timer, and of none after
the deletion. -/
structure Serials : Prop where
  lt_born {serial p} (h : q.IsTimer serial p) : serial < q.born
  unique {serial p p'} (h : q.IsTimer serial p) (h' : q.IsTimer serial p') : p = p'
  deleted {serial} (h : .deleted serial ∈ q.log) : serial < q.born ∧ ∀ p, ¬ q.IsTimer serial p
  holds : Log.Holds TimerEvent.NotDeleted q.log

/-- `timers_` and `activeTimers_` have the same timers, each with its current expiration and its
sequence number. -/
def SameTimers : Prop :=
  (∀ e ∈ q.timers_, ∃ t, q.heap e.timer = .live t ∧ t.expiration_ = e.when_ ∧
    ⟨e.timer, t.sequence_⟩ ∈ q.activeTimers_) ∧
  ∀ id ∈ q.activeTimers_, ∃ t, q.heap id.timer_ = .live t ∧ t.sequence_ = id.sequence_ ∧
    ⟨t.expiration_, id.timer_⟩ ∈ q.timers_

/-- An address is used by one of the sets or by the vector `expired`. -/
def Refers (p : Addr) : Prop :=
  (∃ e ∈ q.timers_, e.timer = p) ∨ (∃ id ∈ q.activeTimers_, id.timer_ = p) ∨
    ∃ e ∈ q.phase.expired, e.timer = p

variable {q} {q' : TimerQueue T C}

/-! ### The numbers of the timers -/

/-- The address of a construction is not that of a timer. -/
theorem addr_ne_of_live (h : q.Inv) {c : Option T} {m : Making C} {p : Addr} {t : Timer C}
    (hm : q.making c = some m) (ht : q.heap p = .live t) : m.addr ≠ p := by
  rintro rfl
  have hraw := h.making_raw hm
  rw [ht] at hraw
  cases hraw

theorem IsTimer.of_eq {serial : ℕ} {p : Addr} (h : q'.IsTimer serial p)
    (hheap : q'.heap = q.heap) (hmaking : q'.making = q.making) : q.IsTimer serial p := by
  cases h with
  | live ht hserial => exact .live (hheap ▸ ht) hserial
  | making hm hp hserial => exact .making (hmaking ▸ hm) hp hserial

/-- A timer that is written anew is the same timer. -/
theorem IsTimer.of_update {serial : ℕ} {p p₀ : Addr} {t t' : Timer C}
    (h : q'.IsTimer serial p) (ht : q.heap p₀ = .live t) (hserial : t'.serial = t.serial)
    (hheap : q'.heap = Function.update q.heap p₀ (.live t')) (hmaking : q'.making = q.making) :
    q.IsTimer serial p := by
  cases h with
  | @live t'' ht'' hserial'' =>
    rw [hheap] at ht''
    rcases of_update_live ht'' with ⟨rfl, rfl⟩ | ⟨-, ht''⟩
    · exact .live ht (hserial.symm.trans hserial'')
    · exact .live ht'' hserial''
  | making hm hp hserial => exact .making (hmaking ▸ hm) hp hserial

/-- Nothing is at the address of a deleted timer. -/
theorem IsTimer.of_delete (hinv : q.Inv) {serial : ℕ} {p p₀ : Addr} {t : Timer C}
    (h : q'.IsTimer serial p) (ht : q.heap p₀ = .live t)
    (hheap : q'.heap = Function.update q.heap p₀ .free) (hmaking : q'.making = q.making) :
    q.IsTimer serial p ∧ p ≠ p₀ := by
  cases h with
  | @live t'' ht'' hserial'' =>
    rw [hheap] at ht''
    obtain ⟨hp, ht''⟩ := of_update_dead ht'' rfl
    exact ⟨.live ht'' hserial'', hp⟩
  | @making c m hm hp hserial =>
    rw [hmaking] at hm
    exact ⟨.making hm hp hserial, hp ▸ addr_ne_of_live hinv hm ht⟩

/-- A step that deletes nothing. -/
theorem Serials.of_isTimer (h : q.Serials)
    (hsub : ∀ serial p, q'.IsTimer serial p → q.IsTimer serial p) (hborn : q'.born = q.born)
    {new : List TimerEvent} (hlog : q'.log = q.log ++ new)
    (hnew : ∀ e ∈ new, (∀ serial, e ≠ .deleted serial) ∧
      ∀ serial, e.about = some serial → ∃ p, q.IsTimer serial p) : q'.Serials where
  lt_born h' := hborn ▸ h.lt_born (hsub _ _ h')
  unique h₁ h₂ := h.unique (hsub _ _ h₁) (hsub _ _ h₂)
  deleted {serial} h' := by
    rw [hlog, List.mem_append] at h'
    rcases h' with h' | h'
    · obtain ⟨hlt, hnot⟩ := h.deleted h'
      exact ⟨hborn ▸ hlt, fun p hp => hnot p (hsub _ _ hp)⟩
    · exact absurd rfl ((hnew _ h').1 serial)
  holds := by
    rw [hlog, Log.holds_append]
    refine ⟨h.holds, fun pre e post hsplit serial habout hmem => ?_⟩
    have he : e ∈ new := by simp [hsplit]
    obtain ⟨p, hp⟩ := (hnew e he).2 serial habout
    rcases List.mem_append.mp hmem with hmem | hmem
    · exact (h.deleted hmem).2 p hp
    · exact (hnew (.deleted serial) (by simp [hsplit, hmem])).1 serial rfl

/-- A step that deletes a timer. -/
theorem Serials.delete (h : q.Serials) (hinv : q.Inv) {p₀ : Addr} {t : Timer C}
    (ht : q.heap p₀ = .live t) (hheap : q'.heap = Function.update q.heap p₀ .free)
    (hmaking : q'.making = q.making) (hborn : q'.born = q.born) {rest : List TimerEvent}
    (hlog : q'.log = q.log ++ .deleted t.serial :: rest)
    (hrest : ∀ e ∈ rest, e.about = none) : q'.Serials := by
  have hlive : q.IsTimer t.serial p₀ := .live ht rfl
  have hsub {serial p} (h' : q'.IsTimer serial p) : q.IsTimer serial p ∧ p ≠ p₀ :=
    h'.of_delete hinv ht hheap hmaking
  refine ⟨fun h' => hborn ▸ h.lt_born (hsub h').1,
    fun h₁ h₂ => h.unique (hsub h₁).1 (hsub h₂).1, fun {serial} h' => ?_, ?_⟩
  · rw [hlog, List.mem_append, List.mem_cons] at h'
    rcases h' with h' | h' | h'
    · obtain ⟨hlt, hnot⟩ := h.deleted h'
      exact ⟨hborn ▸ hlt, fun p hp => hnot p (hsub hp).1⟩
    · obtain rfl : serial = t.serial := TimerEvent.deleted.inj h'
      exact ⟨hborn ▸ h.lt_born hlive, fun p hp => (hsub hp).2 (h.unique (hsub hp).1 hlive)⟩
    · cases hrest _ h'
  · rw [hlog, Log.holds_append, Log.holds_cons]
    refine ⟨h.holds, fun serial habout hmem => ?_, fun pre e post hsplit serial habout => ?_⟩
    · obtain rfl : t.serial = serial := Option.some.inj habout
      exact (h.deleted (by simpa using hmem)).2 p₀ hlive
    · have he : e ∈ rest := by simp [hsplit]
      rw [hrest e he] at habout
      cases habout

/-- The allocation of memory for a timer, which gets the next number. -/
theorem Serials.new [DecidableEq T] (h : q.Serials) {caller : Option T} {p₀ : Addr} {m : Making C}
    (hm : m.addr = p₀) (hserial : m.serial = q.born) :
    Serials { q with
      heap := Function.update q.heap p₀ .raw
      making := Function.update q.making caller (some m)
      born := q.born + 1 } := by
  have hsub {serial p}
      (h' : IsTimer { q with
        heap := Function.update q.heap p₀ .raw
        making := Function.update q.making caller (some m)
        born := q.born + 1 } serial p) :
      q.IsTimer serial p ∨ serial = q.born ∧ p = p₀ := by
    rcases h' with @⟨t, ht, hs⟩ | @⟨c, m', hm', hp', hs⟩
    · exact .inl (.live (of_update_dead ht rfl).2 hs)
    · rcases update_eq_some hm' with ⟨-, hm'⟩ | ⟨-, hm'⟩
      · obtain rfl := Option.some.inj hm'
        exact .inr ⟨hs.symm.trans hserial, hp'.symm.trans hm⟩
      · exact .inl (.making hm' hp' hs)
  refine ⟨fun {serial p} h' => ?_, fun {serial p p'} h₁ h₂ => ?_, fun {serial} h' => ?_, h.holds⟩
  · change serial < q.born + 1
    rcases hsub h' with h' | ⟨rfl, -⟩
    · exact (h.lt_born h').trans (Nat.lt_succ_self _)
    · exact Nat.lt_succ_self _
  · rcases hsub h₁ with hold₁ | ⟨hs₁, hp₁⟩ <;> rcases hsub h₂ with hold₂ | ⟨hs₂, hp₂⟩
    · exact h.unique hold₁ hold₂
    · exact absurd hs₂ (h.lt_born hold₁).ne
    · exact absurd hs₁ (h.lt_born hold₂).ne
    · exact hp₁.trans hp₂.symm
  · obtain ⟨hlt, hnot⟩ := h.deleted h'
    refine ⟨hlt.trans (Nat.lt_succ_self _), fun p hp' => ?_⟩
    rcases hsub hp' with hp' | ⟨rfl, -⟩
    · exact hnot p hp'
    · exact lt_irrefl _ hlt

/-- The invariant for the numbers is kept. -/
theorem Effect.serials [DecidableEq T] {a : Action T C} (heffect : q.Effect a q') (hinv : q.Inv)
    (h : q.Serials) : q'.Serials := by
  cases heffect with
  | new cb when_ interval hmaking hp => exact h.new rfl rfl
  | @count caller p cb when_ interval serial hmaking =>
    refine h.of_isTimer (fun serial' p' h' => ?_) rfl (List.append_nil _).symm (by simp)
    rcases h' with @⟨t, ht, hs⟩ | @⟨c, m', hm', hp', hs⟩
    · exact .live ht hs
    · rcases update_eq_some hm' with ⟨-, hm'⟩ | ⟨-, hm'⟩
      · obtain rfl := Option.some.inj hm'
        exact .making hmaking hp' hs
      · exact .making hm' hp' hs
  | @load caller p cb when_ interval serial hmaking =>
    have hmade : q.IsTimer serial p := .making hmaking rfl rfl
    refine h.of_isTimer (fun serial' p' h' => ?_) rfl rfl ?_
    · rcases h' with @⟨t, ht, hs⟩ | @⟨c, m', hm', hp', hs⟩
      · rcases of_update_live ht with ⟨rfl, rfl⟩ | ⟨-, ht⟩
        · obtain rfl : serial = serial' := hs
          exact hmade
        · exact .live ht hs
      · rcases update_eq_some hm' with ⟨-, hm'⟩ | ⟨-, hm'⟩
        · cases hm'
        · exact .making hm' hp' hs
    · simpa [TimerEvent.about] using ⟨p, hmade⟩
  | addEarliest now hphase hp ht hear =>
    refine h.of_isTimer (fun serial p h' => h'.of_eq rfl rfl) rfl (List.append_assoc _ _ _) ?_
    simpa [TimerEvent.about] using ⟨_, .live ht rfl⟩
  | add now hphase hp ht he hle =>
    refine h.of_isTimer (fun serial p h' => h'.of_eq rfl rfl) rfl rfl ?_
    simpa [TimerEvent.about] using ⟨_, .live ht rfl⟩
  | cancel hphase ht hseq hmem =>
    refine h.delete hinv ht rfl rfl rfl (List.append_assoc _ _ _) ?_
    simp [TimerEvent.about]
  | cancelBatch hphase hactive | cancelNothing hphase hactive
  | handleRead now sentinel n hphase hsize hactive | rearm now' hphase he ht hpos =>
    refine h.of_isTimer (fun serial p h' => h'.of_eq rfl rfl) rfl rfl ?_
    simp [TimerEvent.about]
  | run hphase ht =>
    refine h.of_isTimer (fun serial p h' => h'.of_eq rfl rfl) rfl rfl ?_
    simpa [TimerEvent.about] using ⟨_, .live ht rfl⟩
  | return_ hphase | endCalls hphase | rearmNothing now' hphase hnot =>
    exact h.of_isTimer (fun serial p h' => h'.of_eq rfl rfl) rfl (List.append_nil _).symm (by simp)
  | restart hphase ht hrepeat hcancel =>
    refine h.of_isTimer (fun serial p h' => h'.of_update ht ?_ rfl rfl) rfl rfl ?_
    · rfl
    · simpa [TimerEvent.about] using ⟨_, .live ht rfl⟩
  | discard hphase ht hcancel =>
    refine h.delete hinv ht rfl rfl rfl rfl ?_
    simp

/-! ### Every run -/

theorem inv_init : (init : TimerQueue T C).Inv where
  places_eq _ := rfl
  making_raw h := by cases h
  making_inj h := by cases h
  keyed he := absurd he (OrderedSet.notMem_empty _)
  active id := by
    refine iff_of_false (OrderedSet.notMem_empty _) ?_
    rintro ⟨t, ht, -⟩
    cases ht
  size_eq := rfl
  flag := rfl

private theorem serials_init : (init : TimerQueue T C).Serials where
  lt_born h := by
    rcases h with ⟨ht, -⟩ | ⟨hm, -, -⟩
    · cases ht
    · cases hm
  unique h := by
    rcases h with ⟨ht, -⟩ | ⟨hm, -, -⟩
    · cases ht
    · cases hm
  deleted h := absurd h List.not_mem_nil
  holds := Log.holds_nil

theorem Inv.sameTimers (h : q.Inv) : q.SameTimers := by
  refine ⟨fun e he => ?_, fun id hid => (h.active id).mp hid⟩
  obtain ⟨t, ht⟩ := exists_live_of_mem h he
  have hkey := h.keyed he ht
  refine ⟨t, ht, hkey, (h.active _).mpr ⟨t, ht, rfl, ?_⟩⟩
  rw [hkey]
  exact he

theorem Inv.exists_live_of_refers (h : q.Inv) {p : Addr} (hp : q.Refers p) :
    ∃ t, q.heap p = .live t := by
  rcases hp with ⟨e, he, rfl⟩ | ⟨id, hid, rfl⟩ | ⟨e, he, rfl⟩
  · exact exists_live_of_mem h he
  · obtain ⟨t, ht, -⟩ := (h.active id).mp hid
    exact ⟨t, ht⟩
  · exact exists_live_of_expired h he

variable [DecidableEq T] {G : TimerQueue T C → Action T C → Prop}

/-- The invariant holds in every run. -/
theorem inv_of_reaches (h : Reaches (ofStep step) G init q) : q.Inv :=
  h.invariant inv_init fun _ _ _ hu _ hstep => (step_effect hu hstep).inv hu

/-- The invariant for the numbers holds in every run. -/
theorem serials_of_reaches (h : Reaches (ofStep step) G init q) : q.Serials :=
  h.induct serials_init fun _ _ _ hu _ hstep ih =>
    (step_effect (inv_of_reaches hu) hstep).serials (inv_of_reaches hu) ih

/-- In every run `timers_` and `activeTimers_` have the same timers, each with its current
expiration and its sequence number. No step fails an assertion or accesses a timer that does not
exist. The sets and the vector `expired` refer to timers that have not been deleted. A timer is not
inserted, run or deleted after it was deleted. -/
theorem sound (h : Reaches (ofStep step) anyLabel init q) :
    q.SameTimers ∧ (∀ a, q.enabled a = true → ∃ q', q.exec a = .ok q') ∧
      (∀ p, q.Refers p → ∃ t, q.heap p = .live t ∧ .deleted t.serial ∉ q.log) ∧
      Log.Holds TimerEvent.NotDeleted q.log := by
  have hinv : q.Inv := inv_of_reaches h
  have hserials : q.Serials := serials_of_reaches h
  refine ⟨hinv.sameTimers, fun a ha => ?_, fun p hp => ?_, hserials.holds⟩
  · obtain ⟨q', hexec, -⟩ := exists_effect hinv ha
    exact ⟨q', hexec⟩
  · obtain ⟨t, ht⟩ := hinv.exists_live_of_refers hp
    exact ⟨t, ht, fun hdeleted => (hserials.deleted hdeleted).2 p (.live ht rfl)⟩

/-- A callback cancels its own timer twice, and `reset` deletes it. -/
theorem sound_cancel_twice : ∃ q : TimerQueue Unit Unit,
    q.log.getLast? = some (.deleted 0) ∧ Log.Holds TimerEvent.NotDeleted q.log := by
  obtain ⟨q, hq, hlast⟩ := Reaches.exists_of_run (C := anyLabel) (s := init)
    (P := fun q : TimerQueue Unit Unit => q.log.getLast? = some (.deleted 0)) step
    [.new (some ()) 5 () 3 2, .count (some ()), .load (some ()), .addTimerInLoop 5 1,
      .handleRead 2 9 1, .run, .cancelInLoop ⟨5, 1⟩, .cancelInLoop ⟨5, 1⟩, .return_, .endCalls,
      .reset] (by decide +kernel)
  exact ⟨q, hlast, (sound hq).2.2.2⟩

end TimerQueue

end TinyMuduo
